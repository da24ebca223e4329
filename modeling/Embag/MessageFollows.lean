import Embag.Library.Outcomes
import Embag.MessageShape

/-! Parsing ends as the layout does. Initialising a slot changes that slot and appends,
so what earlier slots represent stays; the loop over sibling slots and the recursion
through the schema are built on that frame. -/

namespace Embag

open LittleEndian Outcomes

namespace ParserState

/-- Between two calls, the counter of values is the number of values. -/
def Settled (s : ParserState) : Prop := s.rosValues.length = s.rosValuesOffset

variable {s : ParserState} {i : ℕ} {x y : RosValue}

theorem at?_of_getElem? (h : s.rosValues[i]? = some x) : s.at? i = .ok x := by
  simp only [at?, h]

theorem modify_of_getElem? {change : RosValue → Except Fault RosValue}
    (h : s.rosValues[i]? = some x) (hc : change x = .ok y) :
    s.modify i change = .ok { s with rosValues := s.rosValues.set i y } := by
  rw [modify, at?_of_getElem? h]
  simp only [bind, Except.bind, hc]
  rfl

theorem foldl_emplaceBack (n : ℕ) (s : ParserState) (x : RosValue) :
    (List.range n).foldl (fun s _ => s.emplaceBack x) s =
      { s with rosValues := s.rosValues ++ (List.range n).map fun _ => x } := by
  induction n with
  | zero => simp
  | succ n ih =>
    rw [List.range_succ, List.foldl_append, ih, List.foldl_cons, List.foldl_nil, emplaceBack,
      List.map_append, List.append_assoc]
    rfl

theorem getElem?_set_self_of_some (h : s.rosValues[i]? = some x) :
    (s.rosValues.set i y)[i]? = some y :=
  List.getElem?_set_self (List.getElem?_eq_some_iff.1 h).1

end ParserState

namespace MessageParser

open ParserState

variable {p : MessageParser}

/-- `s'` is `s` after slot `slot` was made to represent `shape`: the slot changed, its
descendants were appended, and the cursor moved to `q`. -/
structure Lays (p : MessageParser) (slot : ℕ) (shape : Shape) (q : ℕ) (s s' : ParserState) :
    Prop where
  settled : s'.Settled
  grows : s.rosValues.length ≤ s'.rosValues.length
  frame : ∀ j < s.rosValues.length, j ≠ slot → s'.rosValues[j]? = s.rosValues[j]?
  cursor : s'.messageBufferOffset = q
  represents : ∃ x, s'.rosValues[slot]? = some x ∧
    Represents p.messageBuffer s'.rosValues s.rosValues.length x shape

/-- `Lays` for the neighbouring slots from `first` on. The slot `owner` holds the
parent, which counts its children while they are initialised. -/
structure LaysList (p : MessageParser) (owner first : ℕ) (after : RosValue) (ss : List Shape)
    (q : ℕ) (s s' : ParserState) : Prop where
  settled : s'.Settled
  grows : s.rosValues.length ≤ s'.rosValues.length
  frame : ∀ j < s.rosValues.length, j ≠ owner → (j < first ∨ first + ss.length ≤ j) →
    s'.rosValues[j]? = s.rosValues[j]?
  owner : s'.rosValues[owner]? = some after
  cursor : s'.messageBufferOffset = q
  represents : ∀ i (h : i < ss.length), ∃ x, s'.rosValues[first + i]? = some x ∧
    Represents p.messageBuffer s'.rosValues s.rosValues.length x ss[i]

/-- The code `init` gives the fresh slot `slot` the shape of `layout`, or fails as it does. -/
def Follows (p : MessageParser) (init : ParserState → Except Fault ParserState) (slot : ℕ)
    (fresh : RosValue) (layout : Layout) : Prop :=
  ∀ s : ParserState, s.Settled → s.rosValues[slot]? = some fresh →
    Agree (fun s' r => Lays p slot r.1 r.2 s s') (init s) (layout s.messageBufferOffset)

theorem Follows.of_eq {init init' : ParserState → Except Fault ParserState} {slot : ℕ}
    {fresh : RosValue} {layout : Layout} (h : Follows p init slot fresh layout)
    (heq : ∀ s, s.rosValues[slot]? = some fresh → init' s = init s) :
    Follows p init' slot fresh layout := by
  intro s hs hslot
  rw [heq s hslot]
  exact h s hs hslot

section Siblings

variable {α : Type} {step : ParserState → α → Except Fault ParserState} {owner first : ℕ}
  {init : α → ℕ → ParserState → Except Fault ParserState} {layout : α → Layout} {items : List α}
  {parent fresh : ℕ → RosValue} {s : ParserState}

/-- A loop over sibling slots, each turn of which advances the parent and initialises
one slot. -/
structure Siblings (p : MessageParser) (step : ParserState → α → Except Fault ParserState)
    (owner first : ℕ) (init : α → ℕ → ParserState → Except Fault ParserState)
    (layout : α → Layout) (items : List α) (parent fresh : ℕ → RosValue) : Prop where
  owner_lt : owner < first
  step : ∀ i (hi : i < items.length) s, s.rosValues[owner]? = some (parent i) →
    step s items[i] =
      init items[i] (first + i) { s with rosValues := s.rosValues.set owner (parent (i + 1)) }
  follows : ∀ i (hi : i < items.length),
    Follows p (init items[i] (first + i)) (first + i) (fresh i) (layout items[i])

theorem Siblings.tail {a : α}
    (h : Siblings p step owner first init layout (a :: items) parent fresh) :
    Siblings p step owner (first + 1) init layout items (parent ∘ Nat.succ) (fresh ∘ Nat.succ) where
  owner_lt := Nat.lt_succ_of_lt h.owner_lt
  step i hi := by
    rw [Nat.add_assoc, Nat.add_comm 1]
    exact h.step (i + 1) (Nat.succ_lt_succ hi)
  follows i hi := by
    rw [Nat.add_assoc, Nat.add_comm 1]
    exact h.follows (i + 1) (Nat.succ_lt_succ hi)

theorem Siblings.first_turn {a : α}
    (h : Siblings p step owner first init layout (a :: items) parent fresh) (hs : s.Settled)
    (hparent : s.rosValues[owner]? = some (parent 0))
    (hfresh : ∀ i < (a :: items).length, s.rosValues[first + i]? = some (fresh i)) :
    Agree (fun s' r =>
        Lays p first r.1 r.2 { s with rosValues := s.rosValues.set owner (parent 1) } s')
      (step s a) (layout a s.messageBufferOffset) := by
  have hstep := h.step 0 (Nat.succ_pos _) s hparent
  rw [List.getElem_cons_zero, Nat.add_zero] at hstep
  have hslot : (s.rosValues.set owner (parent 1))[first]? = some (fresh 0) := by
    rw [List.getElem?_set_ne (Nat.ne_of_lt h.owner_lt)]
    exact hfresh 0 (Nat.succ_pos _)
  have hfollows := h.follows 0 (Nat.succ_pos _)
  rw [List.getElem_cons_zero, Nat.add_zero] at hfollows
  rw [hstep]
  exact hfollows { s with rosValues := s.rosValues.set owner (parent 1) }
    (by rw [Settled, List.length_set]; exact hs) hslot

theorem Lays.frame_of_turn {shape : Shape} {q : ℕ} {s s' : ParserState} {y : RosValue}
    (h : Lays p first shape q { s with rosValues := s.rosValues.set owner y } s')
    (howner : owner < first) (hlt : owner < s.rosValues.length) :
    s.rosValues.length ≤ s'.rosValues.length ∧ s'.rosValues[owner]? = some y ∧
      ∀ j < s.rosValues.length, j ≠ owner → j ≠ first → s'.rosValues[j]? = s.rosValues[j]? := by
  refine ⟨by simpa only [List.length_set] using h.grows, ?_, ?_⟩
  · rw [h.frame owner (by rw [List.length_set]; exact hlt) (Nat.ne_of_lt howner)]
    exact List.getElem?_set_self hlt
  · intro j hj ho hf
    rw [h.frame j (by rw [List.length_set]; exact hj) hf]
    exact List.getElem?_set_ne (Ne.symm ho)

theorem LaysList.cons {shape : Shape} {ss : List Shape} {q q' : ℕ} {s s₁ s' : ParserState}
    {y after : RosValue} (howner : owner < first) (hlt : first + ss.length < s.rosValues.length)
    (h₁ : Lays p first shape q { s with rosValues := s.rosValues.set owner y } s₁)
    (h : LaysList p owner (first + 1) after ss q' s₁ s') :
    LaysList p owner first after (shape :: ss) q' s s' := by
  obtain ⟨hgrow, -, hframe⟩ := h₁.frame_of_turn howner (by omega)
  refine ⟨h.settled, hgrow.trans h.grows, ?_, h.owner, h.cursor, ?_⟩
  · intro j hj ho hf
    rw [List.length_cons] at hf
    rw [h.frame j (lt_of_lt_of_le hj hgrow) ho (by omega), hframe j hj ho (by omega)]
  · intro i hi
    cases i with
    | zero =>
      obtain ⟨x, hx, hrep⟩ := h₁.represents
      rw [List.length_set] at hrep
      refine ⟨x, ?_, hrep.mono le_rfl ?_⟩
      · rw [Nat.add_zero, h.frame first (by omega) (by omega) (by omega), hx]
      · intro j hj hlt
        exact h.frame j hlt (by omega) (by omega)
    | succ i =>
      obtain ⟨x, hx, hrep⟩ := h.represents i (Nat.lt_of_succ_lt_succ hi)
      refine ⟨x, by rw [← hx]; congr 1; omega, ?_⟩
      exact hrep.mono hgrow fun _ _ _ => rfl

theorem Siblings.foldlM (h : Siblings p step owner first init layout items parent fresh)
    (hs : s.Settled) (hparent : s.rosValues[owner]? = some (parent 0))
    (hfresh : ∀ i < items.length, s.rosValues[first + i]? = some (fresh i)) :
    Agree (fun s' r => r.1.length = items.length ∧
        LaysList p owner first (parent items.length) r.1 r.2 s s')
      (items.foldlM step s) (shapes layout items s.messageBufferOffset) := by
  induction items generalizing first parent fresh s with
  | nil => exact .ok ⟨rfl, hs, le_rfl, fun _ _ _ _ => rfl, hparent, rfl, fun i h => absurd h (Nat.not_lt_zero i)⟩
  | cons a items ih =>
    have hlt : first + items.length < s.rosValues.length :=
      (List.getElem?_eq_some_iff.1 (hfresh items.length (Nat.lt_succ_self _))).1
    have howner := h.owner_lt
    rw [List.foldlM_cons, shapes]
    refine (h.first_turn hs hparent hfresh).bind fun s₁ r h₁ => ?_
    -- the state after the first turn is one the rest of the loop can start in
    obtain ⟨-, hown, hframe⟩ := h₁.frame_of_turn howner (by omega)
    have hslots : ∀ i < items.length,
        s₁.rosValues[first + 1 + i]? = some ((fresh ∘ Nat.succ) i) := by
      intro i hi
      rw [hframe (first + 1 + i) (by omega) (by omega) (by omega), Nat.add_assoc, Nat.add_comm 1]
      exact hfresh (i + 1) (Nat.succ_lt_succ hi)
    have hrest := ih h.tail h₁.settled hown hslots
    rw [h₁.cursor] at hrest
    rw [← bind_pure (items.foldlM step s₁)]
    refine hrest.bind fun s' r' hr' => .ok ⟨?_, ?_⟩
    · rw [List.length_cons, List.length_cons, hr'.1]
    · refine LaysList.cons howner ?_ h₁ hr'.2
      rw [hr'.1]
      exact hlt

end Siblings

structure LaysChildren (p : MessageParser) (owner : ℕ) (after : RosValue) (ss : List Shape) (q : ℕ)
    (s s' : ParserState) : Prop where
  settled : s'.Settled
  grows : s.rosValues.length ≤ s'.rosValues.length
  frame : ∀ j < s.rosValues.length, j ≠ owner → s'.rosValues[j]? = s.rosValues[j]?
  owner : s'.rosValues[owner]? = some after
  cursor : s'.messageBufferOffset = q
  children : ∃ xs : ℕ → RosValue,
    (∀ i < ss.length, s'.rosValues[s.rosValuesOffset + i]? = some (xs i)) ∧
    ∀ i (h : i < ss.length),
      Represents p.messageBuffer s'.rosValues s.rosValues.length (xs i) ss[i]

def appended (s : ParserState) (n : ℕ) (fresh : ℕ → RosValue) : ParserState :=
  { s with
    rosValues := s.rosValues ++ (List.range n).map fresh
    rosValuesOffset := s.rosValuesOffset + n }

theorem settled_appended {s : ParserState} (hs : s.Settled) (n : ℕ) (fresh : ℕ → RosValue) :
    (appended s n fresh).Settled := by
  unfold Settled appended
  rw [List.length_append, List.length_map, List.length_range]
  exact congrArg (· + n) hs

theorem appended_old {s : ParserState} {n j : ℕ} {fresh : ℕ → RosValue}
    (hj : j < s.rosValues.length) : (appended s n fresh).rosValues[j]? = s.rosValues[j]? :=
  List.getElem?_append_left hj

theorem appended_new {s : ParserState} {n i : ℕ} {fresh : ℕ → RosValue} (hi : i < n) :
    (appended s n fresh).rosValues[s.rosValues.length + i]? = some (fresh i) := by
  unfold appended
  rw [List.getElem?_append_right (Nat.le_add_right _ _), Nat.add_sub_cancel_left,
    List.getElem?_map, List.getElem?_range hi, Option.map_some]

section Appended

variable {α : Type} {step : ParserState → α → Except Fault ParserState} {owner : ℕ}
  {init : α → ℕ → ParserState → Except Fault ParserState} {layout : α → Layout} {items : List α}
  {parent fresh : ℕ → RosValue} {s : ParserState}

theorem Siblings.foldlM_appended
    (h : Siblings p step owner s.rosValues.length init layout items parent fresh) (hs : s.Settled)
    (hparent : s.rosValues[owner]? = some (parent 0)) :
    Agree (fun s' r => r.1.length = items.length ∧
        LaysChildren p owner (parent items.length) r.1 r.2 s s')
      (items.foldlM step (appended s items.length fresh))
      (shapes layout items s.messageBufferOffset) := by
  have hloop := h.foldlM (settled_appended hs items.length fresh)
    ((appended_old h.owner_lt).trans hparent) fun i hi => appended_new hi
  refine hloop.mono fun s' r ⟨hlen, hlays⟩ => ⟨hlen, ?_⟩
  have hgrow : s.rosValues.length ≤ (appended s items.length fresh).rosValues.length := by
    rw [appended, List.length_append]
    exact Nat.le_add_right _ _
  refine ⟨hlays.settled, hgrow.trans hlays.grows, ?_, hlays.owner, hlays.cursor, ?_⟩
  · intro j hj ho
    rw [hlays.frame j (lt_of_lt_of_le hj hgrow) ho (Or.inl hj), appended_old hj]
  · refine ⟨fun i => (s'.rosValues[s.rosValues.length + i]?).getD .ofArray, ?_, ?_⟩
    · intro i hi
      obtain ⟨x, hx, -⟩ := hlays.represents i hi
      rw [← hs]
      simp only [hx, Option.getD_some]
    · intro i hi
      obtain ⟨x, hx, hrep⟩ := hlays.represents i hi
      simp only [hx, Option.getD_some]
      exact hrep.mono hgrow fun _ _ _ => rfl

end Appended

theorem LaysChildren.lays {slot c q : ℕ} {y after : RosValue} {shape : Shape} {ss : List Shape}
    {s s' : ParserState}
    (h : LaysChildren p slot after ss q { s with
      rosValues := s.rosValues.set slot y
      messageBufferOffset := c } s')
    (hrep : ∀ xs : ℕ → RosValue,
      (∀ i < ss.length, s'.rosValues[s.rosValuesOffset + i]? = some (xs i)) →
      (∀ i (h : i < ss.length),
        Represents p.messageBuffer s'.rosValues s.rosValues.length (xs i) ss[i]) →
      Represents p.messageBuffer s'.rosValues s.rosValues.length after shape) :
    Lays p slot shape q s s' where
  settled := h.settled
  grows := by simpa only [List.length_set] using h.grows
  frame j hj hne := by
    rw [h.frame j (by simpa only [List.length_set] using hj) hne]
    exact List.getElem?_set_ne hne.symm
  cursor := h.cursor
  represents := by
    obtain ⟨xs, hslots, hchildren⟩ := h.children
    rw [List.length_set] at hchildren
    exact ⟨after, h.owner, hrep xs hslots hchildren⟩

theorem lays_of_set {slot q : ℕ} {shape : Shape} {s : ParserState} {x y : RosValue}
    (hs : s.Settled) (hx : s.rosValues[slot]? = some x)
    (hy : Represents p.messageBuffer (s.rosValues.set slot y) s.rosValues.length y shape) :
    Lays p slot shape q s { s with
      rosValues := s.rosValues.set slot y
      messageBufferOffset := q } where
  settled := by rw [Settled, List.length_set]; exact hs
  grows := by rw [List.length_set]
  frame j _ hj := List.getElem?_set_ne hj.symm
  cursor := rfl
  represents := ⟨y, getElem?_set_self_of_some hx, hy⟩

theorem modify_setPrimitive {slot : ℕ} {s : ParserState} {type : RosValueType}
    {info : PrimitiveInfo} (hslot : s.rosValues[slot]? = some (.primitive type info))
    (info' : PrimitiveInfo) :
    s.modify slot (RosValue.setPrimitive info') =
      .ok { s with rosValues := s.rosValues.set slot (.primitive type info') } :=
  modify_of_getElem? hslot rfl

theorem initPrimitive_follows {f : FieldDef} {slot : ℕ} {info : PrimitiveInfo} :
    Follows p (p.initPrimitive slot f) slot (.primitive f.type info)
      (shapePrimitive p.messageBuffer f) := by
  intro s hs hslot
  unfold initPrimitive shapePrimitive
  rw [modify_setPrimitive hslot, ok_bind]
  by_cases hstr : f.type = .string
  · rw [if_pos hstr, if_pos hstr, at?_of_getElem? (getElem?_set_self_of_some hslot), ok_bind,
      RosValue.getPrimitive, bind_assoc]
    refine Agree.bind_same _ fun _ _ => ?_
    rw [readWord, map_bind]
    refine Agree.bind_same _ fun bs hbs => .ok ?_
    rw [hstr] at hslot ⊢
    exact lays_of_set hs hslot (.string (by rw [readWord, hbs]; rfl))
  · rw [if_neg hstr, if_neg hstr]
    exact Agree.bind_same _ fun w hw => .ok (lays_of_set hs hslot (.scalar (typeSize_eq_ok hw)))

theorem foldlM_emplaceField (fields : List FieldDef) (fresh : ℕ → RosValue)
    (h : ∀ i (hi : i < fields.length), p.emplacedValue fields[i] = .ok (fresh i))
    (s : ParserState) :
    fields.foldlM p.emplaceField s = .ok (appended s fields.length fresh) := by
  induction fields generalizing fresh s with
  | nil =>
    simp only [appended, List.length_nil, List.range_zero, List.map_nil, List.append_nil]
    rfl
  | cons f fields ih =>
    have hf : p.emplacedValue f = .ok (fresh 0) := h 0 (by simp)
    rw [List.foldlM_cons, emplaceField, hf, ok_bind]
    simp only [pure, Except.pure, ok_bind]
    rw [ih (fresh ∘ Nat.succ) fun i hi => h (i + 1) (by simpa using hi)]
    simp only [appended, emplaceBack, List.length_cons, List.range_succ_eq_map, List.map_cons,
      List.map_map, List.append_assoc, List.singleton_append, Nat.add_assoc, Nat.add_comm 1]

theorem exists_children {P : FieldDef → RosValue → Prop} {fields : List FieldDef}
    (h : ∀ f ∈ fields, ∃ fresh, p.emplacedValue f = .ok fresh ∧ P f fresh) :
    ∃ children : ℕ → RosValue,
      (∀ s, fields.foldlM p.emplaceField s = .ok (appended s fields.length children)) ∧
      ∀ i (hi : i < fields.length), P fields[i] (children i) := by
  choose fresh hfresh hP using h
  let children (i : ℕ) : RosValue :=
    if h : i < fields.length then fresh fields[i] (List.getElem_mem h) else .ofArray
  have hchildren : ∀ i (hi : i < fields.length),
      children i = fresh fields[i] (List.getElem_mem hi) := fun i hi => dif_pos hi
  refine ⟨children, fun s => foldlM_emplaceField _ _ (fun i hi => ?_) s, fun i hi => ?_⟩
  · rw [hfresh fields[i] (List.getElem_mem hi), hchildren i hi]
  · rw [hchildren i hi]
    exact hP fields[i] (List.getElem_mem hi)

theorem initMember_eq {initObject : ℕ → BaseMsgDef → ParserState → Except Fault ParserState}
    {owner first i : ℕ} {f : FieldDef} {s : ParserState} {fieldIndexes : FieldIndexes}
    (h : s.rosValues[owner]? = some (.object ⟨first, i⟩ fieldIndexes)) :
    p.initMember initObject owner first s f = p.initChild initObject (first + i) f
      { s with rosValues := s.rosValues.set owner (.object ⟨first, i + 1⟩ fieldIndexes) } := by
  have hm : s.modify owner RosValue.incrementLength =
      .ok { s with rosValues := s.rosValues.set owner (.object ⟨first, i + 1⟩ fieldIndexes) } :=
    modify_of_getElem? h rfl
  rw [initMember, at?_of_getElem? h, ok_bind, hm]
  rfl

section InitChild

variable {initObject : ℕ → BaseMsgDef → ParserState → Except Fault ParserState} {slot : ℕ}
  {f : FieldDef} {s : ParserState}

theorem initChild_of_object {children : RosValueList} {d : BaseMsgDef}
    {fieldIndexes : FieldIndexes} (h : s.rosValues[slot]? = some (.object children fieldIndexes))
    (hd : p.msgDef.typeDefinition f = .ok d) :
    p.initChild initObject slot f s = initObject slot d s := by
  rw [initChild, at?_of_getElem? h, ok_bind, RosValue.getType_object, hd]
  rfl

theorem initChild_of_primitive {type : RosValueType} {info : PrimitiveInfo}
    (h : s.rosValues[slot]? = some (.primitive type info)) (htype : type.isContainer = false) :
    p.initChild initObject slot f s = p.initPrimitive slot f s := by
  rw [initChild, at?_of_getElem? h, ok_bind, RosValue.getType_primitive]
  cases type <;> first | rfl | cases htype

theorem initChild_of_array {x : RosValue} (h : s.rosValues[slot]? = some x)
    (htype : x.getType = .array ∨ x.getType = .primitiveArray) :
    p.initChild initObject slot f s = p.initArray initObject slot f s := by
  rw [initChild, at?_of_getElem? h, ok_bind]
  rcases htype with htype | htype <;> rw [htype]

end InitChild

theorem initObject_follows {d : BaseMsgDef} {fuel slot : ℕ}
    (hchild : ∀ f ∈ d.fields, ∃ fresh, p.emplacedValue f = .ok fresh ∧ ∀ slot,
      Follows p (p.initChild (p.initObject fuel) slot f) slot fresh
        (shapeField p.msgDef p.messageBuffer (shapeObject p.msgDef p.messageBuffer fuel) f)) :
    Follows p (p.initObject (fuel + 1) slot d) slot (.object {} d.fieldIndexes)
      (shapeObject p.msgDef p.messageBuffer (fuel + 1) d) := by
  intro s hs hslot
  obtain ⟨children, hemplace, hfollows⟩ := exists_children hchild
  let parent (i : ℕ) : RosValue := .object ⟨s.rosValuesOffset, i⟩ d.fieldIndexes
  have hmod : s.modify slot (RosValue.setObjectChildren ⟨s.rosValuesOffset, 0⟩) =
      .ok { s with rosValues := s.rosValues.set slot (parent 0) } :=
    modify_of_getElem? hslot (y := parent 0) rfl
  let s₀ : ParserState := { s with rosValues := s.rosValues.set slot (parent 0) }
  have hlen₀ : s₀.rosValues.length = s.rosValues.length := List.length_set
  have hs₀ : s₀.Settled := hlen₀.trans hs
  have hsiblings : Siblings p (p.initMember (p.initObject fuel) slot s.rosValuesOffset) slot
      s₀.rosValues.length (fun f slot => p.initChild (p.initObject fuel) slot f)
      (shapeField p.msgDef p.messageBuffer (shapeObject p.msgDef p.messageBuffer fuel)) d.fields
      parent children := by
    refine ⟨hlen₀ ▸ (List.getElem?_eq_some_iff.1 hslot).1, fun i hi s' hp => ?_, fun i hi => hfollows i hi _⟩
    rw [hlen₀, hs]
    exact initMember_eq hp
  have hloop := hsiblings.foldlM_appended hs₀ (getElem?_set_self_of_some hslot)
  rw [initObject, hmod, ok_bind, hemplace s₀, ok_bind, shapeObject, ← bind_pure (List.foldlM _ _ _)]
  refine hloop.bind fun s' r hr => .ok (hr.2.lays fun xs hslots hrep => ?_)
  rw [← hr.1]
  exact .object xs hs.le hr.1 hslots hrep

theorem arrayLength_follows (f : FieldDef) (s : ParserState) :
    Agree (fun r t => r = (t.1, { s with messageBufferOffset := t.2 })) (p.arrayLength f s)
      (shapeLength p.messageBuffer f s.messageBufferOffset) := by
  unfold arrayLength shapeLength
  by_cases hsize : f.arraySize = -1
  · rw [if_pos hsize, if_pos hsize]
    exact Agree.bind_same _ fun _ _ => Agree.bind_same _ fun length _ => .ok rfl
  · rw [if_neg hsize, if_neg hsize]
    exact .ok rfl

theorem arrayLoop_follows {slot n c : ℕ} (element : RosValue) {layout : Layout}
    (init : ℕ → ParserState → Except Fault ParserState)
    (hinit : ∀ slot, Follows p (init slot) slot element layout) {s : ParserState}
    (hs : s.Settled) (hslot : s.rosValues[slot]? = some (.array {})) :
    Agree (fun s' r => Lays p slot (.array r.1) r.2 s s')
      ((List.range n).foldlM (fun s' i => init (s.rosValuesOffset + i) s')
        (appended { s with
          rosValues := s.rosValues.set slot (.array ⟨s.rosValuesOffset, n⟩)
          messageBufferOffset := c } n fun _ => element))
      (shapes (fun _ => layout) (List.range n) c) := by
  let parent (_ : ℕ) : RosValue := .array ⟨s.rosValuesOffset, n⟩
  let s₀ : ParserState := { s with
    rosValues := s.rosValues.set slot (parent 0)
    messageBufferOffset := c }
  have hlen₀ : s₀.rosValues.length = s.rosValues.length := List.length_set
  have hsiblings : Siblings p (fun s' i => init (s.rosValuesOffset + i) s') slot
      s₀.rosValues.length (fun _ slot => init slot) (fun _ => layout) (List.range n) parent
      fun _ => element := by
    refine ⟨hlen₀ ▸ (List.getElem?_eq_some_iff.1 hslot).1, fun i hi s' hp => ?_,
      fun i hi => hinit _⟩
    obtain ⟨hlt, hget⟩ := List.getElem?_eq_some_iff.1 hp
    rw [show parent (i + 1) = s'.rosValues[slot] from hget.symm, List.set_getElem_self,
      List.getElem_range, hlen₀, hs]
  have hloop := hsiblings.foldlM_appended (hlen₀.trans hs) (getElem?_set_self_of_some hslot)
  rw [List.length_range] at hloop
  refine hloop.mono fun s' r ⟨hlen, hlays⟩ => hlays.lays fun xs hslots hrep => ?_
  show Represents _ _ _ (.array ⟨s.rosValuesOffset, n⟩) _
  rw [← hlen]
  exact .array xs hs.le hslots hrep

theorem initArray_follows_children {slot fuel : ℕ} {f : FieldDef}
    (htype : f.type = .object ∨ f.type = .string)
    (helement : f.type = .object → ∃ d, p.msgDef.typeDefinition f = .ok d ∧
      ∀ slot, Follows p (p.initObject fuel slot d) slot (.object {} d.fieldIndexes)
        (shapeObject p.msgDef p.messageBuffer fuel d)) :
    Follows p (p.initArray (p.initObject fuel) slot f) slot (.array {})
      (shapeArray p.msgDef p.messageBuffer (shapeObject p.msgDef p.messageBuffer fuel) f) := by
  intro s hs hslot
  unfold initArray shapeArray
  refine (arrayLength_follows f s).bind fun r t ht => ?_
  obtain ⟨n, c⟩ := t
  subst ht
  have hmod : ({ s with
        rosValuesOffset := s.rosValuesOffset + n
        messageBufferOffset := c } : ParserState).modify slot
      (RosValue.setArrayChildren ⟨s.rosValuesOffset, n⟩) = .ok { s with
        rosValues := s.rosValues.set slot (.array ⟨s.rosValuesOffset, n⟩)
        rosValuesOffset := s.rosValuesOffset + n
        messageBufferOffset := c } :=
    modify_of_getElem? hslot (y := .array ⟨s.rosValuesOffset, n⟩) rfl
  simp only [if_pos htype, hmod, ok_bind]
  by_cases hstr : f.type = .string
  · have hloop := arrayLoop_follows (.primitive f.type {}) (fun slot => p.initPrimitive slot f)
      (fun slot => initPrimitive_follows) (n := n) (c := c) hs hslot
    have hne : f.type ≠ .object := by rw [hstr]; exact nofun
    rw [if_pos hstr, show RosValue.ofType f.type = .ok (.primitive f.type {}) by rw [hstr]; rfl,
      ok_bind, foldl_emplaceBack, shapeElement_of_ne hne, ← bind_pure (List.foldlM _ _ _)]
    exact hloop.bind fun s' r hlays => .ok hlays
  · obtain ⟨d, hd, hfollows⟩ := helement (htype.resolve_right hstr)
    have hloop := arrayLoop_follows (.object {} d.fieldIndexes)
      (fun slot => p.initObject fuel slot d) hfollows (n := n) (c := c) hs hslot
    rw [if_neg hstr, hd, ok_bind, foldl_emplaceBack, shapeElement_of_definition hd,
      ← bind_pure (List.foldlM _ _ _)]
    exact hloop.bind fun s' r hlays => .ok hlays

/-- Arrays of scalars keep no values of their own: the bytes stay in the buffer. -/
theorem initArray_follows_primitive {slot fuel : ℕ} {f : FieldDef}
    (htype : ¬ (f.type = .object ∨ f.type = .string)) :
    Follows p (p.initArray (p.initObject fuel) slot f) slot
      (.primitiveArray f.type 0 0 p.messageBuffer)
      (shapeArray p.msgDef p.messageBuffer (shapeObject p.msgDef p.messageBuffer fuel) f) := by
  intro s hs hslot
  unfold initArray shapeArray
  refine (arrayLength_follows f s).bind fun r t ht => ?_
  obtain ⟨n, c⟩ := t
  subst ht
  have hmod : ({ s with messageBufferOffset := c } : ParserState).modify slot
      (RosValue.setPrimitiveArray c n) = .ok { s with
        rosValues := s.rosValues.set slot (.primitiveArray f.type c n p.messageBuffer)
        messageBufferOffset := c } :=
    modify_of_getElem? hslot (y := .primitiveArray f.type c n p.messageBuffer) rfl
  simp only [if_neg htype, hmod, ok_bind]
  exact Agree.bind_same _ fun w hw => .ok (lays_of_set hs hslot (.numbers (typeSize_eq_ok hw)))

theorem initChild_follows {fuel : ℕ} {f : FieldDef}
    (hobject : f.type = .object → ∃ d, p.msgDef.typeDefinition f = .ok d ∧
      ∀ slot, Follows p (p.initObject fuel slot d) slot (.object {} d.fieldIndexes)
        (shapeObject p.msgDef p.messageBuffer fuel d)) :
    ∃ fresh, p.emplacedValue f = .ok fresh ∧ ∀ slot,
      Follows p (p.initChild (p.initObject fuel) slot f) slot fresh
        (shapeField p.msgDef p.messageBuffer (shapeObject p.msgDef p.messageBuffer fuel) f) := by
  unfold shapeField
  by_cases hsize : f.arraySize = 0
  · rw [if_pos hsize]
    rcases f.type_eq_object_or with htype | htype
    · obtain ⟨d, hd, hfollows⟩ := hobject htype
      refine ⟨_, emplacedValue_object hsize hd, fun slot => ?_⟩
      rw [shapeElement_of_definition hd]
      exact (hfollows slot).of_eq fun s h => initChild_of_object h hd
    · refine ⟨_, emplacedValue_primitive hsize htype, fun slot => ?_⟩
      rw [shapeElement_of_ne (by rintro h; rw [h] at htype; cases htype)]
      exact initPrimitive_follows.of_eq fun s h => initChild_of_primitive h htype
  · rw [if_neg hsize]
    by_cases htype : f.type = .object ∨ f.type = .string
    · refine ⟨_, emplacedValue_array hsize htype, fun slot => ?_⟩
      exact (initArray_follows_children htype hobject).of_eq fun s h =>
        initChild_of_array h (Or.inl rfl)
    · refine ⟨_, emplacedValue_primitiveArray hsize htype, fun slot => ?_⟩
      exact (initArray_follows_primitive htype).of_eq fun s h =>
        initChild_of_array h (Or.inr rfl)

theorem mem_of_typeDefinition {m : MsgDef} {f : FieldDef} {d : BaseMsgDef}
    (hd : m.typeDefinition f = .ok d) : ∃ key, m.embeddedDefinitionMap.lookup key = some d := by
  unfold MsgDef.typeDefinition at hd
  split_ifs at hd
  split at hd
  · rename_i e he
    obtain ⟨key, -, hkey⟩ := Option.bind_eq_some_iff.1 he
    cases hd
    exact ⟨key, hkey⟩
  · cases hd

/-- Initialising an object follows its layout: the induction on how deep objects may nest. -/
theorem initObject_follows_shapeObject (hresolved : p.msgDef.Resolved) (fuel : ℕ) {d : BaseMsgDef}
    (hd : d = p.msgDef.toBaseMsgDef ∨ ∃ key, p.msgDef.embeddedDefinitionMap.lookup key = some d)
    (slot : ℕ) :
    Follows p (p.initObject fuel slot d) slot (.object {} d.fieldIndexes)
      (shapeObject p.msgDef p.messageBuffer fuel d) := by
  induction fuel generalizing d slot with
  | zero => exact fun s _ _ => .error _
  | succ fuel ih =>
    apply initObject_follows
    intro f hf
    apply initChild_follows
    intro hobj
    obtain ⟨e, he⟩ := hresolved d hd f hf hobj
    exact ⟨e, he, ih (Or.inr (mem_of_typeDefinition he))⟩

/-- Parsing a message ends as its layout does; the root slot then represents it. -/
theorem parse_follows (hresolved : p.msgDef.Resolved) (offset fuel : ℕ) :
    Agree (fun s' r => s'.messageBufferOffset = r.2 ∧ ∃ x, s'.rosValues[0]? = some x ∧
        Represents p.messageBuffer s'.rosValues 1 x r.1)
      (p.parse offset fuel)
      (shapeObject p.msgDef p.messageBuffer fuel p.msgDef.toBaseMsgDef offset) := by
  have hroot := initObject_follows_shapeObject hresolved fuel (Or.inl rfl) 0
    { rosValues := [RosValue.ofFieldIndexes p.msgDef.fieldIndexes],
      rosValuesOffset := 1, messageBufferOffset := offset } rfl rfl
  exact hroot.mono fun s' r h => ⟨h.cursor, h.represents⟩

end MessageParser

end Embag
