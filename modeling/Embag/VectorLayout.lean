import Embag.Library.Tiles
import Embag.MessagePaths
import Embag.ParserEvents
import Embag.SchemaBuilder

/-! The decoder's vector is a tree. Every value is initialised once and owns the slots
that are appended for its children; the slots it and its descendants own begin where the
vector ended when the call was entered. A loop over siblings puts such regions side by
side, and so the slices of all values tile the vector behind the root. -/

namespace Embag

open Log Loops LittleEndian Relation SchemaBuilder

/-- The children of the value in a slot, if it is an object or an array. -/
def childrenAt (base : List RosValue) (j : ℕ) : Option RosValueList :=
  match base[j]? with
  | some (.object children _) => some children
  | some (.array children) => some children
  | _ => none

def HoldsChild (base : List RosValue) (j k : ℕ) : Prop :=
  ∃ children, childrenAt base j = some children ∧ children.offset ≤ k ∧
    k < children.offset + children.length

theorem holdsChild_congr {base base' : List RosValue} {j : ℕ} (h : base'[j]? = base[j]?) (k : ℕ) :
    HoldsChild base j k ↔ HoldsChild base' j k := by
  simp only [HoldsChild, childrenAt, h]

/-- What a call leaves in its slot: as many children as its definition has fields, or as
its array has elements. -/
def InitCall.Holds (buffer : Bytes) (base : List RosValue) : InitCall → Prop
  | object slot d => ∃ c, base[slot]? = some (.object ⟨c, d.fields.length⟩ d.fieldIndexes)
  | array slot f cursor => ∃ n q, shapeLength buffer f cursor = .ok (n, q) ∧
      if f.type = .object ∨ f.type = .string then ∃ c, base[slot]? = some (.array ⟨c, n⟩)
      else base[slot]? = some (.primitiveArray f.type q n buffer)
  | primitive slot f cursor => base[slot]? = some (.primitive f.type ⟨cursor, some buffer⟩)

theorem InitCall.Holds.congr {buffer : Bytes} {base base' : List RosValue} {call : InitCall}
    (h : call.Holds buffer base) (hsame : base'[call.slot]? = base[call.slot]?) :
    call.Holds buffer base' := by
  cases call <;> rw [slot] at hsame <;> simpa only [Holds, hsame] using h

/-- A read of a length: the address of an element, and four bytes from there. -/
def readLength (buffer : Bytes) (position : ℕ) : Except Fault Bytes := do
  atIndex buffer position
  readRaw buffer position 4

namespace ParserEvent

def Good : ParserEvent → Prop
  | access index size => index < size
  | reads _ => True
  | enters _ offset size | returns _ offset size => offset = size

/-- The last event is a read of the buffer that ends in `e`. -/
def Fails (buffer : Bytes) (events : List ParserEvent) (e : Fault) : Prop :=
  ∃ before position, events = before ++ [.reads position] ∧ readLength buffer position = .error e

theorem keptByPrefix_fails (buffer : Bytes) : KeptByPrefix (Fails buffer) := by
  rintro earlier _ e ⟨before, position, rfl, h⟩
  exact ⟨earlier ++ before, position, (List.append_assoc _ _ _).symm, h⟩

end ParserEvent

def callsOf (events : List ParserEvent) : List InitCall :=
  events.filterMap fun
    | .enters call _ _ => some call
    | _ => none

@[simp] theorem callsOf_append (events after : List ParserEvent) :
    callsOf (events ++ after) = callsOf events ++ callsOf after :=
  List.filterMap_append

section Runs

variable {α β : Type} {buffer : Bytes} {s : ParserState} {i : ℕ} {v w : RosValue}

def Runs (buffer : Bytes) (post : List InitCall → α → Prop) (run : Logged α) : Prop :=
  Ensures ParserEvent.Good (ParserEvent.Fails buffer) (fun events a => post (callsOf events) a) run

variable {P : List InitCall → α → Prop} {Q : List InitCall → β → Prop}

theorem Runs.mono {P' : List InitCall → α → Prop} {run : Logged α} (h : Runs buffer P run)
    (hP : ∀ calls a, P calls a → P' calls a) : Runs buffer P' run :=
  Ensures.mono h fun _ _ => hP _ _

theorem Runs.pure {a : α} (h : P [] a) : Runs buffer P (pure a : Logged α) :=
  Ensures.pure h

theorem Runs.bind {x : Logged α} {f : α → Logged β} (h : Runs buffer P x)
    (hf : ∀ calls a, P calls a → Runs buffer (fun after b => Q (calls ++ after) b) (f a)) :
    Runs buffer Q (x >>= f) := by
  apply Ensures.bind (ParserEvent.keptByPrefix_fails buffer) h
  intro events a ha
  simpa only [Runs, callsOf_append] using hf _ a ha

theorem Runs.silent {x : Except Fault α} {a : α} {f : α → Logged β} (hx : x = .ok a)
    (hf : Runs buffer Q (f a)) : Runs buffer Q (Log.silent x >>= f) :=
  Ensures.step (ParserEvent.keptByPrefix_fails buffer) hx nofun hf

theorem Runs.access {f : RosValue → Logged β} (hv : s.rosValues[i]? = some v)
    (hf : Runs buffer Q (f v)) : Runs buffer Q (s.access i >>= f) := by
  rw [ParserState.access, bind_assoc]
  apply Ensures.told (ParserEvent.keptByPrefix_fails buffer)
  · exact (List.getElem?_eq_some_iff.1 hv).1
  · exact Runs.silent (ParserState.at?_of_getElem? hv) hf

theorem Runs.update {change : RosValue → Except Fault RosValue} {f : ParserState → Logged β}
    (hv : s.rosValues[i]? = some v) (hw : change v = .ok w)
    (hf : Runs buffer Q (f { s with rosValues := s.rosValues.set i w })) :
    Runs buffer Q (s.update i change >>= f) := by
  rw [ParserState.update, bind_assoc]
  apply Ensures.told (ParserEvent.keptByPrefix_fails buffer)
  · exact (List.getElem?_eq_some_iff.1 hv).1
  · exact Runs.silent (ParserState.modify_of_getElem? hv hw) hf

theorem Runs.reads {position : ℕ} {y : Except Fault α} {f : α → Logged β}
    (herror : ∀ e, y = .error e → readLength buffer position = .error e)
    (hok : ∀ a, y = .ok a → Runs buffer Q (f a)) :
    Runs buffer Q (tell (.reads position) >>= fun _ => Log.silent y >>= f) := by
  rcases hy : y with e | a
  · refine ⟨fun event hevent => ?_, nofun, fun e' he => ⟨[], position, rfl, ?_⟩⟩
    · obtain rfl := List.mem_singleton.1 hevent
      trivial
    · cases he
      exact herror e hy
  · apply Ensures.told (ParserEvent.keptByPrefix_fails buffer)
    · trivial
    · exact Runs.silent rfl (hok a hy)

theorem Runs.logged {Q : List InitCall → ParserState → Prop} {call : InitCall} {body : Logged ParserState}
    (hs : s.Settled) (h : Runs buffer (fun calls s' => s'.Settled ∧ Q (call :: calls) s') body) :
    Runs buffer Q (MessageParser.logged call s body) := by
  apply Ensures.told (ParserEvent.keptByPrefix_fails buffer) hs.symm
  apply Ensures.bind (ParserEvent.keptByPrefix_fails buffer) h
  rintro events s' ⟨hs', hq⟩
  apply Ensures.told (ParserEvent.keptByPrefix_fails buffer) hs'.symm
  apply Ensures.pure
  simpa [callsOf] using hq

end Runs

theorem range'_split {lo mid hi : ℕ} (hlo : lo ≤ mid) (hhi : mid ≤ hi) :
    List.range' lo (hi - lo) = List.range' lo (mid - lo) ++ List.range' mid (hi - mid) := by
  obtain ⟨m, rfl⟩ := Nat.exists_eq_add_of_le hlo
  obtain ⟨n, rfl⟩ := Nat.exists_eq_add_of_le hhi
  rw [Nat.add_sub_cancel_left, Nat.add_sub_cancel_left, Nat.add_assoc, Nat.add_sub_cancel_left,
    List.range'_append_1]

/-- `s'` is `s` after slot `slot` was initialised by `calls`: the slot and those appended
since are each entered once, and their slices tile the appended slots. -/
structure Fills (buffer : Bytes) (slot : ℕ) (s : ParserState) (calls : List InitCall)
    (s' : ParserState) : Prop where
  settled : s'.Settled
  grows : s.rosValues.length ≤ s'.rosValues.length
  frame : ∀ j < s.rosValues.length, j ≠ slot → s'.rosValues[j]? = s.rosValues[j]?
  tiles : Tiles (HoldsChild s'.rosValues) ({slot} ∪ Set.Ico s.rosValues.length s'.rosValues.length)
    s.rosValues.length s'.rosValues.length
  entered : (calls.map InitCall.slot).Perm
    (slot :: List.range' s.rosValues.length (s'.rosValues.length - s.rosValues.length))
  holds : ∀ call ∈ calls, call.Holds buffer s'.rosValues

/-- `Fills` for the `n` neighbouring slots from `first` on, while the slot `owner` counts
its children. -/
structure FillsAll (buffer : Bytes) (owner first n : ℕ) (after : RosValue) (s : ParserState)
    (calls : List InitCall) (s' : ParserState) : Prop where
  settled : s'.Settled
  grows : s.rosValues.length ≤ s'.rosValues.length
  frame : ∀ j < s.rosValues.length, j ≠ owner → (j < first ∨ first + n ≤ j) →
    s'.rosValues[j]? = s.rosValues[j]?
  owner : s'.rosValues[owner]? = some after
  tiles : Tiles (HoldsChild s'.rosValues)
    (Set.Ico first (first + n) ∪ Set.Ico s.rosValues.length s'.rosValues.length)
    s.rosValues.length s'.rosValues.length
  entered : (calls.map InitCall.slot).Perm
    (List.range' first n ++ List.range' s.rosValues.length (s'.rosValues.length - s.rosValues.length))
  holds : ∀ call ∈ calls, call.Holds buffer s'.rosValues

section Siblings

variable {α : Type} {buffer : Bytes} {owner first n : ℕ} {s s₁ s' : ParserState} {y after : RosValue}
  {calls calls' : List InitCall}

theorem FillsAll.nil (hs : s.Settled) (howner : s.rosValues[owner]? = some after) :
    FillsAll buffer owner first 0 after s [] s where
  settled := hs
  grows := le_rfl
  frame _ _ _ _ := rfl
  owner := howner
  tiles := by
    apply Tiles.empty
    rintro j (hj | hj) <;> simp at hj
  entered := by simp
  holds := nofun

theorem Fills.slot_mem {call : InitCall} (h : Fills buffer first s calls s') (hcall : call ∈ calls) :
    call.slot = first ∨ s.rosValues.length ≤ call.slot ∧ call.slot < s'.rosValues.length := by
  have hmem := h.entered.mem_iff.1 (List.mem_map.2 ⟨call, hcall, rfl⟩)
  rw [List.mem_cons, List.mem_range'_1] at hmem
  have hgrows := h.grows
  omega

theorem FillsAll.cons (howner : owner < first) (hlt : first + n < s.rosValues.length)
    (h₁ : Fills buffer first { s with rosValues := s.rosValues.set owner y } calls s₁)
    (h : FillsAll buffer owner (first + 1) n after s₁ calls' s') :
    FillsAll buffer owner first (n + 1) after s (calls ++ calls') s' := by
  have hset : (s.rosValues.set owner y).length = s.rosValues.length := List.length_set
  have hgrow : s.rosValues.length ≤ s₁.rosValues.length := hset ▸ h₁.grows
  -- the slots of the first sibling's region are out of the others' reach
  have hsame : ∀ j, j = first ∨ s.rosValues.length ≤ j ∧ j < s₁.rosValues.length →
      s'.rosValues[j]? = s₁.rosValues[j]? := by
    intro j hj
    exact h.frame j (by omega) (by omega) (by omega)
  have htiles := h₁.tiles
  have hentered := h₁.entered
  simp only [hset] at htiles hentered
  refine ⟨h.settled, hgrow.trans h.grows, ?_, h.owner, ?_, ?_, ?_⟩
  · intro j hj ho hf
    rw [h.frame j (by omega) ho (by omega), h₁.frame j (by simpa using hj) (by omega)]
    exact List.getElem?_set_ne (Ne.symm ho)
  · have hfirst := htiles.congr fun j hj k => holdsChild_congr (hsame j (by simpa using hj)) k
    have hboth := hfirst.append h.tiles hgrow h.grows
    convert hboth using 1
    have hgrows := h.grows
    ext j
    simp only [Set.mem_union, Set.mem_singleton_iff, Set.mem_Ico]
    omega
  · rw [List.map_append]
    refine (hentered.append h.entered).trans ?_
    rw [range'_split hgrow h.grows, List.range'_succ, List.cons_append, List.cons_append, ← List.append_assoc,
      ← List.append_assoc]
    exact (List.perm_append_comm.append_right _).cons first
  · intro call hcall
    rcases List.mem_append.1 hcall with hcall | hcall
    · apply (h₁.holds call hcall).congr
      apply hsame
      simpa only [hset] using h₁.slot_mem hcall
    · exact h.holds call hcall

/-- A loop over sibling slots, each turn of which advances the parent and initialises one
slot. -/
structure Turns (buffer : Bytes) (step : ParserState → α → Logged ParserState) (owner first : ℕ)
    (items : List α) (parent fresh : ℕ → RosValue) : Prop where
  owner_lt : owner < first
  turn : ∀ i (hi : i < items.length) s, s.Settled → s.rosValues[owner]? = some (parent i) →
    s.rosValues[first + i]? = some (fresh i) →
    Runs buffer (Fills buffer (first + i) { s with rosValues := s.rosValues.set owner (parent (i + 1)) })
      (step s items[i])

variable {step : ParserState → α → Logged ParserState} {items : List α} {parent fresh : ℕ → RosValue}

theorem Turns.tail {a : α} (h : Turns buffer step owner first (a :: items) parent fresh) :
    Turns buffer step owner (first + 1) items (parent ∘ Nat.succ) (fresh ∘ Nat.succ) where
  owner_lt := Nat.lt_succ_of_lt h.owner_lt
  turn i hi := by
    rw [Nat.add_assoc, Nat.add_comm 1]
    exact h.turn (i + 1) (Nat.succ_lt_succ hi)

/-- The loop: one sibling after the other. -/
theorem Turns.foldlM (h : Turns buffer step owner first items parent fresh) (hs : s.Settled)
    (hparent : s.rosValues[owner]? = some (parent 0))
    (hfresh : ∀ i < items.length, s.rosValues[first + i]? = some (fresh i)) :
    Runs buffer (FillsAll buffer owner first items.length (parent items.length) s)
      (items.foldlM step s) := by
  induction items generalizing first parent fresh s with
  | nil =>
    rw [List.foldlM_nil]
    exact Runs.pure (FillsAll.nil hs hparent)
  | cons a items ih =>
    have hlt : first + items.length < s.rosValues.length :=
      (List.getElem?_eq_some_iff.1 (hfresh items.length (Nat.lt_succ_self _))).1
    have howner := h.owner_lt
    have hturn := h.turn 0 (Nat.succ_pos _) s hs hparent (hfresh 0 (Nat.succ_pos _))
    rw [List.getElem_cons_zero, Nat.add_zero] at hturn
    rw [List.foldlM_cons]
    apply hturn.bind
    intro calls s₁ h₁
    have hset : (s.rosValues.set owner (parent 1)).length = s.rosValues.length := List.length_set
    -- the state after the turn is one the rest of the loop can start in
    have hown : s₁.rosValues[owner]? = some (parent 1) := by
      rw [h₁.frame owner (by simp only [hset]; omega) (by omega)]
      exact List.getElem?_set_self (by omega)
    have hslots : ∀ i < items.length, s₁.rosValues[first + 1 + i]? = some ((fresh ∘ Nat.succ) i) := by
      intro i hi
      rw [h₁.frame (first + 1 + i) (by simp only [hset]; omega) (by omega)]
      rw [List.getElem?_set_ne (by omega), Nat.add_assoc, Nat.add_comm 1]
      exact hfresh (i + 1) (Nat.succ_lt_succ hi)
    apply (ih h.tail h₁.settled hown hslots).mono
    intro calls' s' h'
    exact FillsAll.cons howner hlt h₁ h'

end Siblings

section Children

variable {α : Type} {buffer : Bytes} {slot n : ℕ} {s s' : ParserState} {children : RosValueList}
  {y after : RosValue} {calls : List InitCall} {call : InitCall}

theorem FillsAll.fills {fresh : ℕ → RosValue} {cursor : ℕ}
    (hslot : slot < s.rosValues.length)
    (h : FillsAll buffer slot s.rosValues.length n after (MessageParser.appended { s with
      rosValues := s.rosValues.set slot y
      messageBufferOffset := cursor } n fresh) calls s')
    (hafter : ∀ base : List RosValue, base[slot]? = some after →
      childrenAt base slot = some ⟨s.rosValues.length, n⟩)
    (hcall : call.slot = slot) (hholds : call.Holds buffer s'.rosValues) :
    Fills buffer slot s (call :: calls) s' := by
  have hlength : (MessageParser.appended { s with
      rosValues := s.rosValues.set slot y
      messageBufferOffset := cursor } n fresh).rosValues.length = s.rosValues.length + n := by
    simp [MessageParser.appended]
  have hgrows := h.grows
  have htiles := h.tiles
  have hentered := h.entered
  rw [hlength] at hgrows htiles hentered
  refine ⟨h.settled, by omega, ?_, ?_, ?_, ?_⟩
  · intro j hj hne
    rw [h.frame j (by omega) hne (by omega), MessageParser.appended_old (by simpa using hj)]
    exact List.getElem?_set_ne hne.symm
  · have hown : Tiles (HoldsChild s'.rosValues) {slot} s.rosValues.length (s.rosValues.length + n) := by
      apply Tiles.single hslot
      intro k
      simp only [HoldsChild, hafter _ h.owner, Option.some.injEq, exists_eq_left']
    have hboth := hown.append htiles (Nat.le_add_right _ _) hgrows
    convert hboth using 1
    ext j
    simp only [Set.mem_union, Set.mem_singleton_iff, Set.mem_Ico]
    omega
  · rw [List.map_cons, hcall, range'_split (Nat.le_add_right _ n) hgrows, Nat.add_sub_cancel_left]
    exact hentered.cons slot
  · intro call' hcall'
    rcases List.mem_cons.1 hcall' with rfl | hcall'
    · exact hholds
    · exact h.holds call' hcall'

theorem fills_of_set {cursor : ℕ} (hs : s.Settled)
    (hnone : ∀ base : List RosValue, base[slot]? = some y → childrenAt base slot = none)
    (hslot : slot < s.rosValues.length) (hcall : call.slot = slot)
    (hholds : call.Holds buffer (s.rosValues.set slot y)) :
    Fills buffer slot s [call] { s with
      rosValues := s.rosValues.set slot y
      messageBufferOffset := cursor } where
  settled := by rw [ParserState.Settled, List.length_set]; exact hs
  grows := by rw [List.length_set]
  frame j _ hj := List.getElem?_set_ne hj.symm
  tiles := by
    rw [List.length_set, Set.Ico_self, Set.union_empty]
    apply Tiles.empty
    rintro j hj k ⟨children, hchildren, -⟩
    rw [Set.mem_singleton_iff.1 hj, hnone _ (List.getElem?_set_self hslot)] at hchildren
    cases hchildren
  entered := by simp [hcall]
  holds call' hcall' := by
    rw [List.mem_singleton.1 hcall']
    exact hholds

end Children

/-- The definition nests others at most `fuel` deep, itself included. -/
inductive Nests (m : MsgDef) : ℕ → BaseMsgDef → Prop
  | intro {fuel : ℕ} {d : BaseMsgDef} (h : ∀ f ∈ d.fields, ∀ e, m.typeDefinition f = .ok e → Nests m fuel e) :
    Nests m (fuel + 1) d

namespace MessageParser

open ParserState

variable {p : MessageParser} {slot fuel : ℕ} {f : FieldDef}

/-- The code `init` fills the slot `slot` wherever it holds the fresh value. -/
def Inits (p : MessageParser) (init : ParserState → Logged ParserState) (slot : ℕ) (fresh : RosValue) : Prop :=
  ∀ s : ParserState, s.Settled → s.rosValues[slot]? = some fresh →
    Runs p.messageBuffer (Fills p.messageBuffer slot s) (init s)

theorem loggedPrimitive_inits {info : PrimitiveInfo} (hobj : f.type ≠ .object) :
    Inits p (p.loggedPrimitive slot f) slot (.primitive f.type info) := by
  intro s hs hslot
  have hlt := (List.getElem?_eq_some_iff.1 hslot).1
  let filled : RosValue := .primitive f.type ⟨s.messageBufferOffset, p.messageBuffer⟩
  have hset : (s.rosValues.set slot filled)[slot]? = some filled := getElem?_set_self_of_some hslot
  have hfills (cursor : ℕ) : Fills p.messageBuffer slot s [.primitive slot f s.messageBufferOffset]
      { s with
        rosValues := s.rosValues.set slot filled
        messageBufferOffset := cursor } :=
    fills_of_set hs (fun base hbase => by simp only [childrenAt, hbase, filled]) hlt rfl hset
  apply Runs.logged hs
  apply Runs.update hslot (w := filled) rfl
  split_ifs with hstr
  · apply Runs.silent (at?_of_getElem? hset)
    apply Runs.reads
    · exact fun e he => he
    · intro length _
      exact Runs.pure ⟨(hfills _).settled, hfills _⟩
  · obtain ⟨w, -, hw⟩ := exists_typeSize (not_or.2 ⟨hobj, hstr⟩)
    apply Runs.silent hw
    exact Runs.pure ⟨(hfills _).settled, hfills _⟩

theorem Runs.length {β : Type} {s : ParserState} {Q : List InitCall → β → Prop}
    {rest : ℕ × ParserState → Logged β}
    (hok : ∀ n q, shapeLength p.messageBuffer f s.messageBufferOffset = .ok (n, q) →
      Runs p.messageBuffer Q (rest (n, { s with messageBufferOffset := q }))) :
    Runs p.messageBuffer Q (p.loggedLength f s >>= rest) := by
  have hrest : ∀ r, p.arrayLength f s = .ok r → Runs p.messageBuffer Q (rest r) := by
    intro r hr
    have hfollows := arrayLength_follows (p := p) f s
    rw [hr] at hfollows
    obtain ⟨⟨n, q⟩, hlength, rfl⟩ := hfollows.exists_of_ok
    exact hok n q hlength
  unfold loggedLength
  split_ifs with hsize
  · rw [bind_assoc]
    apply Runs.reads
    · intro e he
      rw [arrayLength, if_pos hsize] at he
      unfold readLength
      cases hat : atIndex p.messageBuffer s.messageBufferOffset with
      | error e' =>
        rw [hat] at he
        cases he
        rfl
      | ok _ =>
        rw [hat, ok_bind, readWord, map_bind] at he
        rw [ok_bind]
        cases hraw : readRaw p.messageBuffer s.messageBufferOffset 4 with
        | error e' =>
          rw [hraw] at he
          cases he
          rfl
        | ok bs =>
          rw [hraw] at he
          cases he
    · exact hrest
  · cases hr : p.arrayLength f s with
    | error e =>
      rw [arrayLength, if_neg hsize] at hr
      cases hr
    | ok r => exact Runs.silent rfl (hrest r hr)

/-- Arrays of scalars own no slots. -/
theorem loggedArray_inits_primitive (htype : ¬ (f.type = .object ∨ f.type = .string)) :
    Inits p (p.loggedArray (p.loggedObject fuel) slot f) slot (.primitiveArray f.type 0 0 p.messageBuffer) := by
  intro s hs hslot
  have hlt := (List.getElem?_eq_some_iff.1 hslot).1
  apply Runs.logged hs
  apply Runs.length
  intro n q hlength
  let filled : RosValue := .primitiveArray f.type q n p.messageBuffer
  have hset : (s.rosValues.set slot filled)[slot]? = some filled := getElem?_set_self_of_some hslot
  obtain ⟨w, -, hw⟩ := exists_typeSize htype
  simp only [if_neg htype]
  apply Runs.access hslot
  apply Runs.update (s := { s with messageBufferOffset := q }) (w := filled) hslot rfl
  apply Runs.silent hw
  apply Runs.pure
  have hfills : Fills p.messageBuffer slot s [.array slot f s.messageBufferOffset]
      { s with
        rosValues := s.rosValues.set slot filled
        messageBufferOffset := q + n * w } := by
    apply fills_of_set hs (fun base hbase => by simp only [childrenAt, hbase, filled]) hlt rfl
    exact ⟨n, q, hlength, by rw [if_neg htype]; exact hset⟩
  exact ⟨hfills.settled, hfills⟩

theorem arrayLoop_fills {n cursor : ℕ} (element : RosValue) (init : ℕ → ParserState → Logged ParserState)
    (hinit : ∀ slot, Inits p (init slot) slot element) {s : ParserState} (hs : s.Settled)
    (hslot : slot < s.rosValues.length) :
    Runs p.messageBuffer
      (FillsAll p.messageBuffer slot s.rosValues.length n (.array ⟨s.rosValuesOffset, n⟩) (appended { s with
        rosValues := s.rosValues.set slot (.array ⟨s.rosValuesOffset, n⟩)
        messageBufferOffset := cursor } n fun _ => element))
      ((List.range n).foldlM (fun s' i => init (s.rosValuesOffset + i) s') (appended { s with
        rosValues := s.rosValues.set slot (.array ⟨s.rosValuesOffset, n⟩)
        messageBufferOffset := cursor } n fun _ => element)) := by
  let s₀ : ParserState := { s with
    rosValues := s.rosValues.set slot (.array ⟨s.rosValuesOffset, n⟩)
    messageBufferOffset := cursor }
  have hlength : s₀.rosValues.length = s.rosValues.length := List.length_set
  have hturns : Turns p.messageBuffer (fun s' i => init (s.rosValuesOffset + i) s') slot s.rosValues.length
      (List.range n) (fun _ => .array ⟨s.rosValuesOffset, n⟩) fun _ => element := by
    refine ⟨hslot, fun i hi s' hs' hparent hfresh => ?_⟩
    obtain ⟨hlt, hget⟩ := List.getElem?_eq_some_iff.1 hparent
    rw [← hget, List.set_getElem_self, List.getElem_range, ← hs]
    exact hinit _ s' hs' hfresh
  have hloop := hturns.foldlM (settled_appended (s := s₀) (hlength.trans hs) n fun _ => element)
    ((appended_old (hlength ▸ hslot)).trans (List.getElem?_set_self hslot))
    fun i hi => hlength ▸ appended_new (n := n) (by simpa using hi)
  rw [List.length_range] at hloop
  exact hloop

theorem loggedArray_inits_children (htype : f.type = .object ∨ f.type = .string)
    (helement : f.type = .object → ∃ d, p.msgDef.typeDefinition f = .ok d ∧
      ∀ slot, Inits p (p.loggedObject fuel slot d) slot (.object {} d.fieldIndexes)) :
    Inits p (p.loggedArray (p.loggedObject fuel) slot f) slot (.array {}) := by
  intro s hs hslot
  have hlt := (List.getElem?_eq_some_iff.1 hslot).1
  apply Runs.logged hs
  apply Runs.length
  intro n q hlength
  simp only [if_pos htype]
  let s₁ : ParserState := { s with
    rosValuesOffset := s.rosValuesOffset + n
    messageBufferOffset := q }
  apply Runs.access (s := s₁) hslot
  apply Runs.access (s := s₁) hslot
  apply Runs.update (s := s₁) (w := .array ⟨s.rosValuesOffset, n⟩) hslot rfl
  -- the owner of the elements, once all of them are initialised
  have hfills {fresh : ℕ → RosValue} (calls : List InitCall) (s' : ParserState)
      (h : FillsAll p.messageBuffer slot s.rosValues.length n (.array ⟨s.rosValuesOffset, n⟩) (appended { s with
        rosValues := s.rosValues.set slot (.array ⟨s.rosValuesOffset, n⟩)
        messageBufferOffset := q } n fresh) calls s') :
      s'.Settled ∧ Fills p.messageBuffer slot s (.array slot f s.messageBufferOffset :: calls) s' := by
    refine ⟨h.settled, h.fills hlt ?_ rfl ⟨n, q, hlength, ?_⟩⟩
    · intro base hbase
      simp only [childrenAt, hbase]
      rw [hs]
    · rw [if_pos htype]
      exact ⟨_, h.owner⟩
  by_cases hstr : f.type = .string
  · rw [if_pos hstr]
    apply Runs.silent (a := .primitive f.type {}) (by rw [hstr]; rfl)
    rw [foldl_emplaceBack]
    apply (arrayLoop_fills (.primitive f.type {}) (fun slot => p.loggedPrimitive slot f)
      (fun slot => loggedPrimitive_inits (by rw [hstr]; exact nofun)) hs hlt).mono
    exact hfills
  · obtain ⟨d, hd, hinits⟩ := helement (htype.resolve_right hstr)
    rw [if_neg hstr]
    apply Runs.silent hd
    simp only [foldl_emplaceBack]
    apply (arrayLoop_fills (.object {} d.fieldIndexes) (fun slot => p.loggedObject fuel slot d) hinits hs hlt).mono
    exact hfills

theorem loggedChild_inits
    (hobject : f.type = .object → ∃ d, p.msgDef.typeDefinition f = .ok d ∧
      ∀ slot, Inits p (p.loggedObject fuel slot d) slot (.object {} d.fieldIndexes)) :
    ∃ fresh, p.emplacedValue f = .ok fresh ∧ ∀ slot,
      Inits p (p.loggedChild (p.loggedObject fuel) slot f) slot fresh := by
  by_cases hsize : f.arraySize = 0
  · rcases f.type_eq_object_or with htype | htype
    · obtain ⟨d, hd, hinits⟩ := hobject htype
      refine ⟨_, emplacedValue_object hsize hd, fun slot s hs hslot => ?_⟩
      apply Runs.access hslot
      apply Runs.silent hd
      exact hinits slot s hs hslot
    · refine ⟨_, emplacedValue_primitive hsize htype, fun slot s hs hslot => ?_⟩
      have hobj : f.type ≠ .object := by rintro h; rw [h] at htype; cases htype
      apply Runs.access hslot
      have hrun := loggedPrimitive_inits (p := p) hobj s hs hslot
      rw [RosValue.getType_primitive]
      cases h : f.type with
      | object | array | primitiveArray => rw [h] at htype; cases htype
      | _ => exact hrun
  · by_cases htype : f.type = .object ∨ f.type = .string
    · refine ⟨_, emplacedValue_array hsize htype, fun slot s hs hslot => ?_⟩
      apply Runs.access hslot
      exact loggedArray_inits_children htype hobject s hs hslot
    · refine ⟨_, emplacedValue_primitiveArray hsize htype, fun slot s hs hslot => ?_⟩
      apply Runs.access hslot
      exact loggedArray_inits_primitive htype s hs hslot

theorem loggedObject_inits_succ {d : BaseMsgDef}
    (hchild : ∀ f ∈ d.fields, ∃ fresh, p.emplacedValue f = .ok fresh ∧ ∀ slot,
      Inits p (p.loggedChild (p.loggedObject fuel) slot f) slot fresh) :
    Inits p (p.loggedObject (fuel + 1) slot d) slot (.object {} d.fieldIndexes) := by
  intro s hs hslot
  have hlt := (List.getElem?_eq_some_iff.1 hslot).1
  obtain ⟨children, hemplace, hinits⟩ := exists_children hchild
  let parent (i : ℕ) : RosValue := .object ⟨s.rosValuesOffset, i⟩ d.fieldIndexes
  let s₀ : ParserState := { s with rosValues := s.rosValues.set slot (parent 0) }
  have hlength : s₀.rosValues.length = s.rosValues.length := List.length_set
  have hturns : Turns p.messageBuffer (p.loggedMember (p.loggedObject fuel) slot s.rosValuesOffset) slot
      s.rosValues.length d.fields parent children := by
    refine ⟨hlt, fun i hi s' hs' hparent hfresh' => ?_⟩
    apply Runs.access hparent
    apply Runs.silent rfl
    apply Runs.silent (modify_of_getElem? (y := parent (i + 1)) hparent rfl)
    rw [← hs]
    apply hinits i hi
    · rw [Settled, List.length_set]
      exact hs'
    · rw [List.getElem?_set_ne (by omega), hfresh']
  have hloop := hturns.foldlM (settled_appended (s := s₀) (hlength.trans hs) d.fields.length children)
    ((appended_old (hlength ▸ hlt)).trans (List.getElem?_set_self hlt))
    fun i hi => hlength ▸ appended_new (n := d.fields.length) hi
  apply Runs.logged hs
  apply Runs.access hslot
  apply Runs.access hslot
  apply Runs.update (w := parent 0) hslot rfl
  apply Runs.silent (hemplace s₀)
  apply hloop.mono
  intro calls s' h
  refine ⟨h.settled, h.fills hlt ?_ rfl ⟨_, h.owner⟩⟩
  intro base hbase
  simp only [childrenAt, hbase, parent]
  rw [hs]

theorem loggedObject_inits (hresolved : p.msgDef.Resolved) {d : BaseMsgDef} (hd : p.msgDef.Has d)
    (hnests : Nests p.msgDef fuel d) (slot : ℕ) :
    Inits p (p.loggedObject fuel slot d) slot (.object {} d.fieldIndexes) := by
  induction hnests generalizing slot with
  | @intro fuel d _ ih =>
    apply loggedObject_inits_succ
    intro f hf
    apply loggedChild_inits
    intro hobj
    obtain ⟨e, he⟩ := hresolved d hd f hf hobj
    exact ⟨e, he, ih f hf e he (MsgDef.has_of_typeDefinition he)⟩

end MessageParser

/-- The log of parsing a message: each access is in range and each call begins and ends
where the counter is the size; a failure is that of a read of the buffer; and the vector
that is returned is tiled by the slices of its values, each initialised once by a call
that left in it what the schema says. -/
structure MessageParser.WellLaid (p : MessageParser) (run : Logged ParserState) : Prop where
  inRange : ∀ index size, .access index size ∈ run.events → index < size
  counted : ∀ call offset size, .enters call offset size ∈ run.events ∨ .returns call offset size ∈ run.events →
    offset = size
  throws : ∀ e, run.result = .error e → ∃ before position,
    run.events = before ++ [.reads position] ∧ readLength p.messageBuffer position = .error e
  tiles : ∀ s, run.result = .ok s → Tiles (HoldsChild s.rosValues) (Set.Iio s.rosValues.length) 1 s.rosValues.length
  entered : ∀ s, run.result = .ok s → ((callsOf run.events).map InitCall.slot).Perm (List.range s.rosValues.length)
  holds : ∀ s, run.result = .ok s → ∀ call ∈ callsOf run.events, call.Holds p.messageBuffer s.rosValues

theorem Runs.wellLaid {p : MessageParser} {run : Logged ParserState} {s₀ : ParserState}
    (hs₀ : s₀.rosValues.length = 1) (h : Runs p.messageBuffer (Fills p.messageBuffer 0 s₀) run) :
    p.WellLaid run where
  inRange index size hevent := h.good _ hevent
  counted call offset size hevent := hevent.elim (h.good _) (h.good _)
  throws := h.error
  tiles s hs := by
    have hfills := h.ok s hs
    have hgrows := hfills.grows
    have htiles := hfills.tiles
    rw [hs₀] at htiles hgrows
    convert htiles using 1
    ext j
    simp only [Set.mem_union, Set.mem_singleton_iff, Set.mem_Ico, Set.mem_Iio]
    omega
  entered s hs := by
    have hfills := h.ok s hs
    have hgrows := hfills.grows
    have hentered := hfills.entered
    rw [hs₀] at hentered hgrows
    obtain ⟨n, hn⟩ := Nat.exists_eq_add_of_le hgrows
    rw [hn, Nat.add_sub_cancel_left] at hentered
    rw [hn, Nat.add_comm, List.range_eq_range', List.range'_succ]
    exact hentered
  holds s hs := (h.ok s hs).holds

/-- Enough depth for a definition that does not lead back to itself. -/
theorem exists_nests {m : MsgDef} (hrec : NonRecursive m) (d : {d // m.Has d}) :
    ∃ bound, ∀ fuel ≥ bound, Nests m fuel d.1 := by
  induction d using (wellFounded_enters hrec).induction with
  | _ d ih =>
    have hfields : ∀ f ∈ {f | f ∈ d.1.fields}, ∃ bound, ∀ fuel ≥ bound,
        ∀ e, m.typeDefinition f = .ok e → Nests m fuel e := by
      intro f hf
      rcases he : m.typeDefinition f with _ | e
      · exact ⟨0, fun _ _ _ => nofun⟩
      · obtain ⟨bound, hbound⟩ := ih ⟨e, MsgDef.has_of_typeDefinition he⟩ (.single ⟨f, hf, he⟩)
        refine ⟨bound, fun fuel hfuel e' he' => ?_⟩
        cases he'
        exact hbound fuel hfuel
    obtain ⟨bound, hbound⟩ := exists_bound (List.finite_toSet d.1.fields) hfields
    refine ⟨bound + 1, fun fuel hfuel => ?_⟩
    obtain ⟨fuel, rfl⟩ := Nat.exists_eq_add_of_le' hfuel
    exact .intro (hbound _ (Nat.le_add_left _ _))

/-- Every message of a schema that is resolved and not recursive, read from every buffer at
every offset, is well laid. -/
theorem parse_wellLaid {m : MsgDef} (hresolved : m.Resolved) (hrec : NonRecursive m) :
    ∃ bound, ∀ buffer offset, ∀ fuel ≥ bound,
      ((MessageParser.mk buffer m).loggedParse offset fuel).result = (MessageParser.mk buffer m).parse offset fuel ∧
      (MessageParser.mk buffer m).WellLaid ((MessageParser.mk buffer m).loggedParse offset fuel) := by
  obtain ⟨bound, hbound⟩ := exists_nests hrec ⟨m.toBaseMsgDef, .inl rfl⟩
  refine ⟨bound, fun buffer offset fuel hfuel => ⟨MessageParser.result_loggedParse _ _ _, ?_⟩⟩
  have hinits := MessageParser.loggedObject_inits (p := ⟨buffer, m⟩) hresolved (.inl rfl) (hbound fuel hfuel) 0
  exact Runs.wellLaid rfl (hinits ⟨[.object {} m.fieldIndexes], 1, offset⟩ rfl rfl)

theorem enters_samplePath {d e : BaseMsgDef} (hd : samplePath.Has d) (h : Enters samplePath d e) :
    d = samplePath.toBaseMsgDef ∧ e = samplePoint := by
  have hpoint : ∀ f ∈ samplePoint.fields, f.type ≠ .object := by decide
  have htop : ∀ f ∈ samplePath.fields, f.type = .object → samplePath.typeDefinition f = .ok samplePoint := by
    decide
  obtain ⟨f, hf, he⟩ := h
  have hobj := MessageParser.type_of_typeDefinition he
  rcases samplePath_definitions hd with rfl | rfl
  · rw [htop f hf hobj] at he
    cases he
    exact ⟨rfl, rfl⟩
  · exact absurd hobj (hpoint f hf)

theorem resolved_samplePath : samplePath.Resolved := by
  intro d hd f hf htype
  have hdef : ∀ f ∈ d.fields, f.type = .object → samplePath.typeDefinition f = .ok samplePoint := by
    rcases samplePath_definitions hd with rfl | rfl <;> decide
  exact ⟨_, hdef f hf htype⟩

theorem nonRecursive_samplePath : NonRecursive samplePath := by
  intro d hd h
  have hne : samplePoint ≠ samplePath.toBaseMsgDef := by decide
  obtain ⟨e, hde, hed⟩ := TransGen.head'_iff.1 h
  obtain ⟨rfl, rfl⟩ := enters_samplePath hd hde
  rcases hed.cases_head with heq | ⟨c, hc, -⟩
  · exact hne heq
  · exact hne (enters_samplePath (.inr ⟨bytes "pkg/Point", rfl⟩) hc).1

theorem parse_wellLaid_samplePath : ∃ bound, ∀ buffer offset, ∀ fuel ≥ bound,
    ((MessageParser.mk buffer samplePath).loggedParse offset fuel).result =
      (MessageParser.mk buffer samplePath).parse offset fuel ∧
    (MessageParser.mk buffer samplePath).WellLaid ((MessageParser.mk buffer samplePath).loggedParse offset fuel) :=
  parse_wellLaid resolved_samplePath nonRecursive_samplePath

end Embag
