import Embag.MessageFollows

/-! The walk a layout takes through the buffer: the fields still to be laid out, the
cursor, and the bytes of the leaves passed so far. -/

namespace Embag

open Outcomes

abbrev Region := ℕ × ℕ

mutual

/-- The bytes of the leaves of a shape. -/
def Shape.regions : Shape → List Region
  | .scalar _ o w => [(o, o + w)]
  | .string o n => [(o, o + 4 + n)]
  | .numbers _ o n w => [(o, o + n * w)]
  | .array ss => regionsOf ss
  | .object _ ss => regionsOf ss

def regionsOf : List Shape → List Region
  | [] => []
  | s :: ss => s.regions ++ regionsOf ss

end

def Straddles (buffer : Bytes) (r : Region) : Prop :=
  r.1 < buffer.length ∧ buffer.length < r.2

/-- A value of the field starts with a length word. -/
def FieldDef.StartsWithLength (f : FieldDef) : Prop :=
  f.arraySize = -1 ∨ f.arraySize = 0 ∧ f.type = .string

/-- `Walks todo p leaves todo' p'`: with the fields `todo` to be laid out from `p` on, the
walk passes `leaves` and comes to `p'` with `todo'` still to be laid out. -/
inductive Walks (m : MsgDef) (buffer : Bytes) :
    List FieldDef → ℕ → List Region → List FieldDef → ℕ → Prop
  | refl {todo : List FieldDef} {p : ℕ} : Walks m buffer todo p [] todo p
  | scalar {f : FieldDef} {todo todo' : List FieldDef} {p w p' : ℕ} {leaves : List Region}
    (size : f.arraySize = 0) (width : f.typeSize = .ok w)
    (rest : Walks m buffer todo (p + w) leaves todo' p') :
    Walks m buffer (f :: todo) p ((p, p + w) :: leaves) todo' p'
  | string {f : FieldDef} {todo todo' : List FieldDef} {p n p' : ℕ} {leaves : List Region}
    (size : f.arraySize = 0) (type : f.type = .string) (word : readWord 4 buffer p = .ok n)
    (rest : Walks m buffer todo (p + n + 4) leaves todo' p') :
    Walks m buffer (f :: todo) p ((p, p + 4 + n) :: leaves) todo' p'
  | object {f : FieldDef} {d : BaseMsgDef} {todo todo' : List FieldDef} {p p' : ℕ}
    {leaves : List Region} (size : f.arraySize = 0) (definition : m.typeDefinition f = .ok d)
    (rest : Walks m buffer (d.fields ++ todo) p leaves todo' p') :
    Walks m buffer (f :: todo) p leaves todo' p'
  | array {f : FieldDef} {todo todo' : List FieldDef} {p n q p' : ℕ} {leaves : List Region}
    (size : f.arraySize ≠ 0) (type : f.type = .object ∨ f.type = .string)
    (length : shapeLength buffer f p = .ok (n, q))
    (rest : Walks m buffer (List.replicate n f.element ++ todo) q leaves todo' p') :
    Walks m buffer (f :: todo) p leaves todo' p'
  | numbers {f : FieldDef} {todo todo' : List FieldDef} {p w n q p' : ℕ} {leaves : List Region}
    (size : f.arraySize ≠ 0) (width : f.typeSize = .ok w)
    (length : shapeLength buffer f p = .ok (n, q))
    (rest : Walks m buffer todo (q + n * w) leaves todo' p') :
    Walks m buffer (f :: todo) p ((q, q + n * w) :: leaves) todo' p'

variable {m : MsgDef} {buffer : Bytes} {todo todo' todo'' : List FieldDef} {p p' p'' : ℕ}
  {leaves leaves' : List Region}

theorem Walks.trans (h : Walks m buffer todo p leaves todo' p')
    (h' : Walks m buffer todo' p' leaves' todo'' p'') :
    Walks m buffer todo p (leaves ++ leaves') todo'' p'' := by
  induction h with
  | refl => exact h'
  | scalar size width _ ih => exact .scalar size width (ih h')
  | string size type word _ ih => exact .string size type word (ih h')
  | object size definition _ ih => exact .object size definition (ih h')
  | array size type length _ ih => exact .array size type length (ih h')
  | numbers size width length _ ih => exact .numbers size width length (ih h')

/-- The walk comes to a length word the buffer ends in. -/
def ComesToTornWord (m : MsgDef) (buffer : Bytes) (todo : List FieldDef) (p : ℕ) : Prop :=
  ∃ leaves f todo' q, Walks m buffer todo p leaves (f :: todo') q ∧ f.StartsWithLength ∧
    Straddles buffer (q, q + 4)

theorem ComesToTornWord.of_walks (hw : Walks m buffer todo p leaves todo' p')
    (h : ComesToTornWord m buffer todo' p') : ComesToTornWord m buffer todo p := by
  obtain ⟨leaves', f, rest, q, hwalks, hf, hq⟩ := h
  exact ⟨_, f, rest, q, hw.trans hwalks, hf, hq⟩

@[simp] theorem regionsOf_singleton (s : Shape) : regionsOf [s] = s.regions := by
  rw [regionsOf, regionsOf, List.append_nil]

/-- The walk does what the result of laying out `todo` from `p` says. -/
def Traced (m : MsgDef) (buffer : Bytes) (todo : List FieldDef) (p : ℕ) :
    Except Fault (List Shape × ℕ) → Prop
  | .ok (ss, q) => ∀ rest, Walks m buffer (todo ++ rest) p (regionsOf ss) rest q
  | .error .undefined => ∀ rest, ComesToTornWord m buffer (todo ++ rest) p
  | .error _ => True

theorem regionsOf_append (ss ss' : List Shape) :
    regionsOf (ss ++ ss') = regionsOf ss ++ regionsOf ss' := by
  induction ss with
  | nil => rfl
  | cons s ss ih => rw [List.cons_append, regionsOf, regionsOf, ih, List.append_assoc]

theorem traced_error {e : Fault}
    (h : e = .undefined → ∀ rest, ComesToTornWord m buffer (todo ++ rest) p) :
    Traced m buffer todo p (.error e) := by
  cases e <;> first | exact h rfl | trivial

theorem Traced.torn {e : Fault} (h : Traced m buffer todo p (.error e)) (he : e = .undefined)
    (rest : List FieldDef) : ComesToTornWord m buffer (todo ++ rest) p := by
  subst he
  exact h rest

theorem traced_shapes {step : FieldDef → Layout}
    (h : ∀ f ∈ todo, ∀ p, Traced m buffer [f] p ((step f p).map fun r => ([r.1], r.2))) (p : ℕ) :
    Traced m buffer todo p (shapes step todo p) := by
  induction todo generalizing p with
  | nil => exact fun rest => .refl
  | cons f todo ih =>
    rw [List.forall_mem_cons] at h
    have hf := h.1 p
    cases hstep : step f p with
    | error e =>
      rw [shapes_cons_of_error hstep]
      rw [hstep] at hf
      exact traced_error fun he rest => hf.torn he (todo ++ rest)
    | ok r =>
      rw [shapes_cons_of_ok hstep]
      rw [hstep] at hf
      have hrest := ih h.2 r.2
      cases htodo : shapes step todo r.2 with
      | error e =>
        rw [htodo] at hrest
        exact traced_error fun he rest => (hrest.torn he rest).of_walks (hf (todo ++ rest))
      | ok t =>
        rw [htodo] at hrest
        intro rest
        have htrans := (hf (todo ++ rest)).trans (hrest rest)
        rw [regionsOf, regionsOf, List.append_nil] at htrans
        exact htrans

theorem readWord_eq_error {w p : ℕ} {e : Fault} (h : readWord w buffer p = .error e) :
    e = .undefined ∧ buffer.length < p + w := by
  unfold readWord readRaw LittleEndian.sliceAt at h
  split_ifs at h with hlen
  · cases h
  · cases h
    exact ⟨rfl, by omega⟩

theorem torn_of_error {p : ℕ}
    (h : (atIndex buffer p >>= fun _ => readWord 4 buffer p) = .error .undefined) :
    Straddles buffer (p, p + 4) := by
  by_cases hp : p < buffer.length
  · rw [atIndex_of_lt hp, ok_bind] at h
    exact ⟨hp, (readWord_eq_error h).2⟩
  · rw [atIndex, if_neg hp, error_bind] at h
    cases h

theorem torn_of_shapeLength {f : FieldDef} {p : ℕ}
    (h : shapeLength buffer f p = .error .undefined) :
    f.arraySize = -1 ∧ Straddles buffer (p, p + 4) := by
  unfold shapeLength at h
  split_ifs at h with hsize
  · refine ⟨hsize, torn_of_error ?_⟩
    cases hat : atIndex buffer p with
    | error e =>
      rw [hat] at h
      cases h
      rfl
    | ok =>
      rw [hat, ok_bind] at h
      rw [ok_bind]
      cases hword : readWord 4 buffer p with
      | error e =>
        rw [hword] at h
        cases h
        rfl
      | ok n =>
        rw [hword] at h
        cases h
  · cases h

section Fields

variable {object : BaseMsgDef → Layout} {f : FieldDef}

theorem traced_scalarField (hsize : f.arraySize = 0)
    (hobject : f.type = .object → ∃ d, m.typeDefinition f = .ok d ∧
      ∀ p, Traced m buffer d.fields p ((object d p).map fun r => ([r.1], r.2))) (p : ℕ) :
    Traced m buffer [f] p ((shapeField m buffer object f p).map fun r => ([r.1], r.2)) := by
  by_cases hobj : f.type = .object
  · obtain ⟨d, hd, hfields⟩ := hobject hobj
    have h := hfields p
    rw [shapeField_object hsize hd]
    cases hresult : object d p with
    | error e =>
      rw [hresult] at h
      exact traced_error fun he rest => (h.torn he rest).of_walks (.object hsize hd .refl)
    | ok r =>
      rw [hresult] at h
      exact fun rest => .object hsize hd (h rest)
  · by_cases hstr : f.type = .string
    · rw [shapeField_string hsize hstr]
      cases hword : atIndex buffer p >>= fun _ => readWord 4 buffer p with
      | error e =>
        exact traced_error fun he rest =>
          ⟨[], f, rest, p, .refl, Or.inr ⟨hsize, hstr⟩, torn_of_error (he ▸ hword)⟩
      | ok n =>
        have hread : readWord 4 buffer p = .ok n := by
          by_cases hp : p < buffer.length
          · rwa [atIndex_of_lt hp, ok_bind] at hword
          · rw [atIndex, if_neg hp, error_bind] at hword
            cases hword
        exact fun rest => .string hsize hstr hread .refl
    · obtain ⟨w, -, hw⟩ := exists_typeSize (not_or.2 ⟨hobj, hstr⟩)
      rw [shapeField_scalar hsize hw]
      exact fun rest => .scalar hsize hw .refl

theorem traced_field
    (hobject : f.type = .object → ∃ d, m.typeDefinition f = .ok d ∧
      ∀ p, Traced m buffer d.fields p ((object d p).map fun r => ([r.1], r.2))) (p : ℕ) :
    Traced m buffer [f] p ((shapeField m buffer object f p).map fun r => ([r.1], r.2)) := by
  by_cases hsize : f.arraySize = 0
  · exact traced_scalarField hsize hobject p
  by_cases htype : f.type = .object ∨ f.type = .string
  · rw [shapeField_array hsize htype]
    cases hlen : shapeLength buffer f p with
    | error e =>
      refine traced_error fun he rest => ?_
      obtain ⟨hdynamic, htorn⟩ := torn_of_shapeLength (he ▸ hlen)
      exact ⟨[], f, rest, p, .refl, Or.inl hdynamic, htorn⟩
    | ok r =>
      have helement : ∀ p, Traced m buffer [f.element] p
          ((shapeField m buffer object f.element p).map fun r => ([r.1], r.2)) :=
        traced_scalarField f.arraySize_element hobject
      have helements : Traced m buffer (List.replicate r.1 f.element) r.2
          (shapes (shapeField m buffer object) (List.replicate r.1 f.element) r.2) :=
        traced_shapes (fun g hg => by rw [List.eq_of_mem_replicate hg]; exact helement) r.2
      rw [ok_bind]
      cases hresult : shapes (shapeField m buffer object) (List.replicate r.1 f.element) r.2 with
      | error e =>
        rw [hresult] at helements
        exact traced_error fun he rest =>
          (helements.torn he rest).of_walks (.array hsize htype hlen .refl)
      | ok t =>
        rw [hresult] at helements
        intro rest
        have hwalk := Walks.array hsize htype hlen (helements rest)
        rw [← List.append_nil (regionsOf t.1)] at hwalk
        exact hwalk
  · obtain ⟨w, -, hw⟩ := exists_typeSize htype
    rw [shapeField_numbers hsize hw]
    cases hlen : shapeLength buffer f p with
    | error e =>
      refine traced_error fun he rest => ?_
      obtain ⟨hdynamic, htorn⟩ := torn_of_shapeLength (he ▸ hlen)
      exact ⟨[], f, rest, p, .refl, Or.inl hdynamic, htorn⟩
    | ok r => exact fun rest => .numbers hsize hw hlen .refl

end Fields

/-- Laying out an object is traced: the induction on how deep objects may nest. -/
theorem traced_shapeObject (buffer : Bytes) (hresolved : m.Resolved) (fuel : ℕ) {d : BaseMsgDef}
    (hd : d = m.toBaseMsgDef ∨ ∃ key, m.embeddedDefinitionMap.lookup key = some d) (p : ℕ) :
    Traced m buffer d.fields p
      ((shapeObject m buffer fuel d p).map fun r => ([r.1], r.2)) := by
  induction fuel generalizing d p with
  | zero => trivial
  | succ fuel ih =>
    have hfields : Traced m buffer d.fields p (shapeFields m buffer fuel d.fields p) := by
      apply traced_shapes
      intro f hf p
      apply traced_field
      intro hobj
      obtain ⟨e, he⟩ := hresolved d hd f hf hobj
      exact ⟨e, he, ih (Or.inr (MessageParser.mem_of_typeDefinition he))⟩
    rw [shapeObject_succ]
    cases hresult : shapeFields m buffer fuel d.fields p with
    | error e =>
      rw [hresult] at hfields
      exact traced_error hfields.torn
    | ok r =>
      rw [hresult] at hfields
      intro rest
      have hwalk := hfields rest
      rw [← List.append_nil (regionsOf r.1)] at hwalk
      exact hwalk

def Prepends (leaves : List Region) : Except Fault (List Shape × ℕ) →
    Except Fault (List Shape × ℕ) → Prop :=
  Agree fun r r' => r.2 = r'.2 ∧ regionsOf r.1 = leaves ++ regionsOf r'.1

theorem prepends_cons (todo : List FieldDef) {fuel q : ℕ} {f : FieldDef} {shape : Shape}
    (h : shapeField m buffer (shapeObject m buffer fuel) f p = .ok (shape, q)) :
    Prepends shape.regions (shapeFields m buffer fuel (f :: todo) p)
      (shapeFields m buffer fuel todo q) := by
  rw [shapeFields, shapes_cons_of_ok h]
  cases shapes (shapeField m buffer (shapeObject m buffer fuel)) todo q with
  | error e => exact .error e
  | ok r => exact .ok ⟨rfl, rfl⟩

theorem prepends_group {fuel q : ℕ} {f : FieldDef} {parts : List FieldDef}
    (group : List Shape → Shape) (hgroup : ∀ ss, (group ss).regions = regionsOf ss)
    (h : shapeField m buffer (shapeObject m buffer fuel) f p =
      (shapeFields m buffer fuel parts q).map fun r => (group r.1, r.2)) :
    Prepends [] (shapeFields m buffer fuel (f :: todo) p)
      (shapeFields m buffer fuel (parts ++ todo) q) := by
  rw [shapeFields_append]
  cases hparts : shapeFields m buffer fuel parts q with
  | error e =>
    rw [hparts] at h
    rw [shapeFields, shapes_cons_of_error h]
    exact .error e
  | ok r =>
    rw [hparts] at h
    rw [shapeFields, shapes_cons_of_ok h, ok_bind]
    cases shapes (shapeField m buffer (shapeObject m buffer fuel)) todo r.2 with
    | error e => exact .error e
    | ok t =>
      refine .ok ⟨rfl, ?_⟩
      rw [regionsOf, hgroup, regionsOf_append]
      rfl

theorem shapeField_object_eq {fuel : ℕ} {f : FieldDef} {d : BaseMsgDef} (size : f.arraySize = 0)
    (hd : m.typeDefinition f = .ok d)
    (hfuel : shapeFields m buffer fuel d.fields p ≠ .error .outOfFuel) :
    shapeField m buffer (shapeObject m buffer (fuel + 1)) f p =
      (shapeFields m buffer (fuel + 1) d.fields p).map fun r => (.object d r.1, r.2) := by
  rw [shapeField_object size hd, shapeObject_succ, shapeFields_extends (Nat.le_succ fuel) hfuel]

theorem Prepends.trans {x y z : Except Fault (List Shape × ℕ)} (h : Prepends leaves x y)
    (h' : Prepends leaves' y z) : Prepends (leaves ++ leaves') x z := by
  refine Agree.trans h h' fun a b c hab hbc => ⟨hab.1.trans hbc.1, ?_⟩
  rw [hab.2, hbc.2, List.append_assoc]

theorem Prepends.right_ne {x y : Except Fault (List Shape × ℕ)} (h : Prepends leaves x y)
    (hx : x ≠ .error .outOfFuel) : y ≠ .error .outOfFuel :=
  fun hy => hx ((Agree.error_iff h _).2 hy)

theorem Prepends.left_ne {x y : Except Fault (List Shape × ℕ)} (h : Prepends leaves x y)
    (hy : y ≠ .error .outOfFuel) : x ≠ .error .outOfFuel :=
  fun hx => hy ((Agree.error_iff h _).1 hx)

/-- With enough fuel, laying out ends as it does where the walk has come to. -/
theorem Walks.prepends (fuel' : ℕ) (h : Walks m buffer todo p leaves todo' p')
    (hfuel : shapeFields m buffer fuel' todo' p' ≠ .error .outOfFuel) :
    ∃ fuel, Prepends leaves (shapeFields m buffer fuel todo p)
      (shapeFields m buffer fuel' todo' p') := by
  induction h with
  | refl =>
    refine ⟨fuel', ?_⟩
    cases shapeFields m buffer fuel' _ _ with
    | error e => exact .error e
    | ok r => exact .ok ⟨rfl, rfl⟩
  | scalar size width _ ih =>
    obtain ⟨fuel, hrest⟩ := ih hfuel
    exact ⟨fuel, (prepends_cons _ (shapeField_scalar size width)).trans hrest⟩
  | string size type word _ ih =>
    obtain ⟨fuel, hrest⟩ := ih hfuel
    exact ⟨fuel, (prepends_cons _ (shapeField_string_of_word size type word)).trans hrest⟩
  | @object f d _ _ p _ _ size definition _ ih =>
    obtain ⟨fuel, hrest⟩ := ih hfuel
    have hne := hrest.left_ne hfuel
    have hparts : shapeFields m buffer fuel d.fields p ≠ .error .outOfFuel := by
      intro he
      rw [shapeFields_append, he] at hne
      exact hne rfl
    rw [← shapeFields_extends (Nat.le_succ fuel) hne] at hrest
    exact ⟨fuel + 1, (prepends_group (.object d) (fun _ => rfl)
      (shapeField_object_eq size definition hparts)).trans hrest⟩
  | array size type length _ ih =>
    obtain ⟨fuel, hrest⟩ := ih hfuel
    refine ⟨fuel, (prepends_group .array (fun _ => rfl) ?_).trans hrest⟩
    rw [shapeField_array size type, length, ok_bind]
    rfl
  | numbers size width length _ ih =>
    obtain ⟨fuel, hrest⟩ := ih hfuel
    exact ⟨fuel, (prepends_cons _ (shapeField_numbers_of_length size width length)).trans hrest⟩

theorem error_of_straddles {p : ℕ} (h : Straddles buffer (p, p + 4)) :
    (atIndex buffer p >>= fun _ => readWord 4 buffer p) = .error .undefined := by
  obtain ⟨hp, hend⟩ := h
  rw [atIndex_of_lt hp, ok_bind, readWord, readRaw, LittleEndian.sliceAt, if_neg (not_le.2 hend)]
  rfl

theorem ComesToTornWord.undefined (h : ComesToTornWord m buffer todo p) :
    ∃ fuel, shapeFields m buffer fuel todo p = .error .undefined := by
  obtain ⟨leaves, f, rest, q, hwalks, hlength, htorn⟩ := h
  have hfield : shapeField m buffer (shapeObject m buffer 0) f q = .error .undefined := by
    have hword := error_of_straddles htorn
    rcases hlength with hsize | ⟨hsize, hstr⟩
    · have hlen : shapeLength buffer f q = .error .undefined := by
        rw [shapeLength, if_pos hsize]
        rw [atIndex_of_lt htorn.1, ok_bind] at hword ⊢
        rw [hword]
        rfl
      by_cases htype : f.type = .object ∨ f.type = .string
      · rw [shapeField_array (by omega) htype, hlen]
        rfl
      · obtain ⟨w, -, hw⟩ := exists_typeSize htype
        rw [shapeField_numbers (by omega) hw, hlen]
        rfl
    · rw [shapeField_string hsize hstr, hword]
      rfl
  have hfields : shapeFields m buffer 0 (f :: rest) q = .error .undefined :=
    shapes_cons_of_error hfield
  obtain ⟨fuel, hprepends⟩ := hwalks.prepends 0 (by rw [hfields]; exact nofun)
  exact ⟨fuel, (Agree.error_iff hprepends _).2 hfields⟩

/-- A walk that ends is a layout. -/
theorem Walks.exists_layout (h : Walks m buffer todo p leaves [] p') :
    ∃ fuel ss, shapeFields m buffer fuel todo p = .ok (ss, p') ∧ regionsOf ss = leaves := by
  obtain ⟨fuel, hprepends⟩ := h.prepends 0 nofun
  obtain ⟨⟨ss, q⟩, hr, hend, hregions⟩ := Agree.exists_ok hprepends
  refine ⟨fuel, ss, ?_, ?_⟩
  · rw [hr, show q = p' from hend]
  · rw [hregions, regionsOf, List.append_nil]

end Embag
