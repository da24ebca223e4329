import Embag.MessageParser

/-! The layout of a message: where in the buffer each of its values lies, as a tree.
It moves the parser's cursor without the parser's vector. Parsing ends as the layout
does, with the same exception or with a vector that represents the tree. -/

namespace Embag

open LittleEndian

/-- Where a value lies: its first byte and its extent, or where its parts lie. -/
inductive Shape where
  | scalar (type : RosValueType) (offset width : ℕ)
  | string (offset length : ℕ)
  | numbers (type : RosValueType) (offset length width : ℕ)
  | array (elements : List Shape)
  | object (definition : BaseMsgDef) (fields : List Shape)

/-- A layout takes a cursor and leaves one behind what it has laid out. -/
abbrev Layout := ℕ → Except Fault (Shape × ℕ)

section Layouts

variable {α : Type}

def shapes (step : α → Layout) : List α → ℕ → Except Fault (List Shape × ℕ)
  | [], q => .ok ([], q)
  | a :: items, q => do
    let (shape, q) ← step a q
    let (rest, q) ← shapes step items q
    return (shape :: rest, q)

variable {step : α → Layout} {a : α} {items : List α} {q : ℕ}

theorem shapes_cons_of_error {e : Fault} (h : step a q = .error e) :
    shapes step (a :: items) q = .error e := by
  rw [shapes, h]
  rfl

theorem shapes_cons_of_ok {shape : Shape} {q' : ℕ} (h : step a q = .ok (shape, q')) :
    shapes step (a :: items) q = (shapes step items q').map fun r => (shape :: r.1, r.2) := by
  rw [shapes, h, ok_bind]
  show (shapes step items q' >>= fun r => .ok (shape :: r.1, r.2)) = _
  cases shapes step items q' with
  | error e => rfl
  | ok r => rfl

theorem shapes_cons_eq_error {e : Fault} (h : shapes step (a :: items) q = .error e) :
    step a q = .error e ∨
      ∃ shape q', step a q = .ok (shape, q') ∧ shapes step items q' = .error e := by
  cases ha : step a q with
  | error e' =>
    rw [shapes_cons_of_error ha] at h
    cases h
    exact Or.inl rfl
  | ok r =>
    rw [shapes_cons_of_ok ha] at h
    refine Or.inr ⟨r.1, r.2, rfl, ?_⟩
    cases hrest : shapes step items r.2 with
    | error e' => rw [hrest] at h; exact h
    | ok rest => rw [hrest] at h; cases h

theorem shapes_cons_eq_ok {ss : List Shape} {q'' : ℕ}
    (h : shapes step (a :: items) q = .ok (ss, q'')) :
    ∃ shape q' rest, step a q = .ok (shape, q') ∧ shapes step items q' = .ok (rest, q'') ∧
      ss = shape :: rest := by
  cases ha : step a q with
  | error e' => rw [shapes_cons_of_error ha] at h; cases h
  | ok r =>
    rw [shapes_cons_of_ok ha] at h
    cases hrest : shapes step items r.2 with
    | error e' => rw [hrest] at h; cases h
    | ok rest =>
      rw [hrest] at h
      cases h
      exact ⟨r.1, r.2, rest.1, rfl, hrest, rfl⟩

theorem shapes_nil_eq_ok {ss : List Shape} {q' : ℕ} (h : shapes step [] q = .ok (ss, q')) :
    ss = [] ∧ q' = q := by
  cases h
  exact ⟨rfl, rfl⟩

theorem shapes_append (items' : List α) (q : ℕ) :
    shapes step (items ++ items') q = (shapes step items q >>= fun r =>
      (shapes step items' r.2).map fun r' => (r.1 ++ r'.1, r'.2)) := by
  induction items generalizing q with
  | nil =>
    show shapes step items' q = _
    rw [shapes, ok_bind]
    cases shapes step items' q <;> rfl
  | cons a items ih =>
    cases ha : step a q with
    | error e =>
      rw [shapes_cons_of_error ha, error_bind]
      exact shapes_cons_of_error ha
    | ok r =>
      rw [List.cons_append, shapes_cons_of_ok ha, shapes_cons_of_ok ha, ih, map_bind]
      cases shapes step items r.2 with
      | error e => rfl
      | ok t =>
        rw [ok_bind, ok_bind]
        cases shapes step items' t.2 <;> rfl

theorem shapes_congr {β : Type} {step' : β → Layout} {items' : List β}
    (h : List.Forall₂ (fun a b => step a = step' b) items items') :
    shapes step items = shapes step' items' := by
  induction h with
  | nil => rfl
  | cons hab _ ih =>
    funext q
    rw [shapes, shapes, hab, ih]

/-- A layout that ends like another wherever that one does not run out of fuel. -/
def Extends (layout layout' : Layout) : Prop :=
  ∀ q, layout q ≠ .error .outOfFuel → layout' q = layout q

theorem shapes_extends {step' : α → Layout} (h : ∀ a ∈ items, Extends (step a) (step' a)) {q : ℕ}
    (hq : shapes step items q ≠ .error .outOfFuel) :
    shapes step' items q = shapes step items q := by
  induction items generalizing q with
  | nil => rfl
  | cons a items ih =>
    rw [List.forall_mem_cons] at h
    cases ha : step a q with
    | error e =>
      rw [shapes_cons_of_error ha] at hq ⊢
      rw [shapes_cons_of_error]
      rw [h.1 q (by rw [ha]; exact hq ∘ fun he => by cases he; rfl), ha]
    | ok r =>
      have ha' : step' a q = .ok r := by rw [h.1 q (by rw [ha]; exact nofun), ha]
      rw [shapes_cons_of_ok ha] at hq ⊢
      rw [shapes_cons_of_ok ha', ih h.2]
      intro hrest
      rw [hrest] at hq
      exact hq rfl

end Layouts

section Fields

variable (m : MsgDef) (buffer : Bytes)

/-- A value of a primitive type: a string starts with its length. -/
def shapePrimitive (field : FieldDef) : Layout := fun q =>
  if field.type = .string then do
    atIndex buffer q
    let length ← readWord 4 buffer q
    return (.string q length, q + length + 4)
  else do
    let width ← field.typeSize
    return (.scalar field.type q width, q + width)

/-- The length of an array and the cursor at its elements. -/
def shapeLength (field : FieldDef) (q : ℕ) : Except Fault (ℕ × ℕ) :=
  if field.arraySize = -1 then do
    atIndex buffer q
    let length ← readWord 4 buffer q
    return (length, q + 4)
  else
    return ((field.arraySize % 2 ^ 32).toNat, q)

def shapeElement (object : BaseMsgDef → Layout) (field : FieldDef) : Layout := fun q =>
  if field.type = .object then do
    object (← m.typeDefinition field) q
  else shapePrimitive buffer field q

def shapeArray (object : BaseMsgDef → Layout) (field : FieldDef) : Layout := fun q => do
  let (length, q) ← shapeLength buffer field q
  if field.type = .object ∨ field.type = .string then
    let (elements, q) ← shapes (fun _ => shapeElement m buffer object field) (List.range length) q
    return (.array elements, q)
  else
    let width ← field.typeSize
    return (.numbers field.type q length width, q + length * width)

def shapeField (object : BaseMsgDef → Layout) (field : FieldDef) : Layout :=
  if field.arraySize = 0 then shapeElement m buffer object field
  else shapeArray m buffer object field

/-- The layout of an object; `fuel` bounds how deep objects are nested in it. -/
def shapeObject : ℕ → BaseMsgDef → Layout
  | 0, _ => fun _ => .error .outOfFuel
  | fuel + 1, d => fun q => do
    let (fields, q) ← shapes (shapeField m buffer (shapeObject fuel)) d.fields q
    return (.object d fields, q)

def shapeFields (fuel : ℕ) : List FieldDef → ℕ → Except Fault (List Shape × ℕ) :=
  shapes (shapeField m buffer (shapeObject m buffer fuel))

variable {m buffer}

theorem typeSize_eq_ok {f : FieldDef} {w : ℕ} (h : f.typeSize = .ok w) :
    primitiveTypeToSize f.type = .ok w := by
  unfold FieldDef.typeSize at h
  split_ifs at h
  exact h

theorem shapeElement_of_ne {object : BaseMsgDef → Layout} {f : FieldDef} (h : f.type ≠ .object) :
    shapeElement m buffer object f = shapePrimitive buffer f := funext fun _ => if_neg h

theorem shapeElement_of_definition {object : BaseMsgDef → Layout} {f : FieldDef} {d : BaseMsgDef}
    (hd : m.typeDefinition f = .ok d) : shapeElement m buffer object f = object d := by
  funext q
  rw [shapeElement, if_pos (MessageParser.type_of_typeDefinition hd), hd, ok_bind]

theorem shapeFields_append {fuel : ℕ} {todo : List FieldDef} (todo' : List FieldDef) (q : ℕ) :
    shapeFields m buffer fuel (todo ++ todo') q = (shapeFields m buffer fuel todo q >>= fun r =>
      (shapeFields m buffer fuel todo' r.2).map fun r' => (r.1 ++ r'.1, r'.2)) :=
  shapes_append todo' q

theorem shapeObject_succ (fuel : ℕ) (d : BaseMsgDef) (q : ℕ) :
    shapeObject m buffer (fuel + 1) d q =
      (shapeFields m buffer fuel d.fields q).map fun r => (.object d r.1, r.2) := by
  rw [shapeFields]
  cases h : shapes (shapeField m buffer (shapeObject m buffer fuel)) d.fields q <;>
    simp only [shapeObject, h] <;> rfl

theorem shapeObject_of_fields {fuel : ℕ} {d : BaseMsgDef} {q q' : ℕ} {ss : List Shape}
    (h : shapeFields m buffer fuel d.fields q = .ok (ss, q')) :
    shapeObject m buffer (fuel + 1) d q = .ok (.object d ss, q') := by
  rw [shapeObject_succ, h]
  rfl

/-! The layout of a field, by the kinds of fields there are. -/

section Kinds

variable {object : BaseMsgDef → Layout} {f : FieldDef} {q : ℕ}

theorem shapeField_scalar (hsize : f.arraySize = 0) {w : ℕ} (hw : f.typeSize = .ok w) :
    shapeField m buffer object f q = .ok (.scalar f.type q w, q + w) := by
  have htype := typeSize_eq_ok hw
  have hobj : f.type ≠ .object := by rintro h; rw [h] at htype; cases htype
  have hstr : f.type ≠ .string := by rintro h; rw [h] at htype; cases htype
  rw [shapeField, if_pos hsize, shapeElement_of_ne hobj, shapePrimitive, if_neg hstr, hw]
  rfl

theorem shapeField_string (hsize : f.arraySize = 0) (hstr : f.type = .string) :
    shapeField m buffer object f q = (atIndex buffer q >>= fun _ => readWord 4 buffer q).map
      fun n => (.string q n, q + n + 4) := by
  have hobj : f.type ≠ .object := by rw [hstr]; exact nofun
  rw [shapeField, if_pos hsize, shapeElement_of_ne hobj, shapePrimitive, if_pos hstr]
  cases atIndex buffer q with
  | error e => rfl
  | ok =>
    rw [ok_bind, ok_bind]
    cases readWord 4 buffer q <;> rfl

theorem shapeField_string_of_word (hsize : f.arraySize = 0) (hstr : f.type = .string) {n : ℕ}
    (hword : readWord 4 buffer q = .ok n) :
    shapeField m buffer object f q = .ok (.string q n, q + n + 4) := by
  rw [shapeField_string hsize hstr, atIndex_of_readWord hword (by norm_num), ok_bind, hword]
  rfl

theorem shapeField_object (hsize : f.arraySize = 0) {d : BaseMsgDef}
    (hd : m.typeDefinition f = .ok d) : shapeField m buffer object f = object d := by
  rw [shapeField, if_pos hsize, shapeElement_of_definition hd]

theorem shapes_element (object : BaseMsgDef → Layout) (f : FieldDef) (n : ℕ) :
    shapes (fun _ => shapeElement m buffer object f) (List.range n) =
      shapes (shapeField m buffer object) (List.replicate n f.element) := by
  apply shapes_congr
  rw [List.forall₂_iff_get]
  refine ⟨by rw [List.length_range, List.length_replicate], fun i _ hi => ?_⟩
  have hget : (List.replicate n f.element).get ⟨i, hi⟩ = f.element := by
    rw [List.get_eq_getElem, List.getElem_replicate]
  rw [hget, shapeField, if_pos f.arraySize_element]
  rfl

theorem shapeField_array (hsize : f.arraySize ≠ 0) (htype : f.type = .object ∨ f.type = .string) :
    shapeField m buffer object f q = shapeLength buffer f q >>= fun r =>
      (shapes (shapeField m buffer object) (List.replicate r.1 f.element) r.2).map
        fun t => (.array t.1, t.2) := by
  rw [shapeField, if_neg hsize, shapeArray]
  cases shapeLength buffer f q with
  | error e => rfl
  | ok r =>
    rw [ok_bind, ok_bind, ← shapes_element]
    simp only [if_pos htype]
    cases shapes (fun _ => shapeElement m buffer object f) (List.range r.1) r.2 <;> rfl

theorem shapeField_numbers (hsize : f.arraySize ≠ 0) {w : ℕ} (hw : f.typeSize = .ok w) :
    shapeField m buffer object f q = (shapeLength buffer f q).map
      fun r => (.numbers f.type r.2 r.1 w, r.2 + r.1 * w) := by
  have htype := typeSize_eq_ok hw
  have hne : ¬ (f.type = .object ∨ f.type = .string) := by
    rintro (h | h) <;> rw [h] at htype <;> cases htype
  rw [shapeField, if_neg hsize, shapeArray]
  cases shapeLength buffer f q with
  | error e => rfl
  | ok r =>
    rw [ok_bind]
    simp only [if_neg hne, hw]
    rfl

theorem shapeField_numbers_of_length (hsize : f.arraySize ≠ 0) {w n q' : ℕ}
    (hw : f.typeSize = .ok w) (hlen : shapeLength buffer f q = .ok (n, q')) :
    shapeField m buffer object f q = .ok (.numbers f.type q' n w, q' + n * w) := by
  rw [shapeField_numbers hsize hw, hlen]
  rfl

theorem exists_typeSize (h : ¬ (f.type = .object ∨ f.type = .string)) :
    ∃ w, primitiveTypeToSize f.type = .ok w ∧ f.typeSize = .ok w := by
  rw [not_or] at h
  obtain ⟨w, hw⟩ := exists_primitiveTypeToSize (f.type_eq_object_or.resolve_left h.1) h.2
  refine ⟨w, hw, ?_⟩
  rw [FieldDef.typeSize, if_neg (not_or.2 h), hw]

end Kinds

/-! More fuel changes nothing once there is enough. -/

theorem shapeElement_extends {object object' : BaseMsgDef → Layout}
    (h : ∀ d, Extends (object d) (object' d)) (f : FieldDef) :
    Extends (shapeElement m buffer object f) (shapeElement m buffer object' f) := by
  intro q hq
  unfold shapeElement at hq ⊢
  split_ifs at hq ⊢ with hobj
  · cases hd : m.typeDefinition f with
    | error e => rfl
    | ok d =>
      rw [hd, ok_bind] at hq
      exact h d q hq
  · rfl

theorem shapeField_extends {object object' : BaseMsgDef → Layout}
    (h : ∀ d, Extends (object d) (object' d)) (f : FieldDef) :
    Extends (shapeField m buffer object f) (shapeField m buffer object' f) := by
  have helement : ∀ g : FieldDef, g.arraySize = 0 →
      Extends (shapeField m buffer object g) (shapeField m buffer object' g) := by
    intro g hg
    rw [shapeField, shapeField, if_pos hg, if_pos hg]
    exact shapeElement_extends h g
  by_cases hsize : f.arraySize = 0
  · exact helement f hsize
  · intro q hq
    by_cases htype : f.type = .object ∨ f.type = .string
    · rw [shapeField_array hsize htype] at hq ⊢
      rw [shapeField_array hsize htype]
      cases hlen : shapeLength buffer f q with
      | error e => rfl
      | ok r =>
        rw [hlen, ok_bind] at hq
        rw [ok_bind, ok_bind, shapes_extends]
        · intro g hg
          rw [List.eq_of_mem_replicate hg]
          exact helement f.element f.arraySize_element
        · intro he
          rw [he] at hq
          exact hq rfl
    · obtain ⟨w, -, hw⟩ := exists_typeSize htype
      rw [shapeField_numbers hsize hw, shapeField_numbers hsize hw]

theorem shapeObject_extends {fuel fuel' : ℕ} (hle : fuel ≤ fuel') (d : BaseMsgDef) :
    Extends (shapeObject m buffer fuel d) (shapeObject m buffer fuel' d) := by
  induction fuel generalizing fuel' d with
  | zero => exact fun q hq => absurd rfl hq
  | succ fuel ih =>
    obtain ⟨fuel', rfl⟩ : ∃ k, fuel' = k + 1 := ⟨fuel' - 1, by omega⟩
    intro q hq
    rw [shapeObject_succ] at hq ⊢
    rw [shapeObject_succ, shapeFields, shapeFields, shapes_extends]
    · exact fun f _ => shapeField_extends (fun e => ih (by omega) e) f
    · intro he
      rw [shapeFields, he] at hq
      exact hq rfl

theorem shapeFields_extends {fuel fuel' : ℕ} (hle : fuel ≤ fuel') {todo : List FieldDef} {q : ℕ}
    (hq : shapeFields m buffer fuel todo q ≠ .error .outOfFuel) :
    shapeFields m buffer fuel' todo q = shapeFields m buffer fuel todo q :=
  shapes_extends (fun f _ => shapeField_extends (shapeObject_extends hle) f) hq

end Fields

/-- `x` is what the parser leaves for a shape, its children in slots from `low` on. -/
inductive Represents (buffer : Bytes) (base : List RosValue) (low : ℕ) : RosValue → Shape → Prop
  | scalar {type : RosValueType} {o w : ℕ} (width : primitiveTypeToSize type = .ok w) :
    Represents buffer base low (.primitive type ⟨o, some buffer⟩) (.scalar type o w)
  | string {o n : ℕ} (word : readWord 4 buffer o = .ok n) :
    Represents buffer base low (.primitive .string ⟨o, some buffer⟩) (.string o n)
  | numbers {type : RosValueType} {o n w : ℕ} (width : primitiveTypeToSize type = .ok w) :
    Represents buffer base low (.primitiveArray type o n buffer) (.numbers type o n w)
  | array {c : ℕ} {ss : List Shape} (xs : ℕ → RosValue) (above : low ≤ c)
    (slots : ∀ i < ss.length, base[c + i]? = some (xs i))
    (children : ∀ i (h : i < ss.length), Represents buffer base low (xs i) ss[i]) :
    Represents buffer base low (.array ⟨c, ss.length⟩) (.array ss)
  | object {c : ℕ} {d : BaseMsgDef} {ss : List Shape} (xs : ℕ → RosValue) (above : low ≤ c)
    (length : ss.length = d.fields.length)
    (slots : ∀ i < ss.length, base[c + i]? = some (xs i))
    (children : ∀ i (h : i < ss.length), Represents buffer base low (xs i) ss[i]) :
    Represents buffer base low (.object ⟨c, ss.length⟩ d.fieldIndexes) (.object d ss)

/-- Only the slots from `low` on matter, and lowering that bound is harmless. -/
theorem Represents.mono {buffer : Bytes} {base base' : List RosValue} {low low' : ℕ} {x : RosValue}
    {shape : Shape} (h : Represents buffer base low x shape) (hlow : low' ≤ low)
    (hsame : ∀ j, low ≤ j → j < base.length → base'[j]? = base[j]?) :
    Represents buffer base' low' x shape := by
  have slot {c : ℕ} (hc : low ≤ c) {n : ℕ} {xs : ℕ → RosValue}
      (hs : ∀ i < n, base[c + i]? = some (xs i)) : ∀ i < n, base'[c + i]? = some (xs i) := by
    intro i hi
    have hb := hs i hi
    rw [hsame (c + i) (by omega) (List.getElem?_eq_some_iff.1 hb).1, hb]
  induction h with
  | scalar width => exact .scalar width
  | string word => exact .string word
  | numbers width => exact .numbers width
  | array xs above slots _ ih => exact .array xs (hlow.trans above) (slot above slots) ih
  | object xs above length slots _ ih =>
    exact .object xs (hlow.trans above) length (slot above slots) ih

end Embag
