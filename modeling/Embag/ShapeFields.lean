import Embag.MessageShape

/-! The shape of a field, by the kinds of fields there are, as a relation of its own: it tells an
empty array of strings from one of numbers, which the values in it cannot. -/

namespace Embag

open LittleEndian

/-- The shape has the form of the field. -/
inductive HasShape (m : MsgDef) : FieldDef → Shape → Prop
  | scalar {f : FieldDef} {o w : ℕ} (size : f.arraySize = 0) (width : primitiveTypeToSize f.type = .ok w) :
    HasShape m f (.scalar f.type o w)
  | string {f : FieldDef} {o n : ℕ} (size : f.arraySize = 0) (type : f.type = .string) : HasShape m f (.string o n)
  | object {f : FieldDef} {d : BaseMsgDef} {ss : List Shape} (size : f.arraySize = 0)
    (definition : m.typeDefinition f = .ok d) (length : d.fields.length = ss.length)
    (fields : ∀ i (hf : i < d.fields.length) (hs : i < ss.length), HasShape m d.fields[i] ss[i]) :
    HasShape m f (.object d ss)
  | array {f : FieldDef} {ss : List Shape} (size : f.arraySize ≠ 0) (type : f.type = .object ∨ f.type = .string)
    (elements : ∀ i (h : i < ss.length), HasShape m f.element ss[i]) : HasShape m f (.array ss)
  | numbers {f : FieldDef} {o n w : ℕ} (size : f.arraySize ≠ 0) (width : primitiveTypeToSize f.type = .ok w) :
    HasShape m f (.numbers f.type o n w)

section Shapes

variable {m : MsgDef} {buffer : Bytes}

theorem forall₂_of_shapes {α : Type} {step : α → Layout} {R : α → Shape → Prop} {items : List α}
    (hR : ∀ a ∈ items, ∀ q s q', step a q = .ok (s, q') → R a s) {q q' : ℕ} {ss : List Shape}
    (h : shapes step items q = .ok (ss, q')) : List.Forall₂ R items ss := by
  induction items generalizing q ss with
  | nil =>
    obtain ⟨rfl, -⟩ := shapes_nil_eq_ok h
    exact .nil
  | cons a items ih =>
    rw [List.forall_mem_cons] at hR
    obtain ⟨shape, q₁, rest, hshape, hrest, rfl⟩ := shapes_cons_eq_ok h
    exact .cons (hR.1 _ _ _ hshape) (ih hR.2 hrest)

section Fields

variable {object : BaseMsgDef → Layout} {f : FieldDef} {q q' : ℕ} {s : Shape}

theorem hasShape_of_scalar (hsize : f.arraySize = 0)
    (hobject : ∀ d, m.typeDefinition f = .ok d → ∀ q s q', object d q = .ok (s, q') → HasShape m f s)
    (h : shapeField m buffer object f q = .ok (s, q')) : HasShape m f s := by
  by_cases hobj : f.type = .object
  · cases hd : m.typeDefinition f with
    | error e =>
      rw [shapeField, if_pos hsize, shapeElement, if_pos hobj, hd] at h
      cases h
    | ok d =>
      rw [shapeField_object hsize hd] at h
      exact hobject d hd q s q' h
  by_cases hstr : f.type = .string
  · rw [shapeField_string hsize hstr, map_eq_ok] at h
    obtain ⟨n, -, hs⟩ := h
    cases hs
    exact .string hsize hstr
  · obtain ⟨w, hw, hwidth⟩ := exists_typeSize (not_or.2 ⟨hobj, hstr⟩)
    rw [shapeField_scalar hsize hwidth] at h
    cases h
    exact .scalar hsize hw

theorem hasShape_of_array (hsize : f.arraySize ≠ 0)
    (hobject : ∀ d, m.typeDefinition f = .ok d → ∀ q s q', object d q = .ok (s, q') → HasShape m f.element s)
    (h : shapeField m buffer object f q = .ok (s, q')) : HasShape m f s := by
  by_cases htype : f.type = .object ∨ f.type = .string
  · rw [shapeField_array hsize htype] at h
    cases hlength : shapeLength buffer f q with
    | error e =>
      rw [hlength] at h
      cases h
    | ok r =>
      rw [hlength, ok_bind, map_eq_ok] at h
      obtain ⟨⟨ss, q₁⟩, hss, hs⟩ := h
      cases hs
      have hall : List.Forall₂ (fun _ => HasShape m f.element) (List.replicate r.1 f.element) ss := by
        apply forall₂_of_shapes _ hss
        intro g hg
        rw [List.eq_of_mem_replicate hg]
        exact fun q s q' => hasShape_of_scalar f.arraySize_element hobject
      refine .array hsize htype fun i hi => ?_
      exact hall.get (by rw [hall.length_eq]; exact hi) hi
  · obtain ⟨w, hw, hwidth⟩ := exists_typeSize htype
    rw [shapeField_numbers hsize hwidth, map_eq_ok] at h
    obtain ⟨r, -, hs⟩ := h
    cases hs
    exact .numbers hsize hw

end Fields

theorem hasShape_of_shapeFields {fuel q q' : ℕ} {todo : List FieldDef} {ss : List Shape}
    (hfields : ∀ f q s q', shapeField m buffer (shapeObject m buffer fuel) f q = .ok (s, q') → HasShape m f s)
    (h : shapeFields m buffer fuel todo q = .ok (ss, q')) :
    todo.length = ss.length ∧ ∀ i (hf : i < todo.length) (hs : i < ss.length), HasShape m todo[i] ss[i] := by
  have hall := forall₂_of_shapes (R := HasShape m) (fun f _ => hfields f) h
  exact ⟨hall.length_eq, fun i hf hs => hall.get hf hs⟩

/-- Every field's shape: the induction is on how deep objects are nested. -/
theorem hasShape_of_shapeField {fuel q q' : ℕ} {f : FieldDef} {s : Shape}
    (h : shapeField m buffer (shapeObject m buffer fuel) f q = .ok (s, q')) : HasShape m f s := by
  induction fuel generalizing f q s q' with
  | zero =>
    by_cases hsize : f.arraySize = 0
    · exact hasShape_of_scalar hsize (fun d _ q s q' hobject => by cases hobject) h
    · exact hasShape_of_array hsize (fun d _ q s q' hobject => by cases hobject) h
  | succ fuel ih =>
    have hobject : ∀ (g : FieldDef) d, g.arraySize = 0 → m.typeDefinition g = .ok d → ∀ q s q',
        shapeObject m buffer (fuel + 1) d q = .ok (s, q') → HasShape m g s := by
      intro g d hsize hd q s q' hs
      rw [shapeObject_succ, map_eq_ok] at hs
      obtain ⟨⟨ss, q₁⟩, hss, hs⟩ := hs
      cases hs
      obtain ⟨hlength, hfields⟩ := hasShape_of_shapeFields (fun _ _ _ _ => ih) hss
      exact .object hsize hd hlength hfields
    by_cases hsize : f.arraySize = 0
    · exact hasShape_of_scalar hsize (hobject f · hsize) h
    · exact hasShape_of_array hsize (fun d hd => hobject f.element d rfl hd) h

end Shapes

end Embag
