import Embag.MessageIndices
import Embag.MessageReads
import Embag.PyDicts

/-! Arrays of numbers as blocks of bytes and element by element, and the dictionaries made with
the one and with the other. The address of an empty array is that of an element it has not. -/

namespace Embag

open LittleEndian Loops Outcomes

/-- The block of bytes is there, and is made of the values that the elements have. -/
structure BlobAgrees (base : List RosValue) (v : RosValue) : Prop where
  exists_elements : ∃ (xs : List Scalar) (qs : List Pointer),
    v.size = .ok xs.length ∧ v.getValues = .ok qs ∧ v.iterateValues = .ok qs ∧
    (∀ i (h : i < qs.length), v.at i = .ok qs[i]) ∧
    List.Forall₂ (fun q x => ∃ w, q.deref base = .ok w ∧ w.getType = x.type ∧ w.as x.type = .ok x) qs xs ∧
    ∃ buffer offset size, v.getPrimitiveArrayRosValueBuffer base = .ok (buffer, offset) ∧
      v.getPrimitiveArrayRosValueBufferSize = .ok size ∧
      readRaw buffer offset size = .ok (xs.flatMap Scalar.toBytes)

section Values

variable {base : List RosValue} {v : RosValue} {n : ℕ} {q : ℕ → Pointer}

theorem RosValue.getValues_of_at (htype : v.getType.isContainer = true) (hn : v.size = .ok n)
    (h : ∀ i < n, v.at i = .ok (q i)) : v.getValues = .ok ((List.range n).map q) := by
  rw [getValues, if_pos htype, hn, ok_bind]
  apply mapM_eq_map
  intro i hi
  exact h i (List.mem_range.1 hi)

theorem RosValue.iterateValues_of_at (htype : v.getType.isContainer = true) (hn : v.size = .ok n)
    (h : ∀ i < n, v.at i = .ok (q i)) : v.iterateValues = .ok ((List.range n).map q) := by
  rw [iterateValues, if_pos htype, hn, ok_bind]
  have hloop : ∃ values, forLoop (fun index values => do return values ++ [← v.at index]) 0
      ((List.range n).map q).length [] = .ok values ∧ values = (List.range n).map q := by
    refine forLoop_list (I := fun done values => values = done) rfl ?_
    intro done x rest values hsplit hvalues
    have hi : done.length < n := by
      have hlength := congrArg List.length hsplit
      simp at hlength
      omega
    have hx : ((List.range n).map q)[done.length]? = some x := by
      rw [hsplit]
      simp
    rw [List.getElem?_map, List.getElem?_range hi, Option.map_some, Option.some.injEq] at hx
    refine ⟨done ++ [x], ?_, rfl⟩
    rw [h _ hi, hx, hvalues]
    rfl
  obtain ⟨values, hvalues, rfl⟩ := hloop
  rwa [List.length_map, List.length_range] at hvalues

end Values

section Numbers

variable {base : List RosValue} {buffer : Bytes} {type : RosValueType} {o w : ℕ} {xs : List Scalar}

theorem size_pos (hw : primitiveTypeToSize type = .ok w) : 0 < w := by
  cases type <;> first | (cases hw; norm_num) | cases hw

def numberAt (buffer : Bytes) (type : RosValueType) (o w i : ℕ) : Pointer :=
  .value (.primitive type ⟨o + i * w, some buffer⟩)

theorem as_numberAt (hw : primitiveTypeToSize type = .ok w) (types : ∀ x ∈ xs, x.type = type)
    (occurs : OccursAt (xs.flatMap Scalar.toBytes) buffer o) {i : ℕ} (hi : i < xs.length) :
    (RosValue.primitive type ⟨o + i * w, some buffer⟩).as type = .ok xs[i] := by
  have hocc := occursAt_flatMap_getElem hw types occurs hi
  have hreads := (@Decodes.scalar buffer [] 0 _ _ hocc).reads
  rw [RosValue.Reads, types _ (List.getElem_mem hi)] at hreads
  exact hreads

theorem primitiveArrayBuffer_eq (hw : primitiveTypeToSize type = .ok w) (n : ℕ) :
    (RosValue.primitiveArray type o n buffer).getPrimitiveArrayRosValueBuffer base =
      (atIndex buffer o).map fun _ => (buffer, o) := by
  rw [RosValue.getPrimitiveArrayRosValueBuffer,
    if_neg (not_not.2 (RosValue.getType_primitiveArray type o n buffer)),
    Represents.at_of_numbers hw, ok_bind, Pointer.deref, ok_bind, RosValue.primitiveAddress,
    Nat.zero_mul, Nat.add_zero]
  cases atIndex buffer o with
  | error e => rfl
  | ok => rfl

theorem readRaw_numbers (hw : primitiveTypeToSize type = .ok w) (types : ∀ x ∈ xs, x.type = type)
    (occurs : OccursAt (xs.flatMap Scalar.toBytes) buffer o) :
    readRaw buffer o (xs.length * w) = .ok (xs.flatMap Scalar.toBytes) := by
  rw [← length_flatMap_toBytes hw types]
  exact readRaw_of_occursAt occurs

/-- An array of numbers agrees with its block of bytes unless it starts at the end of the buffer. -/
theorem blobAgrees_iff (hw : primitiveTypeToSize type = .ok w) (types : ∀ x ∈ xs, x.type = type)
    (occurs : OccursAt (xs.flatMap Scalar.toBytes) buffer o) :
    BlobAgrees base (.primitiveArray type o xs.length buffer) ↔ o < buffer.length := by
  constructor
  · intro h
    obtain ⟨xs', qs, -, -, -, -, -, buffer', offset, size, hbuffer, -⟩ := h.exists_elements
    rw [primitiveArrayBuffer_eq hw] at hbuffer
    rw [← atIndex_ok_iff]
    cases hat : atIndex buffer o with
    | error e =>
      rw [hat] at hbuffer
      cases hbuffer
    | ok => rfl
  · intro ho
    have hat : ∀ i < xs.length, (RosValue.primitiveArray type o xs.length buffer).at i =
        .ok (numberAt buffer type o w i) := fun i _ => Represents.at_of_numbers hw i
    refine ⟨xs, (List.range xs.length).map (numberAt buffer type o w), rfl,
      RosValue.getValues_of_at rfl rfl hat, RosValue.iterateValues_of_at rfl rfl hat, ?_, ?_,
      buffer, o, xs.length * w, ?_, ?_, readRaw_numbers hw types occurs⟩
    · intro i hi
      rw [List.length_map, List.length_range] at hi
      rw [List.getElem_map, List.getElem_range]
      exact hat i hi
    · rw [List.forall₂_iff_get]
      refine ⟨by simp, fun i hi hi' => ?_⟩
      refine ⟨.primitive type ⟨o + i * w, some buffer⟩, by simp [numberAt, Pointer.deref], ?_, ?_⟩
      · exact (types _ (List.get_mem xs ⟨i, hi'⟩)).symm
      · rw [types _ (List.get_mem xs ⟨i, hi'⟩)]
        exact as_numberAt hw types occurs hi'
    · rw [primitiveArrayBuffer_eq hw, atIndex_of_lt ho]
      rfl
    · rw [RosValue.getPrimitiveArrayRosValueBufferSize, hw, ok_bind]
      rfl

end Numbers

section Tree

variable {buffer : Bytes} {base : List RosValue} {low : ℕ} {x : RosValue} {shape : Shape}

theorem Represents.blobAgrees_iff (h : Represents buffer base low x shape) (hheld : Held buffer shape)
    (htype : x.getType = .primitiveArray) :
    BlobAgrees base x ↔ (buffer.length, buffer.length) ∉ shape.regions := by
  cases h with
  | scalar hw =>
    rw [RosValue.getType_primitive] at htype
    rw [htype] at hw
    cases hw
  | string => cases htype
  | array => cases htype
  | object => cases htype
  | numbers hw =>
    obtain ⟨v, hholds⟩ := hheld
    cases hholds with
    | @numbers _ o w _ xs width types occurs =>
      have hend := occurs.add_length_le
      rw [length_flatMap_toBytes width types] at hend
      rw [Embag.blobAgrees_iff width types occurs, Shape.regions, List.mem_singleton, Prod.mk.injEq]
      omega

theorem notMem_regions_child {s s' : Shape} {i : ℕ} (hheld : Held buffer s)
    (h : (buffer.length, buffer.length) ∉ s.regions) (hchild : s.child? i = some s') :
    (buffer.length, buffer.length) ∉ s'.regions := by
  cases s with
  | scalar => cases hchild
  | string => cases hchild
  | numbers type o n w =>
    rw [Shape.child?] at hchild
    split_ifs at hchild with hi
    cases hchild
    obtain ⟨v, hholds⟩ := hheld
    cases hholds with
    | numbers width types occurs =>
      have hpos := size_pos width
      rw [Shape.regions, List.mem_singleton, Prod.mk.injEq]
      omega
  | array ss =>
    intro hr
    exact h (mem_regionsOf.2 ⟨s', List.mem_of_getElem? hchild, hr⟩)
  | object d ss =>
    intro hr
    exact h (mem_regionsOf.2 ⟨s', List.mem_of_getElem? hchild, hr⟩)

/-- An array that starts at the end of the buffer is reached, and has no block of bytes. -/
theorem Represents.exists_not_blobAgrees (h : Represents buffer base low x shape) (hx : InTree base x)
    (hheld : Held buffer shape) (hr : (buffer.length, buffer.length) ∈ shape.regions) :
    ∃ v, InTree base v ∧ v.getType = .primitiveArray ∧ ¬ BlobAgrees base v := by
  induction h with
  | scalar hw =>
    have hpos := size_pos hw
    rw [Shape.regions, List.mem_singleton, Prod.mk.injEq] at hr
    omega
  | string hn =>
    rw [Shape.regions, List.mem_singleton, Prod.mk.injEq] at hr
    omega
  | @numbers type o n w hw =>
    have hrep : Represents buffer base low (.primitiveArray type o n buffer) (.numbers type o n w) := .numbers hw
    exact ⟨_, hx, rfl, fun hagrees => (hrep.blobAgrees_iff hheld rfl).1 hagrees hr⟩
  | array xs above slots children ih =>
    obtain ⟨s, hs, hr⟩ := mem_regionsOf.1 hr
    obtain ⟨i, hi, rfl⟩ := List.mem_iff_getElem.1 hs
    exact ih i hi (hx.child rfl hi (RosValueList.at_of_lt hi) (deref_slot (slots i hi)))
      (hheld.child (i := i) (List.getElem?_eq_getElem hi)) hr
  | object xs above length slots children ih =>
    obtain ⟨s, hs, hr⟩ := mem_regionsOf.1 hr
    obtain ⟨i, hi, rfl⟩ := List.mem_iff_getElem.1 hs
    exact ih i hi (hx.child rfl hi (RosValueList.at_of_lt hi) (deref_slot (slots i hi)))
      (hheld.child (i := i) (List.getElem?_eq_getElem hi)) hr

theorem forall_blobAgrees_iff (h : Represents buffer base low x shape) (hroot : base[0]? = some x)
    (hheld : Held buffer shape) :
    (∀ v, InTree base v → v.getType = .primitiveArray → BlobAgrees base v) ↔
      (buffer.length, buffer.length) ∉ shape.regions := by
  constructor
  · intro hall hr
    obtain ⟨v, hv, htype, hnot⟩ := h.exists_not_blobAgrees (.root hroot) hheld hr
    exact hnot (hall v hv htype)
  · intro hr v hv htype
    obtain ⟨s, hrep, hs, hrs⟩ := hv.induct
      (I := fun s => Held buffer s ∧ (buffer.length, buffer.length) ∉ s.regions) hroot h ⟨hheld, hr⟩
      fun hI hchild => ⟨hI.1.child hchild, notMem_regions_child hI.1 hI.2 hchild⟩
    exact (hrep.blobAgrees_iff hs htype).2 hrs

end Tree

/-! ### Where the values end -/

/-- The last bytes of a value are the length of an array of numbers, which is 0. -/
inductive EndsInEmptyArray (m : MsgDef) : FieldDef → Value → Prop
  | empty {f : FieldDef} {dynamic : Bool} (size : f.arraySize ≠ 0)
    (type : ¬ (f.type = .object ∨ f.type = .string)) : EndsInEmptyArray m f (.array dynamic [])
  | element {f : FieldDef} {dynamic : Bool} {vs : List Value} {i : ℕ} (size : f.arraySize ≠ 0)
    (hi : i < vs.length) (last : encodeList (vs.drop (i + 1)) = [])
    (ends : EndsInEmptyArray m f.element vs[i]) : EndsInEmptyArray m f (.array dynamic vs)
  | field {f : FieldDef} {d : BaseMsgDef} {names : List Bytes} {vs : List Value} {i : ℕ}
    (size : f.arraySize = 0) (definition : m.typeDefinition f = .ok d) (hf : i < d.fields.length)
    (hv : i < vs.length) (last : encodeList (vs.drop (i + 1)) = [])
    (ends : EndsInEmptyArray m d.fields[i] vs[i]) : EndsInEmptyArray m f (.object names vs)

/-- The last bytes of a message are the length of an array of numbers, which is 0. -/
def MessageEndsInEmptyArray (m : MsgDef) (vs : List Value) : Prop :=
  ∃ (i : ℕ) (hf : i < m.fields.length) (hv : i < vs.length),
    EndsInEmptyArray m m.fields[i] vs[i] ∧ encodeList (vs.drop (i + 1)) = []

section Ends

variable {m : MsgDef} {buffer : Bytes}

/-- The layout of the value has an array at the end of the buffer where `P` holds and the value
ends there. -/
def Marks (buffer : Bytes) (P : Prop) (layout : Layout) (v : Value) : Prop :=
  ∀ q shape q', layout q = .ok (shape, q') → OccursAt v.encode buffer q →
    q' = q + v.encode.length ∧
      ((buffer.length, buffer.length) ∈ shape.regions ↔ buffer.length = q + v.encode.length ∧ P)

theorem marks_shapes {α : Type} {step : α → Layout} {P : α → Value → Prop} {items : List α}
    {vs : List Value} {q q' : ℕ} {ss : List Shape} (hlen : items.length = vs.length)
    (h : ∀ i (hi : i < items.length) (hv : i < vs.length),
      Marks buffer (P items[i] vs[i]) (step items[i]) vs[i])
    (hss : shapes step items q = .ok (ss, q')) (hocc : OccursAt (encodeList vs) buffer q) :
    q' = q + (encodeList vs).length ∧
      ((buffer.length, buffer.length) ∈ regionsOf ss ↔ buffer.length = q + (encodeList vs).length ∧
        ∃ (i : ℕ) (hi : i < items.length) (hv : i < vs.length),
          P items[i] vs[i] ∧ encodeList (vs.drop (i + 1)) = []) := by
  induction items generalizing vs q ss with
  | nil =>
    obtain rfl : vs = [] := List.length_eq_zero_iff.1 hlen.symm
    obtain ⟨rfl, rfl⟩ := shapes_nil_eq_ok hss
    refine ⟨rfl, ?_, ?_⟩
    · intro hr
      exact absurd hr List.not_mem_nil
    · rintro ⟨-, i, hi, -⟩
      exact absurd hi (Nat.not_lt_zero i)
  | cons a items ih =>
    obtain ⟨v, vs, rfl⟩ : ∃ v vs', vs = v :: vs' :=
      List.exists_cons_of_length_pos (by rw [← hlen]; simp)
    obtain ⟨shape, q₁, rest, hshape, hrest, rfl⟩ := shapes_cons_eq_ok hss
    have hlen' : items.length = vs.length := by simpa using hlen
    rw [encodeList, occursAt_append] at hocc
    obtain ⟨rfl, hfirst⟩ := h 0 (by simp) (by simp) q shape q₁ hshape hocc.1
    rw [List.getElem_cons_zero, List.getElem_cons_zero] at hfirst
    obtain ⟨rfl, hothers⟩ := ih hlen'
      (fun i hi hv => h (i + 1) (by simpa using hi) (by simpa using hv)) hrest hocc.2
    have hend := hocc.2.add_length_le
    rw [encodeList, List.length_append, regionsOf, List.mem_append, hothers, ← Nat.add_assoc]
    refine ⟨rfl, ?_, ?_⟩
    · rintro (hr | ⟨hn, i, hi, hv, hP, hlast⟩)
      · obtain ⟨hn, hP⟩ := hfirst.1 hr
        have hnil : encodeList vs = [] := by
          rw [← List.length_eq_zero_iff]
          omega
        exact ⟨by rw [hnil]; exact hn, 0, by simp, by simp, hP, hnil⟩
      · exact ⟨hn, i + 1, by simpa using hi, by simpa using hv, hP, hlast⟩
    · rintro ⟨hn, i, hi, hv, hP, hlast⟩
      cases i with
      | zero =>
        have hnil : encodeList vs = [] := hlast
        rw [hnil] at hn
        exact .inl (hfirst.2 ⟨hn, hP⟩)
      | succ i => exact .inr ⟨hn, i, by simpa using hi, by simpa using hv, hP, hlast⟩

theorem EndsInEmptyArray.array_iff {f : FieldDef} {dynamic : Bool} {vs : List Value} (size : f.arraySize ≠ 0) :
    EndsInEmptyArray m f (.array dynamic vs) ↔
      (vs = [] ∧ ¬ (f.type = .object ∨ f.type = .string)) ∨ ∃ (i : ℕ) (hi : i < vs.length),
        EndsInEmptyArray m f.element vs[i] ∧ encodeList (vs.drop (i + 1)) = [] := by
  constructor
  · intro h
    cases h with
    | empty _ type => exact .inl ⟨rfl, type⟩
    | element _ hi last ends => exact .inr ⟨_, hi, ends, last⟩
  · rintro (⟨rfl, type⟩ | ⟨i, hi, ends, last⟩)
    · exact .empty size type
    · exact .element size hi last ends

theorem EndsInEmptyArray.object_iff {f : FieldDef} {d : BaseMsgDef} {names : List Bytes} {vs : List Value}
    (size : f.arraySize = 0) (definition : m.typeDefinition f = .ok d) :
    EndsInEmptyArray m f (.object names vs) ↔ ∃ (i : ℕ) (hf : i < d.fields.length) (hv : i < vs.length),
      EndsInEmptyArray m d.fields[i] vs[i] ∧ encodeList (vs.drop (i + 1)) = [] := by
  constructor
  · intro h
    cases h with
    | field _ definition' hf hv last ends =>
      rw [definition] at definition'
      cases definition'
      exact ⟨_, hf, hv, ends, last⟩
  · rintro ⟨i, hf, hv, ends, last⟩
    exact .field size definition hf hv last ends

theorem marks_scalar {f : FieldDef} {x : Scalar} (type : f.type = x.type) :
    Marks buffer (EndsInEmptyArray m f (.scalar x)) (shapePrimitive buffer f) (.scalar x) := by
  intro q shape q' hshape hocc
  obtain ⟨shape', hshape', hholds⟩ := shapePrimitive_scalar (D := fun _ => True) type q hocc
  rw [hshape'] at hshape
  cases hshape
  refine ⟨rfl, ?_, ?_⟩
  · cases hholds
    have hpos := List.length_pos_iff.2 x.toBytes_ne_nil
    rw [Shape.regions, List.mem_singleton, Prod.mk.injEq]
    omega
  · rintro ⟨-, hends⟩
    cases hends

theorem marks_string {f : FieldDef} {x : Bytes} (type : f.type = .string) (bound : x.length < 2 ^ 32) :
    Marks buffer (EndsInEmptyArray m f (.string x)) (shapePrimitive buffer f) (.string x) := by
  intro q shape q' hshape hocc
  obtain ⟨shape', hshape', hholds⟩ := shapePrimitive_string (D := fun _ => True) type bound q hocc
  rw [hshape'] at hshape
  cases hshape
  refine ⟨rfl, ?_, ?_⟩
  · cases hholds
    rw [Shape.regions, List.mem_singleton, Prod.mk.injEq]
    omega
  · rintro ⟨-, hends⟩
    cases hends

theorem marks_array {object : BaseMsgDef → Layout} {f : FieldDef} {dynamic : Bool} {vs : List Value}
    (size : f.arraySize ≠ 0) (hty : HasType m f (.array dynamic vs))
    (helements : ∀ v ∈ vs, Marks buffer (EndsInEmptyArray m f.element v) (shapeField m buffer object f.element) v) :
    Marks buffer (EndsInEmptyArray m f (.array dynamic vs)) (shapeField m buffer object f)
      (.array dynamic vs) := by
  intro q shape q' hshape hocc
  have hocc' := occursAt_append.1 (show OccursAt (lengthPrefix dynamic vs.length ++ encodeList vs)
    buffer q from hocc)
  have hencode : (Value.array dynamic vs).encode.length =
      (lengthPrefix dynamic vs.length).length + (encodeList vs).length := by
    rw [Value.encode, List.length_append]
    rfl
  have hlength := shapeLength_of_hasType hty hocc'.1
  rw [hencode, ← Nat.add_assoc, EndsInEmptyArray.array_iff size]
  by_cases htype : f.type = .object ∨ f.type = .string
  · rw [shapeField_array size htype, hlength, ok_bind] at hshape
    rcases hss : shapes (shapeField m buffer object) (List.replicate vs.length f.element)
      (q + (lengthPrefix dynamic vs.length).length) with e | ⟨ss, q₁⟩
    · rw [hss] at hshape
      cases hshape
    rw [hss] at hshape
    cases hshape
    obtain ⟨rfl, hiff⟩ := marks_shapes (P := EndsInEmptyArray m) List.length_replicate (fun i hi hv => by
      rw [List.getElem_replicate]
      exact helements vs[i] (List.getElem_mem hv)) hss hocc'.2
    refine ⟨rfl, hiff.trans (and_congr_right fun _ => ?_)⟩
    constructor
    · rintro ⟨i, hi, hv, ends, last⟩
      rw [List.getElem_replicate] at ends
      exact .inr ⟨i, hv, ends, last⟩
    · rintro (⟨-, hnot⟩ | ⟨i, hv, ends, last⟩)
      · exact absurd htype hnot
      · exact ⟨i, by simpa using hv, hv, by rwa [List.getElem_replicate], last⟩
  · obtain ⟨xs, rfl, hxs⟩ := scalars_of_hasType htype (elements_of_hasType hty)
    obtain ⟨w, hw, hsize⟩ := exists_typeSize htype
    rw [shapeField_numbers_of_length size hsize hlength] at hshape
    cases hshape
    have hcount : (xs.map Value.scalar).length = xs.length := List.length_map _
    rw [encodeList_map_scalar, length_flatMap_toBytes hw hxs, ← hcount]
    refine ⟨rfl, ?_⟩
    have hpos := size_pos hw
    rw [Shape.regions, List.mem_singleton, Prod.mk.injEq]
    constructor
    · rintro ⟨hstart, hend⟩
      have hzero : (xs.map Value.scalar).length * w = 0 := by omega
      have hnil := (Nat.mul_eq_zero.1 hzero).resolve_right (by omega)
      exact ⟨by omega, .inl ⟨List.length_eq_zero_iff.1 hnil, htype⟩⟩
    · rintro ⟨hn, ⟨hnil, -⟩ | ⟨i, hi, ends, -⟩⟩
      · rw [hnil, List.length_nil, Nat.zero_mul] at hn ⊢
        exact ⟨hn, hn⟩
      · rw [List.getElem_map] at ends
        cases ends

/-- Every value of a field: the induction over the value's type. -/
theorem marks_field {f : FieldDef} {v : Value} (hty : HasType m f v) {fuel : ℕ} (hfuel : v.depth ≤ fuel) :
    Marks buffer (EndsInEmptyArray m f v) (shapeField m buffer (shapeObject m buffer fuel) f) v := by
  induction hty generalizing fuel with
  | @scalar f x size type =>
    have hne : f.type ≠ .object := by rw [type]; exact x.type_ne_object
    rw [shapeField, if_pos size, shapeElement_of_ne hne]
    exact marks_scalar type
  | @string f x size type bound =>
    have hne : f.type ≠ .object := by rw [type]; decide
    rw [shapeField, if_pos size, shapeElement_of_ne hne]
    exact marks_string type bound
  | @object f d vs size definition length fields ih =>
    rw [Value.depth] at hfuel
    obtain ⟨fuel, rfl⟩ : ∃ k, fuel = k + 1 := ⟨fuel - 1, by omega⟩
    rw [shapeField_object size definition]
    intro q shape q' hshape hocc
    have hdepth : ∀ v ∈ vs, v.depth ≤ fuel :=
      fun v hv => (Value.depth_le_of_mem hv).trans (by omega)
    rw [shapeObject_succ] at hshape
    rcases hss : shapeFields m buffer fuel d.fields q with e | ⟨ss, q₁⟩
    · rw [hss] at hshape
      cases hshape
    rw [hss] at hshape
    cases hshape
    rw [EndsInEmptyArray.object_iff size definition]
    exact marks_shapes length.symm (fun i hi hv => ih i hi hv (hdepth vs[i] (List.getElem_mem hv))) hss hocc
  | @fixedArray f vs size bound length elements ih =>
    exact marks_array (by omega) (.fixedArray size bound length elements)
      fun v hv => ih v hv ((Value.depth_le_of_mem hv).trans hfuel)
  | @dynamicArray f vs size bound elements ih =>
    exact marks_array (by omega) (.dynamicArray size bound elements)
      fun v hv => ih v hv ((Value.depth_le_of_mem hv).trans hfuel)

end Ends

inductive PyData.IsNumbers (xs : List Scalar) : PyData → Prop
  | bytes : IsNumbers xs (.bytes (xs.flatMap Scalar.toBytes))
  | memoryview {format : Bytes} {itemsize : ℕ} :
    IsNumbers xs (.memoryview format itemsize (xs.flatMap Scalar.toBytes))
  | list : IsNumbers xs (.list (xs.map fun x => .cast (.scalar x)))

/-- The same data, in whatever form it has the arrays of numbers. -/
inductive PyData.Same : PyData → PyData → Prop
  | cast (o : PyObject) : Same (.cast o) (.cast o)
  | numbers {d d' : PyData} {xs : List Scalar} (left : d.IsNumbers xs) (right : d'.IsNumbers xs) : Same d d'
  | list {ds ds' : List PyData} (elements : List.Forall₂ Same ds ds') : Same (.list ds) (.list ds')
  | dict {keys : List Bytes} {ds ds' : List PyData} (values : List.Forall₂ Same ds ds') :
    Same (.dict keys ds) (.dict keys ds')

section Dicts

variable {base : List RosValue} {buffer : Bytes} {low : ℕ} {x : RosValue} {shape : Shape} {q : Pointer}
  {mv mv' : Bool} {types types' : List RosValueType}

theorem rosValueToPyData_of_leaf (hq : q.deref base = .ok x) (h : x.getType.isContainer = false) (mv : Bool)
    (fuel : ℕ) (types : List RosValueType) :
    rosValueToPyData base mv (fuel + 1) types q = (castValue base q).map .cast := by
  rw [rosValueToPyData, hq, ok_bind]
  cases castValue base q <;> cases htype : x.getType <;> rw [htype] at h <;> first | rfl | cases h

theorem mapM_numberAt {type : RosValueType} {o w : ℕ} {xs : List Scalar} (hw : primitiveTypeToSize type = .ok w)
    (hxs : ∀ x ∈ xs, x.type = type) (occurs : OccursAt (xs.flatMap Scalar.toBytes) buffer o) (mv : Bool)
    (fuel : ℕ) (types : List RosValueType) :
    ((List.range xs.length).map (numberAt buffer type o w)).mapM (rosValueToPyData base mv (fuel + 1) types) =
      .ok (xs.map fun x => .cast (.scalar x)) := by
  have hget : ∀ i (hi : i < xs.length), rosValueToPyData base mv (fuel + 1) types (numberAt buffer type o w i) =
      .ok (.cast (.scalar xs[i])) := by
    intro i hi
    have hstr : type ≠ .string := by
      rintro rfl
      cases hw
    have hderef : (numberAt buffer type o w i).deref base = .ok (.primitive type ⟨o + i * w, some buffer⟩) := rfl
    have hcontainer := isContainer_of_size hw
    rw [rosValueToPyData_of_leaf hderef hcontainer,
      castValue_of_scalar hderef hcontainer hstr (as_numberAt hw hxs occurs hi)]
    rfl
  have hmap : (List.range xs.length).map (fun i => PyData.cast (.scalar (xs.getD i (.bool false)))) =
      xs.map fun x => .cast (.scalar x) := by
    apply List.ext_getElem (by simp)
    intro i hi hi'
    have hlt : i < xs.length := by simpa using hi
    simp [hlt]
  rw [List.mapM_map, ← hmap]
  apply mapM_eq_map
  intro i hi
  have hlt := List.mem_range.1 hi
  rw [Function.comp_apply, hget i hlt, List.getD_eq_getElem?_getD, List.getElem?_eq_getElem hlt, Option.getD_some]

theorem exists_isNumbers {type : RosValueType} {o w : ℕ} {xs : List Scalar}
    (hq : q.deref base = .ok (.primitiveArray type o xs.length buffer)) (hw : primitiveTypeToSize type = .ok w)
    (hxs : ∀ x ∈ xs, x.type = type) (occurs : OccursAt (xs.flatMap Scalar.toBytes) buffer o)
    (ho : o < buffer.length) (mv : Bool) (fuel : ℕ) (types : List RosValueType) :
    ∃ d, rosValueToPyData base mv (fuel + 2) types q = .ok d ∧ d.IsNumbers xs := by
  have hread := readRaw_numbers hw hxs occurs
  have hbuffer : (RosValue.primitiveArray type o xs.length buffer).getPrimitiveArrayRosValueBuffer base =
      .ok (buffer, o) := by
    rw [primitiveArrayBuffer_eq hw, atIndex_of_lt ho]
    rfl
  rw [rosValueToPyData, hq, ok_bind]
  simp only [RosValue.getType_primitiveArray, primitiveArrayToPyObject, hq, ok_bind, RosValue.getElementType]
  split_ifs with hblob hmv
  · have hne : type ≠ .string := by
      rintro rfl
      cases hw
    obtain ⟨format, hformat⟩ := exists_primitiveTypeToFormat hw
    refine ⟨.memoryview format w (xs.flatMap Scalar.toBytes), ?_, .memoryview⟩
    rw [bufferInfo, RosValue.getElementType, ok_bind, if_neg hne, hw, ok_bind, hbuffer, ok_bind]
    simp only [hformat, RosValue.size, hread, ok_bind]
    rfl
  · refine ⟨.bytes (xs.flatMap Scalar.toBytes), ?_, .bytes⟩
    rw [RosValue.primitiveArrayBytes, hbuffer, ok_bind, RosValue.getPrimitiveArrayRosValueBufferSize, hw, ok_bind]
    simp only [pure_bind, hread, ok_bind]
    rfl
  · have hvalues : (RosValue.primitiveArray type o xs.length buffer).getValues =
        .ok ((List.range xs.length).map (numberAt buffer type o w)) :=
      RosValue.getValues_of_at rfl rfl fun i _ => Represents.at_of_numbers hw i
    refine ⟨.list (xs.map fun x => .cast (.scalar x)), ?_, .list⟩
    rw [rosValueToList, hq, ok_bind, if_neg (by simp), hvalues, ok_bind]
    rw [mapM_numberAt hw hxs occurs, ok_bind]
    rfl

def ConvertsAlike (base : List RosValue) (mv mv' : Bool) (types types' : List RosValueType) (q : Pointer)
    (fuel : ℕ) : Prop :=
  ∃ d d', rosValueToPyData base mv fuel types q = .ok d ∧ rosValueToPyData base mv' fuel types' q = .ok d' ∧
    d.Same d'

theorem ConvertsAlike.array {c n fuel : ℕ} (hq : q.deref base = .ok (.array ⟨c, n⟩))
    (h : ∀ i < n, ConvertsAlike base mv mv' types types' (.slot (c + i)) fuel) :
    ConvertsAlike base mv mv' types types' q (fuel + 1) := by
  have hvalues : (RosValue.array ⟨c, n⟩).getValues = .ok ((List.range n).map fun i => .slot (c + i)) :=
    RosValue.getValues_of_at rfl rfl fun i hi => RosValueList.at_of_lt hi
  have helements : ∀ p ∈ (List.range n).map fun i => Pointer.slot (c + i),
      ∃ d d', rosValueToPyData base mv fuel types p = .ok d ∧ rosValueToPyData base mv' fuel types' p = .ok d' ∧
        d.Same d' := by
    intro p hp
    obtain ⟨i, hi, rfl⟩ := List.mem_map.1 hp
    exact h i (List.mem_range.1 hi)
  obtain ⟨ds, ds', hds, hds', hall⟩ := forall₂_mapM helements
  refine ⟨.list ds, .list ds', ?_, ?_, .list hall⟩
  · simp only [rosValueToPyData, rosValueToList, hq, ok_bind, RosValue.getType_array, hvalues, hds]
    rfl
  · simp only [rosValueToPyData, rosValueToList, hq, ok_bind, RosValue.getType_array, hvalues, hds']
    rfl

theorem lt_of_lookup_fieldIndexes {d : BaseMsgDef} {name : Bytes} {i : ℕ}
    (h : d.fieldIndexes.lookup name = some i) : i < d.fields.length := by
  have hfold : ∀ (fields : List FieldDef) (k : ℕ) (map : FieldIndexes),
      (∀ i, map.lookup name = some i → i < k + fields.length) →
      ∀ i, ((fields.zipIdx k).foldl (fun map entry => emplace map entry.1.name entry.2) map).lookup name = some i →
        i < k + fields.length := by
    intro fields
    induction fields with
    | nil => exact fun k map h => h
    | cons f fields ih =>
      intro k map h
      rw [List.zipIdx_cons, List.foldl_cons, List.length_cons, ← Nat.add_assoc, Nat.add_right_comm]
      apply ih
      intro i hi
      have hmap : ∀ i, map.lookup name = some i → i < k + 1 + fields.length := by
        intro i hi
        have hlt := h i hi
        rw [List.length_cons] at hlt
        omega
      by_cases hmem : f.name ∈ map
      · rw [emplace, if_pos hmem] at hi
        exact hmap i hi
      · by_cases hne : name = f.name
        · rw [hne, lookup_emplace_self hmem, Option.some.injEq] at hi
          omega
        · rw [lookup_emplace_ne hne] at hi
          exact hmap i hi
  have hlt := hfold d.fields 0 ∅ (fun i hi => by rw [AList.lookup_empty] at hi; cases hi) i h
  rwa [Nat.zero_add] at hlt

theorem ConvertsAlike.object {c fuel : ℕ} {d : BaseMsgDef}
    (hq : q.deref base = .ok (.object ⟨c, d.fields.length⟩ d.fieldIndexes))
    (h : ∀ i < d.fields.length, ConvertsAlike base mv mv' types types' (.slot (c + i)) fuel) :
    ConvertsAlike base mv mv' types types' q (fuel + 1) := by
  have hobjects : (RosValue.object ⟨c, d.fields.length⟩ d.fieldIndexes).getObjects =
      .ok (d.fieldIndexes.entries.map fun e => (e.1, .slot (c + e.2))) := by
    apply mapM_eq_map
    intro e he
    have hlookup : d.fieldIndexes.lookup e.1 = some e.2 := AList.mem_lookup_iff.2 he
    rw [RosValue.at, RosValueList.at_of_lt (lt_of_lookup_fieldIndexes hlookup)]
    rfl
  have helements : ∀ p ∈ (d.fieldIndexes.entries.map fun e => (e.1, Pointer.slot (c + e.2))).map Prod.snd,
      ∃ d d', rosValueToPyData base mv fuel types p = .ok d ∧ rosValueToPyData base mv' fuel types' p = .ok d' ∧
        d.Same d' := by
    intro p hp
    obtain ⟨entry, hentry, rfl⟩ := List.mem_map.1 hp
    obtain ⟨e, he, rfl⟩ := List.mem_map.1 hentry
    exact h e.2 (lt_of_lookup_fieldIndexes (AList.mem_lookup_iff.2 he))
  obtain ⟨ds, ds', hds, hds', hall⟩ := forall₂_mapM helements
  refine ⟨.dict ((d.fieldIndexes.entries.map fun e => (e.1, Pointer.slot (c + e.2))).map Prod.fst) ds,
    .dict ((d.fieldIndexes.entries.map fun e => (e.1, Pointer.slot (c + e.2))).map Prod.fst) ds', ?_, ?_,
    .dict hall⟩
  · simp only [rosValueToPyData, rosValueToDict, hq, ok_bind, RosValue.getType_object, hobjects, hds]
    rfl
  · simp only [rosValueToPyData, rosValueToDict, hq, ok_bind, RosValue.getType_object, hobjects, hds']
    rfl

theorem Represents.convertsAlike (h : Represents buffer base low x shape) (hheld : Held buffer shape)
    (hr : (buffer.length, buffer.length) ∉ shape.regions) (mv mv' : Bool) (types types' : List RosValueType)
    (hq : q.deref base = .ok x) :
    ∃ bound, ∀ fuel ≥ bound, ConvertsAlike base mv mv' types types' q fuel := by
  induction h generalizing q with
  | @scalar type o w hw =>
    have hrep : Represents buffer base low (.primitive type ⟨o, some buffer⟩) (.scalar type o w) := .scalar hw
    obtain ⟨object, hobject⟩ := castValue_of_held hq hrep hheld
    refine ⟨1, fun fuel hfuel => ?_⟩
    obtain ⟨k, rfl⟩ : ∃ k, fuel = k + 1 := ⟨fuel - 1, by omega⟩
    have hleaf := rosValueToPyData_of_leaf hq (isContainer_of_size hw)
    exact ⟨.cast object, .cast object, by rw [hleaf, hobject]; rfl, by rw [hleaf, hobject]; rfl, .cast object⟩
  | @string o n hn =>
    have hrep : Represents buffer base low _ (.string o n) := .string hn
    obtain ⟨object, hobject⟩ := castValue_of_held hq hrep hheld
    refine ⟨1, fun fuel hfuel => ?_⟩
    obtain ⟨k, rfl⟩ : ∃ k, fuel = k + 1 := ⟨fuel - 1, by omega⟩
    have hleaf := rosValueToPyData_of_leaf hq rfl
    exact ⟨.cast object, .cast object, by rw [hleaf, hobject]; rfl, by rw [hleaf, hobject]; rfl, .cast object⟩
  | @numbers type o n w hw =>
    have hrep : Represents buffer base low (.primitiveArray type o n buffer) (.numbers type o n w) := .numbers hw
    have hagrees := (hrep.blobAgrees_iff hheld rfl).2 hr
    obtain ⟨v, hholds⟩ := hheld
    cases hholds with
    | numbers width hxs occurs =>
      have ho := (Embag.blobAgrees_iff width hxs occurs).1 hagrees
      refine ⟨2, fun fuel hfuel => ?_⟩
      obtain ⟨k, rfl⟩ : ∃ k, fuel = k + 2 := ⟨fuel - 2, by omega⟩
      obtain ⟨d, hd, hnumbers⟩ := exists_isNumbers hq width hxs occurs ho mv k types
      obtain ⟨d', hd', hnumbers'⟩ := exists_isNumbers hq width hxs occurs ho mv' k types'
      exact ⟨d, d', hd, hd', .numbers hnumbers hnumbers'⟩
  | @array c ss xs above slots children ih =>
    obtain ⟨bound, hbound⟩ := exists_bound (Set.finite_lt_nat ss.length) fun i hi => ih i hi
      (hheld.child (i := i) (List.getElem?_eq_getElem hi))
      (notMem_regions_child (i := i) hheld hr (List.getElem?_eq_getElem hi)) (deref_slot (slots i hi))
    refine ⟨bound + 1, fun fuel hfuel => ?_⟩
    obtain ⟨k, rfl⟩ : ∃ k, fuel = k + 1 := ⟨fuel - 1, by omega⟩
    exact .array hq (hbound k (by omega))
  | @object c d ss xs above length slots children ih =>
    obtain ⟨bound, hbound⟩ := exists_bound (Set.finite_lt_nat ss.length) fun i hi => ih i hi
      (hheld.child (i := i) (List.getElem?_eq_getElem hi))
      (notMem_regions_child (i := i) hheld hr (List.getElem?_eq_getElem hi)) (deref_slot (slots i hi))
    refine ⟨bound + 1, fun fuel hfuel => ?_⟩
    obtain ⟨k, rfl⟩ : ∃ k, fuel = k + 1 := ⟨fuel - 1, by omega⟩
    rw [length] at hq hbound
    exact .object hq (hbound k (by omega))

theorem messageDict_of_object {c : RosValueList} {fieldIndexes : FieldIndexes}
    (h : base[0]? = some (.object c fieldIndexes)) (mv : Bool) (fuel : ℕ) (types : List RosValueType) :
    messageDict base mv fuel types = rosValueToPyData base mv (fuel + 1) types (.slot 0) := by
  rw [messageDict, rosValueToPyData, deref_slot h, ok_bind, ok_bind]
  rfl

end Dicts

/-- Every array of numbers of the message is its block of bytes, and `dict` gives the same data
for whichever element types it makes blocks of bytes of the arrays. -/
structure BlobsAgree (base : List RosValue) : Prop where
  arrays : ∀ v, InTree base v → v.getType = .primitiveArray → BlobAgrees base v
  dicts : ∀ (mv mv' : Bool) (types types' : List RosValueType), ∃ bound, ∀ fuel ≥ bound, ∃ d d',
    messageDict base mv fuel types = .ok d ∧ messageDict base mv' fuel types' = .ok d' ∧ d.Same d'

section Messages

variable {m : MsgDef} {buffer : Bytes} {base : List RosValue} {x : RosValue} {shape : Shape}

theorem blobsAgree_iff_notMem (hrep : Represents buffer base 1 x shape) (hx : base[0]? = some x)
    (hheld : Held buffer shape) {c : RosValueList} {fieldIndexes : FieldIndexes}
    (hobject : x = .object c fieldIndexes) :
    BlobsAgree base ↔ (buffer.length, buffer.length) ∉ shape.regions := by
  constructor
  · intro h
    exact (forall_blobAgrees_iff hrep hx hheld).1 h.arrays
  · intro hr
    refine ⟨(forall_blobAgrees_iff hrep hx hheld).2 hr, fun mv mv' types types' => ?_⟩
    obtain ⟨bound, hbound⟩ := hrep.convertsAlike hheld hr mv mv' types types' (deref_slot hx)
    refine ⟨bound, fun fuel hfuel => ?_⟩
    subst hobject
    obtain ⟨d, d', hd, hd', hsame⟩ := hbound (fuel + 1) (by omega)
    refine ⟨d, d', ?_, ?_, hsame⟩
    · rw [messageDict_of_object hx, hd]
    · rw [messageDict_of_object hx, hd']

theorem exists_object_of_shapeObject {d : BaseMsgDef} {fuel q q' : ℕ}
    (h : shapeObject m buffer fuel d q = .ok (shape, q')) : ∃ ss, shape = .object d ss := by
  cases fuel with
  | zero => cases h
  | succ fuel =>
    rw [shapeObject_succ] at h
    rcases hss : shapeFields m buffer fuel d.fields q with e | ⟨ss, q₁⟩
    · rw [hss] at h
      cases h
    · rw [hss] at h
      cases h
      exact ⟨ss, rfl⟩

/-- A message has an array of numbers at the end of the buffer if it ends there, in the length 0
of that array. -/
theorem mem_regions_message {vs : List Value} (hmsg : IsMessage m m.toBaseMsgDef vs) {fuel q q' : ℕ}
    (hfuel : depthList vs < fuel) (hocc : OccursAt (encodeList vs) buffer q)
    (hshape : shapeObject m buffer fuel m.toBaseMsgDef q = .ok (shape, q')) :
    (buffer.length, buffer.length) ∈ shape.regions ↔
      buffer.length = q + (encodeList vs).length ∧ MessageEndsInEmptyArray m vs := by
  obtain ⟨fuel, rfl⟩ : ∃ k, fuel = k + 1 := ⟨fuel - 1, by omega⟩
  have hdepth : ∀ v ∈ vs, v.depth ≤ fuel :=
    fun v hv => (Value.depth_le_of_mem hv).trans (by omega)
  rw [shapeObject_succ] at hshape
  rcases hss : shapeFields m buffer fuel m.fields q with e | ⟨ss, q₁⟩
  · rw [hss] at hshape
    cases hshape
  rw [hss] at hshape
  cases hshape
  exact (marks_shapes hmsg.length.symm
    (fun i hi hv => marks_field (hmsg.fields i hi hv) (hdepth vs[i] (List.getElem_mem hv))) hss hocc).2

/-- The blocks of bytes of a message are its arrays, unless the message ends in an empty array and
the buffer with it. -/
theorem blobsDenote_iff {info : MsgDefInfo} {name : Bytes} {m : MsgDef}
    (hm : MsgDef.ofInfo info name = .ok m) (vs : List Value)
    (hmsg : IsMessage m m.toBaseMsgDef vs) (pre suf : Bytes) :
    ∃ bound, ∀ fuel ≥ bound, ∃ s,
      MessageParser.parse ⟨pre ++ encodeList vs ++ suf, m⟩ pre.length fuel = .ok s ∧
      (BlobsAgree s.rosValues ↔ suf ≠ [] ∨ ¬ MessageEndsInEmptyArray m vs) := by
  refine ⟨depthList vs + 1, fun fuel hfuel => ?_⟩
  have hocc := occursAt_of_append pre (encodeList vs) suf
  obtain ⟨shape, hshape, hholds⟩ := shapeObject_finds (D := fun _ => True)
    (fun _ _ _ => trivial) trivial hmsg hfuel pre.length hocc
  have hfollows := MessageParser.parse_follows (p := ⟨pre ++ encodeList vs ++ suf, m⟩)
    (MsgDef.builtFrom_of_ofInfo hm).resolved pre.length fuel
  rw [hshape] at hfollows
  obtain ⟨s, hs, -, x, hx, hrep⟩ := hfollows.exists_ok
  have hmem := mem_regions_message hmsg hfuel hocc hshape
  have hend : (pre ++ encodeList vs ++ suf).length = pre.length + (encodeList vs).length ↔ suf = [] := by
    rw [List.length_append, List.length_append, Nat.add_eq_left, List.length_eq_zero_iff]
  have hobject : ∃ c fieldIndexes, x = .object c fieldIndexes := by
    obtain ⟨ss, rfl⟩ := exists_object_of_shapeObject hshape
    cases hrep
    exact ⟨_, _, rfl⟩
  obtain ⟨c, fieldIndexes, hobject⟩ := hobject
  refine ⟨s, hs, ?_⟩
  rw [blobsAgree_iff_notMem hrep hx ⟨_, hholds⟩ hobject, hmem, hend, not_and_or]

/-- The empty array of `data` has `next` behind it. -/
theorem blobsDenote_iff_sampleValues : ∃ bound, ∀ fuel ≥ bound, ∃ s,
    MessageParser.parse ⟨[9] ++ encodeList sampleValues ++ [], sampleData⟩ 1 fuel = .ok s ∧
    (BlobsAgree s.rosValues ↔ ([] : Bytes) ≠ [] ∨ ¬ MessageEndsInEmptyArray sampleData sampleValues) :=
  blobsDenote_iff ofInfo_sampleDataInfo sampleValues isMessage_sampleValues [9] []

def sampleBlobInfo : MsgDefInfo where
  members := [.field ⟨bytes "uint8", -1, bytes "data"⟩]
  embeddedDefinitions := []

def sampleBlob : MsgDef where
  name := bytes "pkg/Blob"
  members := [.field { parsedInfo := ⟨bytes "uint8", -1, bytes "data"⟩ }]
  embeddedDefinitionMap := ∅

def sampleBlobValues : List Value := [.array true []]

theorem isMessage_sampleBlobValues : IsMessage sampleBlob sampleBlob.toBaseMsgDef sampleBlobValues := by
  refine ⟨rfl, fun i hf hv => ?_⟩
  match i, hv with
  | 0, _ => exact .dynamicArray rfl (by decide) fun v hv => absurd hv List.not_mem_nil

/-- The parser takes the message with an empty `data` and nothing behind it; the block of bytes of
`data` is refused by `at` of the buffer, and with it the dictionary. -/
theorem not_blobsAgree_sampleBlob :
    MsgDef.ofInfo sampleBlobInfo (bytes "pkg/Blob") = .ok sampleBlob ∧
    IsMessage sampleBlob sampleBlob.toBaseMsgDef sampleBlobValues ∧
    ∃ s v, (∀ fuel, MessageParser.parse ⟨[9] ++ encodeList sampleBlobValues, sampleBlob⟩ 1 (fuel + 1) = .ok s) ∧
      InTree s.rosValues v ∧ v.getType = .primitiveArray ∧ v.size = .ok 0 ∧
      (∃ what, v.getPrimitiveArrayRosValueBuffer s.rosValues = .error (.outOfRange what)) ∧
      (∀ fuel, ∃ d, messageDict s.rosValues false (fuel + 2) [] = .ok d) ∧
      (∀ fuel, ∃ what, messageDict s.rosValues false (fuel + 2) defaultArrayBlobTypes = .error (.outOfRange what)) ∧
      ¬ BlobsAgree s.rosValues := by
  have harray : InTree [.object ⟨1, 1⟩ sampleBlob.fieldIndexes, .primitiveArray .uint8 5 0 [9, 0, 0, 0, 0]]
      (.primitiveArray .uint8 5 0 [9, 0, 0, 0, 0]) :=
    .child (q := .slot 1) (.root rfl) rfl (show 0 < 1 by decide) rfl rfl
  refine ⟨rfl, isMessage_sampleBlobValues,
    ⟨[.object ⟨1, 1⟩ sampleBlob.fieldIndexes, .primitiveArray .uint8 5 0 [9, 0, 0, 0, 0]], 2, 5⟩,
    .primitiveArray .uint8 5 0 [9, 0, 0, 0, 0], fun _ => rfl, harray, rfl, rfl, ⟨_, rfl⟩,
    fun _ => ⟨_, rfl⟩, fun _ => ⟨_, rfl⟩, fun h => ?_⟩
  obtain ⟨_, _, -, -, -, -, -, _, _, _, hbuffer, -⟩ := (h.arrays _ harray rfl).exists_elements
  cases hbuffer

end Messages

end Embag
