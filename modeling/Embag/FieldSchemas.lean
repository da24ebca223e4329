import Embag.MessageIndices
import Embag.SchemaBuilder
import Embag.ShapeFields

/-! The dictionary of a field and the value that the parser leaves for the field. The one describes
the other whatever the field is. -/

namespace Embag

open LittleEndian Outcomes SchemaBuilder

namespace PySchema

def IsObject (s : PySchema) : Prop :=
  s.item (bytes "type") = some (.str (bytes "object")) ∧
    ∃ children, s.item (bytes "children") = some (.dict children)

def IsObjectArray (s : PySchema) : Prop :=
  s.item (bytes "type") = some (.str (bytes "array")) ∧
    ∃ children, s.item (bytes "children") = some (.dict children)

/-- 'array' with a member_type that maps to this type -/
def IsArrayOf (s : PySchema) (type : RosValueType) : Prop :=
  s.item (bytes "type") = some (.str (bytes "array")) ∧ s.item (bytes "children") = none ∧
    ∃ name, s.item (bytes "member_type") = some (.str name) ∧ primitiveTypeMap.lookup name = some type

def IsPlain (s : PySchema) (type : RosValueType) : Prop :=
  s.item (bytes "children") = none ∧ s.item (bytes "member_type") = none ∧
    ∃ name, s.item (bytes "type") = some (.str name) ∧ primitiveTypeMap.lookup name = some type

end PySchema

/-- The value is an array whose elements have this type, as the field says of an array that has none. -/
def IsArrayValue (base : List RosValue) (f : FieldDef) (w : RosValue) (type : RosValueType) : Prop :=
  w.getType = .array ∧ f.type = type ∧
    ∀ n i q x, w.size = .ok n → i < n → w.at i = .ok q → q.deref base = .ok x → x.getType = type

structure FieldAgrees (base : List RosValue) (f : FieldDef) (s : PySchema) (w : RosValue) : Prop where
  object : s.IsObject ↔ w.getType = .object
  objects : s.IsObjectArray ↔ IsArrayValue base f w .object
  members : ∀ type, s.IsArrayOf type ↔ (type = .string ∧ IsArrayValue base f w .string) ∨
    ∃ offset length buffer, w = .primitiveArray type offset length buffer
  plain : ∀ type, s.IsPlain type ↔ w.getType = type ∧ type.isContainer = false

section Forms

variable {f : FieldDef} {type : RosValueType} {children : List (Bytes × PySchema)}

/-- The dictionary of a field of a primitive type. -/
def plainForm (name : Bytes) : PySchema := .dict [(bytes "type", .str name)]

def memberForm (name : Bytes) : PySchema :=
  .dict [(bytes "member_type", .str name), (bytes "type", .str (bytes "array"))]

def objectForm (children : List (Bytes × PySchema)) : PySchema :=
  .dict [(bytes "type", .str (bytes "object")), (bytes "children", .dict children)]

def arrayForm (children : List (Bytes × PySchema)) : PySchema :=
  .dict [(bytes "children", .dict children), (bytes "type", .str (bytes "array"))]

theorem plainForm_is (name : Bytes) :
    ¬ (plainForm name).IsObject ∧ ¬ (plainForm name).IsObjectArray ∧
      (∀ type, ¬ (plainForm name).IsArrayOf type) ∧
      ∀ type, (plainForm name).IsPlain type ↔ primitiveTypeMap.lookup name = some type := by
  have htype : (plainForm name).item (bytes "type") = some (.str name) := rfl
  have hchildren : (plainForm name).item (bytes "children") = none := rfl
  have hmember : (plainForm name).item (bytes "member_type") = none := rfl
  simp [PySchema.IsObject, PySchema.IsObjectArray, PySchema.IsArrayOf, PySchema.IsPlain, htype, hchildren, hmember]

theorem memberForm_is (name : Bytes) :
    ¬ (memberForm name).IsObject ∧ ¬ (memberForm name).IsObjectArray ∧
      (∀ type, (memberForm name).IsArrayOf type ↔ primitiveTypeMap.lookup name = some type) ∧
      ∀ type, ¬ (memberForm name).IsPlain type := by
  have htype : (memberForm name).item (bytes "type") = some (.str (bytes "array")) := rfl
  have hchildren : (memberForm name).item (bytes "children") = none := rfl
  have hmember : (memberForm name).item (bytes "member_type") = some (.str name) := rfl
  simp [PySchema.IsObject, PySchema.IsObjectArray, PySchema.IsArrayOf, PySchema.IsPlain, htype, hchildren, hmember]

theorem objectForm_is (children : List (Bytes × PySchema)) :
    (objectForm children).IsObject ∧ ¬ (objectForm children).IsObjectArray ∧
      (∀ type, ¬ (objectForm children).IsArrayOf type) ∧ ∀ type, ¬ (objectForm children).IsPlain type := by
  have htype : (objectForm children).item (bytes "type") = some (.str (bytes "object")) := rfl
  have hchildren : (objectForm children).item (bytes "children") = some (.dict children) := rfl
  have hne : bytes "object" ≠ bytes "array" := by decide
  simp [PySchema.IsObject, PySchema.IsObjectArray, PySchema.IsArrayOf, PySchema.IsPlain, htype, hchildren, hne]

theorem arrayForm_is (children : List (Bytes × PySchema)) :
    ¬ (arrayForm children).IsObject ∧ (arrayForm children).IsObjectArray ∧
      (∀ type, ¬ (arrayForm children).IsArrayOf type) ∧ ∀ type, ¬ (arrayForm children).IsPlain type := by
  have htype : (arrayForm children).item (bytes "type") = some (.str (bytes "array")) := rfl
  have hchildren : (arrayForm children).item (bytes "children") = some (.dict children) := rfl
  have hne : bytes "array" ≠ bytes "object" := by decide
  simp [PySchema.IsObject, PySchema.IsObjectArray, PySchema.IsArrayOf, PySchema.IsPlain, htype, hchildren, hne]

end Forms

section Fields

variable {m : MsgDef} {buffer : Bytes} {base : List RosValue} {low fuel : ℕ} {f : FieldDef} {s : PySchema}
  {w : RosValue} {shape : Shape}

theorem not_isArrayValue {type : RosValueType} (h : w.getType ≠ .array) : ¬ IsArrayValue base f w type :=
  fun harray => h harray.1

theorem isArrayValue_array {c n : ℕ} {type : RosValueType} (htype : f.type = type)
    (helements : ∀ i < n, ∃ x, base[c + i]? = some x ∧ x.getType = type) :
    IsArrayValue base f (.array ⟨c, n⟩) type := by
  refine ⟨rfl, htype, fun n i q x hn hi hq hx => ?_⟩
  cases hn
  rw [RosValue.at, RosValueList.at_of_lt hi] at hq
  cases hq
  obtain ⟨x', hx', htype'⟩ := helements i hi
  rw [deref_slot hx'] at hx
  cases hx
  exact htype'

theorem fieldAgrees_plain {info : PrimitiveInfo} (htype : f.type.isContainer = false) :
    FieldAgrees base f (plainForm f.typeName) (.primitive f.type info) := by
  have hobj : f.type ≠ .object := by
    intro h
    rw [h] at htype
    cases htype
  have harray : f.type ≠ .array := by
    intro h
    rw [h] at htype
    cases htype
  have hnot : ∀ type, ¬ IsArrayValue base f (.primitive f.type info) type := fun _ => not_isArrayValue harray
  obtain ⟨hobject, hobjects, hmembers, hplain⟩ := plainForm_is f.typeName
  refine ⟨iff_of_false hobject hobj, iff_of_false hobjects (hnot _), fun type => ?_, fun type => ?_⟩
  · apply iff_of_false (hmembers type)
    rintro (⟨-, h⟩ | ⟨offset, length, buffer, h⟩)
    · exact hnot _ h
    · cases h
  · rw [hplain, lookup_of_type_ne hobj, Option.some.injEq, RosValue.getType_primitive]
    constructor
    · rintro rfl
      exact ⟨rfl, htype⟩
    · exact And.left

theorem fieldAgrees_strings {c n : ℕ} (htype : f.type = .string)
    (helements : ∀ i < n, ∃ x, base[c + i]? = some x ∧ x.getType = .string) :
    FieldAgrees base f (memberForm f.typeName) (.array ⟨c, n⟩) := by
  have hobj : f.type ≠ .object := by
    rw [htype]
    decide
  obtain ⟨hobject, hobjects, hmembers, hplain⟩ := memberForm_is f.typeName
  refine ⟨iff_of_false hobject (by simp), ?_, fun type => ?_, fun type => ?_⟩
  · apply iff_of_false hobjects
    rintro ⟨-, h, -⟩
    exact hobj h
  · rw [hmembers, lookup_of_type_ne hobj, htype, Option.some.injEq]
    constructor
    · rintro rfl
      exact .inl ⟨rfl, isArrayValue_array htype helements⟩
    · rintro (⟨rfl, -⟩ | ⟨offset, length, buffer, h⟩)
      · rfl
      · cases h
  · apply iff_of_false (hplain type)
    rintro ⟨rfl, h⟩
    cases h

theorem fieldAgrees_numbers {o n : ℕ} (htype : f.type.isContainer = false) :
    FieldAgrees base f (memberForm f.typeName) (.primitiveArray f.type o n buffer) := by
  have hobj : f.type ≠ .object := by
    intro h
    rw [h] at htype
    cases htype
  have hnot : ∀ type, ¬ IsArrayValue base f (.primitiveArray f.type o n buffer) type :=
    fun _ => not_isArrayValue (by simp)
  obtain ⟨hobject, hobjects, hmembers, hplain⟩ := memberForm_is f.typeName
  refine ⟨iff_of_false hobject (by simp), iff_of_false hobjects (hnot _), fun type => ?_, fun type => ?_⟩
  · rw [hmembers, lookup_of_type_ne hobj, Option.some.injEq]
    constructor
    · rintro rfl
      exact .inr ⟨o, n, buffer, rfl⟩
    · rintro (⟨-, h⟩ | ⟨offset, length, buffer, h⟩)
      · exact absurd h (hnot _)
      · cases h
        rfl
  · apply iff_of_false (hplain type)
    rintro ⟨rfl, h⟩
    cases h

theorem fieldAgrees_object {c : RosValueList} {fieldIndexes : FieldIndexes} (children : List (Bytes × PySchema)) :
    FieldAgrees base f (objectForm children) (.object c fieldIndexes) := by
  have hnot : ∀ type, ¬ IsArrayValue base f (.object c fieldIndexes) type := fun _ => not_isArrayValue (by simp)
  obtain ⟨hobject, hobjects, hmembers, hplain⟩ := objectForm_is children
  refine ⟨iff_of_true hobject rfl, iff_of_false hobjects (hnot _), fun type => ?_, fun type => ?_⟩
  · apply iff_of_false (hmembers type)
    rintro (⟨-, h⟩ | ⟨offset, length, buffer, h⟩)
    · exact hnot _ h
    · cases h
  · apply iff_of_false (hplain type)
    rintro ⟨rfl, h⟩
    cases h

theorem fieldAgrees_objects {c n : ℕ} (children : List (Bytes × PySchema)) (htype : f.type = .object)
    (helements : ∀ i < n, ∃ x, base[c + i]? = some x ∧ x.getType = .object) :
    FieldAgrees base f (arrayForm children) (.array ⟨c, n⟩) := by
  obtain ⟨hobject, hobjects, hmembers, hplain⟩ := arrayForm_is children
  refine ⟨iff_of_false hobject (by simp), iff_of_true hobjects (isArrayValue_array htype helements),
    fun type => ?_, fun type => ?_⟩
  · apply iff_of_false (hmembers type)
    rintro (⟨-, -, h, -⟩ | ⟨offset, length, buffer, h⟩)
    · rw [htype] at h
      cases h
    · cases h
  · apply iff_of_false (hplain type)
    rintro ⟨rfl, h⟩
    cases h

theorem schemaForField_eq_ok (h : schemaForField m fuel f = .ok s) : ∃ k, fuel = k + 1 := by
  cases fuel with
  | zero => cases h
  | succ k => exact ⟨k, rfl⟩

theorem exists_typeDefinition (hobj : f.type = .object) (h : schemaForField m fuel f = .ok s) :
    ∃ d, m.typeDefinition f = .ok d := by
  obtain ⟨fuel, rfl⟩ := schemaForField_eq_ok h
  have hprimitive : ¬ (primitiveTypeMap.lookup f.typeName).isSome :=
    fun hsome => f.lookup_isSome_iff.1 hsome hobj
  cases hd : m.typeDefinition f with
  | ok d => exact ⟨d, rfl⟩
  | error e =>
    rw [schemaForField, if_neg hprimitive, if_neg hprimitive, hd] at h
    split_ifs at h
    · cases h
    · cases h

theorem HasShape.getType_element (h : HasShape m f.element shape) (hrep : Represents buffer base low w shape)
    (htype : f.type = .object ∨ f.type = .string) : w.getType = f.type := by
  cases h with
  | scalar size width =>
    rw [FieldDef.type_element] at width
    rcases htype with htype | htype
    · rw [htype] at width
      cases width
    · rw [htype] at width
      cases width
  | string size type =>
    cases hrep with
    | string => exact type.symm
  | object size definition =>
    cases hrep with
    | object => exact (MessageParser.type_of_typeDefinition definition).symm
  | array size => exact absurd f.arraySize_element size
  | numbers size => exact absurd f.arraySize_element size

/-- The dictionary of a field describes whatever value the parser leaves for the field. -/
theorem HasShape.fieldAgrees (h : HasShape m f shape) (hrep : Represents buffer base low w shape)
    (hs : schemaForField m fuel f = .ok s) : FieldAgrees base f s w := by
  obtain ⟨fuel, rfl⟩ := schemaForField_eq_ok hs
  cases h with
  | scalar size width =>
    cases hrep with
    | scalar =>
      have hcontainer := isContainer_of_size width
      rw [schemaForField_primitive size (by rintro h; rw [h] at width; cases width)] at hs
      cases hs
      exact fieldAgrees_plain hcontainer
  | string size type =>
    cases hrep with
    | string =>
      rw [schemaForField_primitive size (by rw [type]; decide)] at hs
      cases hs
      rw [← type]
      exact fieldAgrees_plain (by rw [type]; rfl)
  | object size definition =>
    cases hrep with
    | object =>
      rw [schemaForField_object size definition, map_eq_ok] at hs
      obtain ⟨children, -, rfl⟩ := hs
      exact fieldAgrees_object children
  | numbers size width =>
    cases hrep with
    | numbers =>
      rw [schemaForField_primitives size (by rintro h; rw [h] at width; cases width)] at hs
      cases hs
      exact fieldAgrees_numbers (isContainer_of_size width)
  | @array _ ss size type elements =>
    cases hrep with
    | @array c _ xs above slots children =>
      have helements : ∀ i < ss.length, ∃ x, base[c + i]? = some x ∧ x.getType = f.type :=
        fun i hi => ⟨xs i, slots i hi, (elements i hi).getType_element (children i hi) type⟩
      by_cases hobj : f.type = .object
      · obtain ⟨d, hd⟩ := exists_typeDefinition hobj hs
        rw [schemaForField_objects size hd, map_eq_ok] at hs
        obtain ⟨items, -, rfl⟩ := hs
        rw [hobj] at helements
        exact fieldAgrees_objects items hobj helements
      · have hstr := type.resolve_left hobj
        rw [schemaForField_primitives size hobj] at hs
        cases hs
        rw [hstr] at helements
        exact fieldAgrees_strings hstr helements

end Fields

end Embag
