import Embag.RosValue

/-! The schema of a message: fields, constants and the definitions they embed. The
values a constructor only caches (`type_`, `field_indexes_`, `scope_`) are computed
from what it caches them from. A pointer to an embedded definition is its key in
`embedded_definition_map_`. -/

namespace Embag

def primitiveTypeMap : List (Bytes × RosValueType) := [
  (bytes "bool", .rosBool),
  (bytes "int8", .int8),
  (bytes "uint8", .uint8),
  (bytes "int16", .int16),
  (bytes "uint16", .uint16),
  (bytes "int32", .int32),
  (bytes "uint32", .uint32),
  (bytes "int64", .int64),
  (bytes "uint64", .uint64),
  (bytes "float32", .float32),
  (bytes "float64", .float64),
  (bytes "string", .string),
  (bytes "time", .rosTime),
  (bytes "duration", .rosDuration),
  -- Deprecated types
  (bytes "byte", .int8),
  (bytes "char", .uint8)]

/-- `FieldDef::parseable_info_t`; an array size of 0 is a scalar, -1 a dynamic array. -/
structure FieldInfo where
  typeName : Bytes
  arraySize : ℤ
  fieldName : Bytes
  deriving DecidableEq, Repr

structure ConstantDef where
  typeName : Bytes
  constantName : Bytes
  value : Bytes
  deriving DecidableEq, Repr

inductive MemberInfo where
  | field (info : FieldInfo)
  | constant (info : ConstantDef)
  deriving DecidableEq, Repr

structure FieldDef where
  parsedInfo : FieldInfo
  /-- `type_definition_`, null until `setTypeDefinition` -/
  typeDefinition : Option Bytes := none
  deriving DecidableEq, Repr

inductive MemberDef where
  | field (f : FieldDef)
  | constant (c : ConstantDef)
  deriving DecidableEq, Repr

structure BaseMsgDef where
  name : Bytes
  members : List MemberDef
  deriving DecidableEq, Repr

abbrev DefinitionMap := AList fun _ : Bytes => BaseMsgDef

structure MsgDef extends BaseMsgDef where
  embeddedDefinitionMap : DefinitionMap
  deriving DecidableEq

namespace FieldDef

def typeName (field : FieldDef) : Bytes := field.parsedInfo.typeName
def arraySize (field : FieldDef) : ℤ := field.parsedInfo.arraySize
def name (field : FieldDef) : Bytes := field.parsedInfo.fieldName

def type (field : FieldDef) : RosValueType :=
  (primitiveTypeMap.lookup field.typeName).getD .object

def typeSize (field : FieldDef) : Except Fault ℕ :=
  if field.type = .object ∨ field.type = .string then
    .error (.runtimeError (bytes "The size of an object or string is not statically known!"))
  else primitiveTypeToSize field.type

/-- The pointer `setTypeDefinition` leaves in a field: the scoped name wins. -/
def foundDefinition (definitionMap : DefinitionMap) (scope : Bytes) (field : FieldDef) :
    Option Bytes :=
  let exact := if field.typeName ∈ definitionMap then some field.typeName else field.typeDefinition
  -- ROS allows a type to lack its scope when referenced
  let scopedName := scope ++ bytes "/" ++ field.typeName
  if scopedName ∈ definitionMap then some scopedName else exact

def setTypeDefinition (definitionMap : DefinitionMap) (scope : Bytes) (field : FieldDef) :
    Except Fault FieldDef :=
  if field.type ≠ .object then
    .error (.runtimeError (bytes "Cannnot set the typeDefinition for non-object types"))
  else
    match field.foundDefinition definitionMap scope with
    | some key => .ok { field with typeDefinition := some key }
    | none => .error (.runtimeError
        (bytes "Unable to find embedded type: " ++ field.typeName ++ bytes " in scope " ++ scope))

theorem type_eq_object_or (field : FieldDef) :
    field.type = .object ∨ field.type.isContainer = false := by
  have hmap : ∀ e ∈ primitiveTypeMap, e.2.isContainer = false := by decide
  cases h : primitiveTypeMap.lookup field.typeName with
  | none => exact Or.inl (by rw [type, h, Option.getD_none])
  | some t =>
    obtain ⟨l₁, l₂, hl, -⟩ := List.lookup_eq_some_iff.1 h
    refine Or.inr ?_
    rw [type, h, Option.getD_some]
    exact hmap (field.typeName, t) (by rw [hl]; simp)

theorem lookup_isSome_iff (field : FieldDef) :
    (primitiveTypeMap.lookup field.typeName).isSome ↔ field.type ≠ .object := by
  have hmap : ∀ e ∈ primitiveTypeMap, e.2 ≠ .object := by decide
  cases h : primitiveTypeMap.lookup field.typeName with
  | none => simp [type, h]
  | some t =>
    obtain ⟨l₁, l₂, hl, -⟩ := List.lookup_eq_some_iff.1 h
    rw [type, h, Option.getD_some]
    exact iff_of_true rfl (hmap (field.typeName, t) (by rw [hl]; simp))

end FieldDef

/-- `unordered_map::emplace`: a key that is present keeps its value. -/
def emplace {V : Type} (map : AList fun _ : Bytes => V) (key : Bytes) (value : V) :
    AList fun _ : Bytes => V :=
  if key ∈ map then map else map.insert key value

namespace MemberDef

/-- A member as `BaseMsgDef::BaseMsgDef` stores it. -/
def ofInfo : MemberInfo → MemberDef
  | .field info => field { parsedInfo := info }
  | .constant info => constant info

/-- What `initializeFieldTypeDefinitions` does with one member. -/
def initializeType (definitionMap : DefinitionMap) (scope : Bytes) : MemberDef → Except Fault MemberDef
  | field f =>
    if f.type = .object then (f.setTypeDefinition definitionMap scope).map field
    else .ok (field f)
  | constant c => .ok (constant c)

/-- `boost::get<FieldDef>` of a member with `which() == 0` -/
def field? : MemberDef → Option FieldDef
  | field f => some f
  | constant _ => none

end MemberDef

namespace BaseMsgDef

/-- `BaseMsgDef::BaseMsgDef` -/
def ofInfo (members : List MemberInfo) (name : Bytes) : BaseMsgDef :=
  ⟨name, members.map .ofInfo⟩

/-- The members that are no constants, in definition order. -/
def fields (d : BaseMsgDef) : List FieldDef := d.members.filterMap MemberDef.field?

/-- `field_indexes_`: each field name with the number of fields before it. -/
def fieldIndexes (d : BaseMsgDef) : FieldIndexes :=
  (d.fields.zipIdx).foldl (fun map entry => emplace map entry.1.name entry.2) ∅

/-- `scope_`: the part of the name before its first slash -/
def scope (d : BaseMsgDef) : Bytes :=
  if '/'.toUInt8 ∈ d.name then d.name.takeWhile (· != '/'.toUInt8) else []

def initializeFieldTypeDefinitions (definitionMap : DefinitionMap) (d : BaseMsgDef) :
    Except Fault BaseMsgDef := do
  let members ← d.members.mapM (MemberDef.initializeType definitionMap d.scope)
  return { d with members := members }

end BaseMsgDef

/-- `EmbeddedMsgDef::parseable_info_t` -/
structure EmbeddedInfo where
  typeName : Bytes
  members : List MemberInfo
  deriving DecidableEq, Repr

/-- `MsgDef::parseable_info_t` -/
structure MsgDefInfo where
  members : List MemberInfo
  embeddedDefinitions : List EmbeddedInfo
  deriving DecidableEq, Repr

namespace MsgDef

/-- `embedded_definition_map_` before its fields are resolved -/
def embeddedDefinitions (info : MsgDefInfo) : DefinitionMap :=
  info.embeddedDefinitions.foldl
    (fun map e => emplace map e.typeName (.ofInfo e.members e.typeName)) ∅

/-- `MsgDef::MsgDef` -/
def ofInfo (info : MsgDefInfo) (name : Bytes) : Except Fault MsgDef := do
  let definitionMap := embeddedDefinitions info
  let base ← (BaseMsgDef.ofInfo info.members name).initializeFieldTypeDefinitions definitionMap
  let initialized ← definitionMap.entries.foldlM
    (fun map e => do return map.insert e.1 (← e.2.initializeFieldTypeDefinitions definitionMap))
    (∅ : DefinitionMap)
  return { base with embeddedDefinitionMap := initialized }

/-- `FieldDef::typeDefinition`, the object a field's pointer leads to -/
def typeDefinition (m : MsgDef) (field : FieldDef) : Except Fault BaseMsgDef :=
  if field.type ≠ .object then
    .error (.runtimeError (bytes "Non object types do not have a typeDefinition"))
  else
    match field.typeDefinition.bind m.embeddedDefinitionMap.lookup with
    | some d => .ok d
    | none => .error .undefined

/-- Every field of an object type, in the definition and in those it embeds, points
to an embedded definition. -/
def Resolved (m : MsgDef) : Prop :=
  ∀ d, (d = m.toBaseMsgDef ∨ ∃ key, m.embeddedDefinitionMap.lookup key = some d) →
    ∀ f ∈ d.fields, f.type = .object → ∃ e, m.typeDefinition f = .ok e

def DistinctFields (m : MsgDef) : Prop :=
  ∀ d, (d = m.toBaseMsgDef ∨ ∃ key, m.embeddedDefinitionMap.lookup key = some d) →
    (d.fields.map FieldDef.name).Nodup

end MsgDef

/-- The field whose value is one element of an array field. -/
def FieldDef.element (f : FieldDef) : FieldDef :=
  { f with parsedInfo := { f.parsedInfo with arraySize := 0 } }

@[simp] theorem FieldDef.arraySize_element (f : FieldDef) : f.element.arraySize = 0 := rfl

@[simp] theorem FieldDef.type_element (f : FieldDef) : f.element.type = f.type := rfl

@[simp] theorem MsgDef.typeDefinition_element (m : MsgDef) (f : FieldDef) :
    m.typeDefinition f.element = m.typeDefinition f := rfl

section Emplace

variable {V : Type} {map : AList fun _ : Bytes => V} {key k : Bytes} {value : V}

theorem lookup_emplace_self (h : key ∉ map) : (emplace map key value).lookup key = some value := by
  rw [emplace, if_neg h, AList.lookup_insert]

theorem lookup_emplace_ne (h : k ≠ key) : (emplace map key value).lookup k = map.lookup k := by
  unfold emplace
  split_ifs
  · rfl
  · exact AList.lookup_insert_ne h

theorem mem_emplace : k ∈ emplace map key value ↔ k = key ∨ k ∈ map := by
  unfold emplace
  split_ifs with h
  · exact ⟨Or.inr, fun hk => hk.elim (fun e => e ▸ h) id⟩
  · exact AList.mem_insert map

end Emplace

theorem lookup_emplace_zipIdx_of_notMem (fields : List FieldDef) (n : ℕ) (map : FieldIndexes)
    {key : Bytes} (hkey : key ∉ fields.map FieldDef.name) :
    ((fields.zipIdx n).foldl (fun map entry => emplace map entry.1.name entry.2) map).lookup key =
      map.lookup key := by
  induction fields generalizing n map with
  | nil => rfl
  | cons f fields ih =>
    rw [List.map_cons, List.mem_cons, not_or] at hkey
    rw [List.zipIdx_cons, List.foldl_cons, ih _ _ hkey.2, lookup_emplace_ne hkey.1]

theorem lookup_emplace_zipIdx (fields : List FieldDef) (n : ℕ) (map : FieldIndexes)
    (hnd : (fields.map FieldDef.name).Nodup) (hnew : ∀ f ∈ fields, f.name ∉ map) (i : ℕ)
    (hi : i < fields.length) :
    ((fields.zipIdx n).foldl (fun map entry => emplace map entry.1.name entry.2) map).lookup
      fields[i].name = some (n + i) := by
  induction fields generalizing n map i with
  | nil => simp at hi
  | cons f fields ih =>
    rw [List.map_cons, List.nodup_cons] at hnd
    rw [List.zipIdx_cons, List.foldl_cons]
    cases i with
    | zero =>
      rw [List.getElem_cons_zero, lookup_emplace_zipIdx_of_notMem _ _ _ hnd.1,
        lookup_emplace_self (hnew f List.mem_cons_self), Nat.add_zero]
    | succ i =>
      have hstep : ∀ g ∈ fields, g.name ∉ emplace map f.name n := by
        intro g hg hmem
        rcases mem_emplace.1 hmem with he | hm
        · exact hnd.1 (he ▸ List.mem_map_of_mem hg)
        · exact hnew g (List.mem_cons_of_mem _ hg) hm
      rw [List.getElem_cons_succ, ih (n + 1) _ hnd.2 hstep i (by simpa using hi)]
      congr 1
      omega

/-- A field's name leads to its position among the fields, constants not counted. -/
theorem BaseMsgDef.lookup_fieldIndexes {d : BaseMsgDef} (hnd : (d.fields.map FieldDef.name).Nodup)
    {i : ℕ} (hi : i < d.fields.length) : d.fieldIndexes.lookup d.fields[i].name = some i := by
  have h := lookup_emplace_zipIdx d.fields 0 ∅ hnd (fun _ _ => AList.notMem_empty _) i hi
  rw [Nat.zero_add] at h
  exact h

end Embag
