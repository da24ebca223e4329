import Embag.MessageParser

/-! The other side of the decoder: message values, their ROS serialization and the
relation between a value, its type and the flat vector that represents it. -/

namespace Embag

open LittleEndian

/-- A message value. An array knows whether its length is written before it. -/
inductive Value where
  | scalar (s : Scalar)
  | string (s : Bytes)
  | array (dynamic : Bool) (elements : List Value)
  | object (names : List Bytes) (fields : List Value)

namespace TimeValue

def toBytes (t : TimeValue) : Bytes := le 4 t.secs.toNat ++ le 4 t.nsecs.toNat

theorem ofBytes_toBytes (t : TimeValue) : ofBytes t.toBytes = t := ofBytes_le t

end TimeValue

namespace Scalar

def type : Scalar → RosValueType
  | bool _ => .rosBool
  | int8 _ => .int8
  | uint8 _ => .uint8
  | int16 _ => .int16
  | uint16 _ => .uint16
  | int32 _ => .int32
  | uint32 _ => .uint32
  | int64 _ => .int64
  | uint64 _ => .uint64
  | float32 _ => .float32
  | float64 _ => .float64
  | time _ => .rosTime
  | duration _ => .rosDuration

def toBytes : Scalar → Bytes
  | bool b => le 1 b.toNat
  | int8 x => le 1 x.toBitVec.toNat
  | uint8 x => le 1 x.toNat
  | int16 x => le 2 x.toBitVec.toNat
  | uint16 x => le 2 x.toNat
  | int32 x => le 4 x.toBitVec.toNat
  | uint32 x => le 4 x.toNat
  | int64 x => le 8 x.toBitVec.toNat
  | uint64 x => le 8 x.toNat
  | float32 x => le 4 x.toNat
  | float64 x => le 8 x.toNat
  | time t => t.toBytes
  | duration d => d.toBytes

theorem primitiveTypeToSize_type (s : Scalar) :
    primitiveTypeToSize s.type = .ok s.toBytes.length := by
  cases s <;> simp [type, toBytes, primitiveTypeToSize, TimeValue.toBytes]

theorem isContainer_type (s : Scalar) : s.type.isContainer = false := by cases s <;> rfl

theorem type_ne_object (s : Scalar) : s.type ≠ .object := by cases s <;> exact nofun

theorem type_ne_string (s : Scalar) : s.type ≠ .string := by cases s <;> exact nofun

theorem ofBytes_toBytes (s : Scalar) : ofBytes s.type s.toBytes = some s := by
  cases s with
  | bool b => cases b <;> rfl
  | int8 x =>
    have h : x.toBitVec.toNat < 256 ^ 1 := x.toBitVec.isLt
    simp [type, toBytes, ofBytes, ofLE_le h, Int8.ofNat]
  | uint8 x =>
    have h : x.toNat < 256 ^ 1 := x.toNat_lt
    simp [type, toBytes, ofBytes, ofLE_le h]
  | int16 x =>
    have h : x.toBitVec.toNat < 256 ^ 2 := x.toBitVec.isLt
    simp [type, toBytes, ofBytes, ofLE_le h, Int16.ofNat]
  | uint16 x =>
    have h : x.toNat < 256 ^ 2 := x.toNat_lt
    simp [type, toBytes, ofBytes, ofLE_le h]
  | int32 x =>
    have h : x.toBitVec.toNat < 256 ^ 4 := x.toBitVec.isLt
    simp [type, toBytes, ofBytes, ofLE_le h, Int32.ofNat]
  | uint32 x | float32 x =>
    have h : x.toNat < 256 ^ 4 := x.toNat_lt
    simp [type, toBytes, ofBytes, ofLE_le h]
  | int64 x =>
    have h : x.toBitVec.toNat < 256 ^ 8 := x.toBitVec.isLt
    simp [type, toBytes, ofBytes, ofLE_le h, Int64.ofNat]
  | uint64 x | float64 x =>
    have h : x.toNat < 256 ^ 8 := x.toNat_lt
    simp [type, toBytes, ofBytes, ofLE_le h]
  | time t => exact congrArg (fun t => some (time t)) t.ofBytes_toBytes
  | duration d => exact congrArg (fun d => some (duration d)) d.ofBytes_toBytes

theorem toBytes_ne_nil (s : Scalar) : s.toBytes ≠ [] := by
  cases s with
  | time t | duration t => exact List.append_ne_nil_of_left_ne_nil (le_ne_nil (by norm_num) _) _
  | _ => exact le_ne_nil (by norm_num) _

end Scalar

mutual

def Value.encode : Value → Bytes
  | .scalar s => s.toBytes
  | .string s => le 4 s.length ++ s
  | .array dynamic elements =>
    (if dynamic then le 4 elements.length else []) ++ encodeList elements
  | .object _ fields => encodeList fields

def encodeList : List Value → Bytes
  | [] => []
  | v :: vs => v.encode ++ encodeList vs

end

mutual

/-- How deep objects are nested in a value. -/
def Value.depth : Value → ℕ
  | .scalar _ | .string _ => 0
  | .array _ elements => depthList elements
  | .object _ fields => depthList fields + 1

def depthList : List Value → ℕ
  | [] => 0
  | v :: vs => max v.depth (depthList vs)

end

theorem Value.depth_le_of_mem {v : Value} {vs : List Value} (h : v ∈ vs) :
    v.depth ≤ depthList vs := by
  induction vs with
  | nil => cases h
  | cons w vs ih =>
    rw [depthList]
    rcases List.mem_cons.1 h with rfl | h
    · exact le_max_left _ _
    · exact (ih h).trans (le_max_right _ _)

theorem encodeList_map_scalar (xs : List Scalar) :
    encodeList (xs.map .scalar) = xs.flatMap Scalar.toBytes := by
  induction xs with
  | nil => rfl
  | cons x xs ih => rw [List.map_cons, encodeList, ih, List.flatMap_cons, Value.encode]

/-- The values of a field: `T name`, `T[n] name` or `T[] name`. -/
inductive HasType (m : MsgDef) : FieldDef → Value → Prop
  | scalar {f : FieldDef} {s : Scalar} (size : f.arraySize = 0) (type : f.type = s.type) :
    HasType m f (.scalar s)
  | string {f : FieldDef} {s : Bytes} (size : f.arraySize = 0) (type : f.type = .string)
    (bound : s.length < 2 ^ 32) : HasType m f (.string s)
  | object {f : FieldDef} {d : BaseMsgDef} {vs : List Value} (size : f.arraySize = 0)
    (definition : m.typeDefinition f = .ok d) (length : vs.length = d.fields.length)
    (fields : ∀ i (hf : i < d.fields.length) (hv : i < vs.length), HasType m d.fields[i] vs[i]) :
    HasType m f (.object (d.fields.map FieldDef.name) vs)
  | fixedArray {f : FieldDef} {vs : List Value} (size : 1 ≤ f.arraySize)
    (bound : f.arraySize < 2 ^ 31) (length : (vs.length : ℤ) = f.arraySize)
    (elements : ∀ v ∈ vs, HasType m f.element v) : HasType m f (.array false vs)
  | dynamicArray {f : FieldDef} {vs : List Value} (size : f.arraySize = -1)
    (bound : vs.length < 2 ^ 32) (elements : ∀ v ∈ vs, HasType m f.element v) :
    HasType m f (.array true vs)

/-- A message of a definition: one value for each field that is no constant. -/
structure IsMessage (m : MsgDef) (d : BaseMsgDef) (vs : List Value) : Prop where
  length : vs.length = d.fields.length
  fields : ∀ i (hf : i < d.fields.length) (hv : i < vs.length), HasType m d.fields[i] vs[i]

/-- `x` represents a value: its bytes stand in the buffer, and its children, all of
them in slots from `low` on, represent the value's parts. -/
inductive Decodes (buffer : Bytes) (base : List RosValue) (low : ℕ) : RosValue → Value → Prop
  | scalar {s : Scalar} {o : ℕ} (occurs : OccursAt s.toBytes buffer o) :
    Decodes buffer base low (.primitive s.type ⟨o, some buffer⟩) (.scalar s)
  | string {s : Bytes} {o : ℕ} (bound : s.length < 2 ^ 32)
    (occurs : OccursAt (le 4 s.length ++ s) buffer o) :
    Decodes buffer base low (.primitive .string ⟨o, some buffer⟩) (.string s)
  | primitiveArray {type : RosValueType} {o : ℕ} {dynamic : Bool} {xs : List Scalar}
    (types : ∀ x ∈ xs, x.type = type) (occurs : OccursAt (xs.flatMap Scalar.toBytes) buffer o) :
    Decodes buffer base low (.primitiveArray type o xs.length buffer)
      (.array dynamic (xs.map .scalar))
  | array {c : ℕ} {dynamic : Bool} {vs : List Value} (xs : ℕ → RosValue) (above : low ≤ c)
    (slots : ∀ i < vs.length, base[c + i]? = some (xs i))
    (children : ∀ i (h : i < vs.length), Decodes buffer base low (xs i) vs[i]) :
    Decodes buffer base low (.array ⟨c, vs.length⟩) (.array dynamic vs)
  | object {c : ℕ} {names : List Bytes} {vs : List Value} {fieldIndexes : FieldIndexes}
    (xs : ℕ → RosValue) (above : low ≤ c) (length : vs.length = names.length)
    (index : ∀ i (h : i < names.length), fieldIndexes.lookup names[i] = some i)
    (slots : ∀ i < vs.length, base[c + i]? = some (xs i))
    (children : ∀ i (h : i < vs.length), Decodes buffer base low (xs i) vs[i]) :
    Decodes buffer base low (.object ⟨c, vs.length⟩ fieldIndexes) (.object names vs)

end Embag
