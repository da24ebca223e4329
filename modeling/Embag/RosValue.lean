import Mathlib.Data.List.AList
import Embag.Fault

/-! `RosValue`, its accessors and the flat vector its children live in. A shared
pointer to the message buffer is the buffer itself; every `base` pointer leads to
the one vector of the parser, which the accessors take as an argument. -/

namespace Embag

open LittleEndian

inductive RosValueType where
  | rosBool | int8 | uint8 | int16 | uint16 | int32 | uint32 | int64 | uint64
  | float32 | float64 | string | rosTime | rosDuration
  | object | array | primitiveArray
  deriving DecidableEq, Repr

def primitiveTypeToSize : RosValueType → Except Fault ℕ
  | .rosBool | .int8 | .uint8 => .ok 1
  | .int16 | .uint16 => .ok 2
  | .int32 | .uint32 | .float32 => .ok 4
  | .int64 | .uint64 | .float64 | .rosTime | .rosDuration => .ok 8
  | .string | .object | .array | .primitiveArray =>
    .error (.runtimeError (bytes "Provided type is a string or a non-primitive!"))

/-- `TimeValue`: the two words of `ros_time_t` and of `ros_duration_t`. -/
structure TimeValue where
  secs : UInt32 := 0
  nsecs : UInt32 := 0
  deriving DecidableEq, Repr

/-- What `as<T>` returns, one constructor for each type `T` with its own
`RosValueType`. Floating point numbers are kept as their bit patterns. -/
inductive Scalar where
  | bool (b : Bool)
  | int8 (x : Int8)
  | uint8 (x : UInt8)
  | int16 (x : Int16)
  | uint16 (x : UInt16)
  | int32 (x : Int32)
  | uint32 (x : UInt32)
  | int64 (x : Int64)
  | uint64 (x : UInt64)
  | float32 (bits : UInt32)
  | float64 (bits : UInt64)
  | time (t : TimeValue)
  | duration (d : TimeValue)
  deriving DecidableEq, Repr

/-- A `TimeValue` as it lies in memory: `secs`, then `nsecs`. -/
def TimeValue.ofBytes (bs : Bytes) : TimeValue :=
  ⟨UInt32.ofNat (ofLE (bs.take 4)), UInt32.ofNat (ofLE (bs.drop 4))⟩

theorem TimeValue.ofBytes_le (t : TimeValue) :
    TimeValue.ofBytes (le 4 t.secs.toNat ++ le 4 t.nsecs.toNat) = t := by
  have hs : t.secs.toNat < 256 ^ 4 := t.secs.toNat_lt
  have hn : t.nsecs.toNat < 256 ^ 4 := t.nsecs.toNat_lt
  have ht : (le 4 t.secs.toNat ++ le 4 t.nsecs.toNat).take 4 = le 4 t.secs.toNat :=
    List.take_left' (length_le 4 _)
  have hd : (le 4 t.secs.toNat ++ le 4 t.nsecs.toNat).drop 4 = le 4 t.nsecs.toNat :=
    List.drop_left' (length_le 4 _)
  rw [ofBytes, ht, hd, ofLE_le hs, ofLE_le hn, UInt32.ofNat_toNat, UInt32.ofNat_toNat]

/-- The object of type `T` a block of `sizeof(T)` bytes represents. -/
def Scalar.ofBytes (type : RosValueType) (bs : Bytes) : Option Scalar :=
  match type with
  | .rosBool => some (.bool (ofLE bs != 0))
  | .int8 => some (.int8 (Int8.ofNat (ofLE bs)))
  | .uint8 => some (.uint8 (UInt8.ofNat (ofLE bs)))
  | .int16 => some (.int16 (Int16.ofNat (ofLE bs)))
  | .uint16 => some (.uint16 (UInt16.ofNat (ofLE bs)))
  | .int32 => some (.int32 (Int32.ofNat (ofLE bs)))
  | .uint32 => some (.uint32 (UInt32.ofNat (ofLE bs)))
  | .int64 => some (.int64 (Int64.ofNat (ofLE bs)))
  | .uint64 => some (.uint64 (UInt64.ofNat (ofLE bs)))
  | .float32 => some (.float32 (UInt32.ofNat (ofLE bs)))
  | .float64 => some (.float64 (UInt64.ofNat (ofLE bs)))
  | .rosTime => some (.time (TimeValue.ofBytes bs))
  | .rosDuration => some (.duration (TimeValue.ofBytes bs))
  | .string | .object | .array | .primitiveArray => none

/-- `std::unordered_map<std::string, size_t>` from field name to child index -/
abbrev FieldIndexes := AList fun _ : Bytes => ℕ

/-- `RosValue::primitive_info_t`; the buffer pointer is null until the value is initialised. -/
structure PrimitiveInfo where
  offset : ℕ := 0
  messageBuffer : Option Bytes := none
  deriving DecidableEq

/-- `RosValue::ros_value_list_t`, without its `base` -/
structure RosValueList where
  offset : ℕ := 0
  length : ℕ := 0
  deriving DecidableEq, Repr

/-- A `RosValue` with the union member its tag selects. -/
inductive RosValue where
  | primitive (type : RosValueType) (info : PrimitiveInfo)
  | object (children : RosValueList) (fieldIndexes : FieldIndexes)
  | array (children : RosValueList)
  | primitiveArray (elementType : RosValueType) (offset length : ℕ) (messageBuffer : Bytes)
  deriving DecidableEq

/-- `RosValue::Pointer`: a value of its own, or a slot of the vector. -/
inductive Pointer where
  | value (v : RosValue)
  | slot (index : ℕ)

namespace RosValueType

/-- The tags of the three constructors' own representations, which the constructors
for primitive values reject. -/
def isContainer : RosValueType → Bool
  | object | array | primitiveArray => true
  | _ => false

end RosValueType

theorem isContainer_of_size {type : RosValueType} {w : ℕ} (h : primitiveTypeToSize type = .ok w) :
    type.isContainer = false := by
  cases type <;> first | rfl | cases h

/-- Of the types stored in a value of their own, only strings have no size. -/
theorem exists_primitiveTypeToSize {type : RosValueType} (h : type.isContainer = false)
    (hstr : type ≠ .string) : ∃ w, primitiveTypeToSize type = .ok w := by
  cases type <;> first | exact ⟨_, rfl⟩ | exact absurd rfl hstr | cases h

namespace RosValue

/-- `RosValue(const Type type, message_buffer, offset)` -/
def ofTypeAt (type : RosValueType) (messageBuffer : Option Bytes) (offset : ℕ) :
    Except Fault RosValue :=
  if type.isContainer then
    .error (.runtimeError (bytes "Cannot create an object or array with this constructor"))
  else .ok (.primitive type ⟨offset, messageBuffer⟩)

/-- `RosValue(const Type type)` -/
def ofType (type : RosValueType) : Except Fault RosValue := ofTypeAt type none 0

/-- `RosValue(field_indexes)` -/
def ofFieldIndexes (fieldIndexes : FieldIndexes) : RosValue := .object {} fieldIndexes

/-- `RosValue(_array_identifier)` -/
def ofArray : RosValue := .array {}

/-- `RosValue(element_type, message_buffer)` -/
def ofElementType (elementType : RosValueType) (messageBuffer : Bytes) : RosValue :=
  .primitiveArray elementType 0 0 messageBuffer

def getType : RosValue → RosValueType
  | primitive type _ => type
  | object _ _ => .object
  | array _ => .array
  | primitiveArray _ _ _ _ => .primitiveArray

end RosValue

def RosValueList.at (list : RosValueList) (index : ℕ) : Except Fault Pointer :=
  if index ≥ list.length then
    .error (.outOfRange (bytes "Provided index is out of range!"))
  else .ok (.slot (list.offset + index))

def Pointer.deref (base : List RosValue) : Pointer → Except Fault RosValue
  | value v => .ok v
  | slot index =>
    match base[index]? with
    | some v => .ok v
    | none => .error (.outOfRange (bytes "vector::at"))

namespace RosValue

/-- `getPrimitive<T>` followed by a read of `width` bytes. The member read is
`primitive_info_`, which only a primitive value has. -/
def getPrimitive (width : ℕ) : RosValue → Except Fault Bytes
  | primitive _ ⟨offset, some buffer⟩ => do
    atIndex buffer offset
    readRaw buffer offset width
  | _ => .error .undefined

/-- `as<T>`, for the `T` whose own type is `type` -/
def as (type : RosValueType) (v : RosValue) : Except Fault Scalar :=
  if v.getType = .object ∨ v.getType = .array then
    .error (.runtimeError (bytes "Value cannot be an object or array for as"))
  else do
    let width ← primitiveTypeToSize type
    let bs ← v.getPrimitive width
    match Scalar.ofBytes type bs with
    | some x => .ok x
    | none => .error .undefined

def asString (v : RosValue) : Except Fault Bytes :=
  if v.getType ≠ .string then
    .error (.runtimeError (bytes "Cannot call as<std::string> for a non string"))
  else
    match v with
    | primitive _ ⟨offset, some buffer⟩ => do
      atIndex buffer offset
      let stringLength ← readWord 4 buffer offset
      readRaw buffer (offset + 4) stringLength
    | _ => .error .undefined

end RosValue

def RosValue.at (v : RosValue) (idx : ℕ) : Except Fault Pointer :=
  match v with
  | object children _ => children.at idx
  | array children => children.at idx
  | primitiveArray elementType offset _ messageBuffer => do
    let width ← primitiveTypeToSize elementType
    return .value (← RosValue.ofTypeAt elementType (some messageBuffer) (offset + idx * width))
  | primitive _ _ => .error (.runtimeError (bytes "Value is not an array or object"))

namespace RosValue

def subscript (v : RosValue) (idx : ℕ) : Except Fault Pointer := v.at idx

def get (v : RosValue) (key : Bytes) : Except Fault Pointer :=
  match v with
  | object _ fieldIndexes =>
    match fieldIndexes.lookup key with
    | some idx => v.at idx
    | none => .error (.outOfRange (bytes "unordered_map::at"))
  | _ => .error (.runtimeError (bytes "Value is not an object"))

def size : RosValue → Except Fault ℕ
  | object children _ => .ok children.length
  | array children => .ok children.length
  | primitiveArray _ _ length _ => .ok length
  | primitive _ _ => .error (.runtimeError (bytes "Value is not an array or an object"))

/-- The address `getPrimitive<T>` refers to: a buffer and a position in it. -/
def primitiveAddress : RosValue → Except Fault (Bytes × ℕ)
  | primitive _ ⟨offset, some buffer⟩ => do
    atIndex buffer offset
    return (buffer, offset)
  | _ => .error .undefined

def getPrimitiveArrayRosValueBuffer (base : List RosValue) (v : RosValue) :
    Except Fault (Bytes × ℕ) :=
  if v.getType ≠ .primitiveArray then
    .error (.runtimeError (bytes "Cannot access the buffer of a non primitive_array RosValue"))
  else do
    (← (← v.at 0).deref base).primitiveAddress

def getPrimitiveArrayRosValueBufferSize : RosValue → Except Fault ℕ
  | primitiveArray elementType _ length _ => do return length * (← primitiveTypeToSize elementType)
  | _ => .error (.runtimeError
      (bytes "Cannot access the buffer of a non primitive_array RosValue"))

/-- The bytes between the address and the size of a primitive array, copied out. -/
def primitiveArrayBytes (base : List RosValue) (v : RosValue) : Except Fault Bytes := do
  let (buffer, offset) ← v.getPrimitiveArrayRosValueBuffer base
  readRaw buffer offset (← v.getPrimitiveArrayRosValueBufferSize)

@[simp] theorem getType_primitive (type : RosValueType) (info : PrimitiveInfo) :
    (primitive type info).getType = type := rfl

@[simp] theorem getType_object (children : RosValueList) (fieldIndexes : FieldIndexes) :
    (object children fieldIndexes).getType = .object := rfl

@[simp] theorem getType_array (children : RosValueList) : (array children).getType = .array := rfl

@[simp] theorem getType_primitiveArray (type : RosValueType) (offset length : ℕ) (buffer : Bytes) :
    (primitiveArray type offset length buffer).getType = .primitiveArray := rfl

end RosValue

theorem RosValueList.at_of_lt {list : RosValueList} {index : ℕ} (h : index < list.length) :
    list.at index = .ok (.slot (list.offset + index)) := if_neg (by omega)

end Embag
