import Embag.Library.Loops
import Embag.PyAdapters

/-! The values of a message as a list of pointers, and as the lists, dictionaries and blocks of
bytes that Python's `dict` makes of them. -/

namespace Embag

open LittleEndian Loops

def primitiveTypeToFormat : RosValueType → Except Fault Bytes
  | .rosBool => .ok (bytes "?")
  | .int8 => .ok (bytes "b")
  | .uint8 => .ok (bytes "B")
  | .int16 => .ok (bytes "h")
  | .uint16 => .ok (bytes "H")
  | .int32 => .ok (bytes "i")
  | .uint32 => .ok (bytes "I")
  | .int64 => .ok (bytes "q")
  | .uint64 => .ok (bytes "Q")
  | .float32 => .ok (bytes "f")
  | .float64 => .ok (bytes "d")
  | .rosTime | .rosDuration => .ok (bytes "II")
  | .string => .error (.runtimeError (bytes "Strings do not have a struct format!"))
  | .object | .array | .primitiveArray =>
    .error (.runtimeError (bytes "Provided type is not a primitive!"))

theorem exists_primitiveTypeToFormat {type : RosValueType} {w : ℕ} (h : primitiveTypeToSize type = .ok w) :
    ∃ format, primitiveTypeToFormat type = .ok format := by
  cases type <;> first | exact ⟨_, rfl⟩ | cases h

namespace RosValue

def getElementType (base : List RosValue) : RosValue → Except Fault RosValueType
  | primitiveArray elementType _ _ _ => .ok elementType
  | array children => do return (← (← children.at 0).deref base).getType
  | _ => .error (.runtimeError (bytes "Cannot get element type of a non-array RosValue"))

def getValues (v : RosValue) : Except Fault (List Pointer) :=
  if v.getType.isContainer then do
    let size ← v.size
    (List.range size).mapM v.at
  else .error (.runtimeError (bytes "Cannot getValues of a non object or array RosValue"))

/-- What a loop from `beginValues()` to `endValues()` comes to. -/
def iterateValues (v : RosValue) : Except Fault (List Pointer) :=
  if v.getType.isContainer then do
    let finish ← v.size
    forLoop (fun index values => do return values ++ [← v.at index]) 0 finish []
  else .error (.runtimeError
    (bytes "Cannot iterate the values of a non-object or non-array RosValue"))

def getObjects (v : RosValue) : Except Fault (List (Bytes × Pointer)) :=
  match v with
  | object _ fieldIndexes =>
    fieldIndexes.entries.mapM fun field => do return (field.1, ← v.at field.2)
  | _ => .error (.runtimeError (bytes "Cannot getObjects of a non-object RosValue"))

end RosValue

/-- What `dict` puts into its result. Field names are identifiers, so that they end in front of
a zero byte. -/
inductive PyData where
  | cast (o : PyObject)
  | bytes (data : Bytes)
  | memoryview (format : Bytes) (itemsize : ℕ) (data : Bytes)
  | list (elements : List PyData)
  | dict (keys : List Bytes) (values : List PyData)

/-- By default, assume that uint8 arrays are to be treated as binary blobs -/
def defaultArrayBlobTypes : List RosValueType := [.uint8]

section Conversion

variable (base : List RosValue)

/-- `memoryview` of a value, through the function it gives the buffer protocol -/
def bufferInfo (v : RosValue) : Except Fault PyData := do
  let elementType ← v.getElementType base
  if elementType = .string then
    .error (.runtimeError (bytes "In order to be represented as a buffer, " ++
      bytes "an array's elements must not be strings!"))
  else
    let sizeOfElements ← primitiveTypeToSize elementType
    let (buffer, offset) ← v.getPrimitiveArrayRosValueBuffer base
    let format ← primitiveTypeToFormat elementType
    let data ← readRaw buffer offset ((← v.size) * sizeOfElements)
    return .memoryview format sizeOfElements data

def rosValueToList (element : Pointer → Except Fault PyData) (rosValue : Pointer) :
    Except Fault PyData := do
  let v ← rosValue.deref base
  if v.getType ≠ .array ∧ v.getType ≠ .primitiveArray then
    .error (.runtimeError (bytes "Provided RosValue is not an array"))
  else
    let values ← v.getValues
    return .list (← values.mapM element)

def primitiveArrayToPyObject (element : List RosValueType → Pointer → Except Fault PyData)
    (arrayBlobTypes : List RosValueType) (asMemoryview : Bool) (primitiveArray : Pointer) :
    Except Fault PyData := do
  let v ← primitiveArray.deref base
  let itemType ← v.getElementType base
  if itemType ∈ arrayBlobTypes then
    if asMemoryview then bufferInfo base v
    else return .bytes (← v.primitiveArrayBytes base)
  else rosValueToList base (element defaultArrayBlobTypes) primitiveArray

def rosValueToDict (element : Pointer → Except Fault PyData) (rosValue : Pointer) :
    Except Fault PyData := do
  let v ← rosValue.deref base
  if v.getType ≠ .object then
    .error (.runtimeError (bytes "Provided RosValue is not an object"))
  else
    let objects ← v.getObjects
    return .dict (objects.map Prod.fst) (← (objects.map Prod.snd).mapM element)

/-- The `switch` of `rosValueToDict` and of `rosValueToList`; `fuel` bounds how deep lists and
dictionaries are nested. -/
def rosValueToPyData (asMemoryview : Bool) :
    ℕ → List RosValueType → Pointer → Except Fault PyData
  | 0, _, _ => .error .outOfFuel
  | fuel + 1, arrayBlobTypes, value => do
    let v ← value.deref base
    match v.getType with
    | .object => rosValueToDict base (rosValueToPyData asMemoryview fuel arrayBlobTypes) value
    | .primitiveArray =>
      primitiveArrayToPyObject base (rosValueToPyData asMemoryview fuel) arrayBlobTypes asMemoryview value
    | .array => rosValueToList base (rosValueToPyData asMemoryview fuel arrayBlobTypes) value
    | _ => return .cast (← castValue base value)

/-- `dict` of a message with these values -/
def messageDict (asMemoryview : Bool) (fuel : ℕ) (arrayBlobTypes : List RosValueType) :
    Except Fault PyData := do
  let data ← (Pointer.slot 0).deref base
  if data.getType ≠ .object then .error (.runtimeError (bytes "Element is not an object"))
  else rosValueToDict base (rosValueToPyData base asMemoryview fuel arrayBlobTypes) (.slot 0)

end Conversion

end Embag
