import Embag.RosMsgTypes

/-! The decoder: it lays the values of a message out in one vector, the children of
an object or of an array side by side, and moves a cursor through the message
buffer. `initObject` recurses through the schema, which may be cyclic, so the model
bounds the depth of that recursion by a number the caller chooses. -/

namespace Embag

/-- The members of `MessageParser` that parsing never changes. -/
structure MessageParser where
  messageBuffer : Bytes
  msgDef : MsgDef

structure ParserState where
  rosValues : List RosValue := []
  rosValuesOffset : ℕ := 0
  messageBufferOffset : ℕ
  deriving DecidableEq

namespace ParserState

/-- `ros_values_->at(index)`, to read it -/
def at? (s : ParserState) (index : ℕ) : Except Fault RosValue :=
  match s.rosValues[index]? with
  | some v => .ok v
  | none => .error (.outOfRange (bytes "vector::at"))

/-- `ros_values_->at(index)`, to change it with `change` -/
def modify (s : ParserState) (index : ℕ) (change : RosValue → Except Fault RosValue) :
    Except Fault ParserState := do
  let v ← change (← s.at? index)
  return { s with rosValues := s.rosValues.set index v }

def emplaceBack (s : ParserState) (v : RosValue) : ParserState :=
  { s with rosValues := s.rosValues ++ [v] }

end ParserState

namespace RosValue

def setObjectChildren (children : RosValueList) : RosValue → Except Fault RosValue
  | object _ fieldIndexes => .ok (.object children fieldIndexes)
  | _ => .error .undefined

def setArrayChildren (children : RosValueList) : RosValue → Except Fault RosValue
  | array _ => .ok (.array children)
  | _ => .error .undefined

def setPrimitiveArray (offset length : ℕ) : RosValue → Except Fault RosValue
  | primitiveArray elementType _ _ buffer => .ok (.primitiveArray elementType offset length buffer)
  | _ => .error .undefined

def setPrimitive (info : PrimitiveInfo) : RosValue → Except Fault RosValue
  | primitive type _ => .ok (.primitive type info)
  | _ => .error .undefined

def objectLength : RosValue → Except Fault ℕ
  | object children _ => .ok children.length
  | _ => .error .undefined

def incrementLength : RosValue → Except Fault RosValue
  | object children fieldIndexes =>
    .ok (.object { children with length := children.length + 1 } fieldIndexes)
  | _ => .error .undefined

end RosValue

namespace MessageParser

/-- The value `emplaceField` appends for a field. -/
def emplacedValue (p : MessageParser) (field : FieldDef) : Except Fault RosValue :=
  if field.arraySize = 0 then
    if field.type ≠ .object then RosValue.ofType field.type
    else do return RosValue.ofFieldIndexes (← p.msgDef.typeDefinition field).fieldIndexes
  else if field.type = .object ∨ field.type = .string then .ok RosValue.ofArray
  else .ok (RosValue.ofElementType field.type p.messageBuffer)

def emplaceField (p : MessageParser) (s : ParserState) (field : FieldDef) :
    Except Fault ParserState := do
  let s := s.emplaceBack (← p.emplacedValue field)
  return { s with rosValuesOffset := s.rosValuesOffset + 1 }

def initPrimitive (p : MessageParser) (primitiveOffset : ℕ) (field : FieldDef) (s : ParserState) :
    Except Fault ParserState := do
  let s ← s.modify primitiveOffset (RosValue.setPrimitive ⟨s.messageBufferOffset, p.messageBuffer⟩)
  if field.type = .string then
    let length ← (← s.at? primitiveOffset).getPrimitive 4
    return { s with messageBufferOffset := s.messageBufferOffset + LittleEndian.ofLE length + 4 }
  else
    return { s with messageBufferOffset := s.messageBufferOffset + (← field.typeSize) }

/-- The length of an array: read from the buffer when it is dynamic. -/
def arrayLength (p : MessageParser) (field : FieldDef) (s : ParserState) :
    Except Fault (ℕ × ParserState) :=
  if field.arraySize = -1 then do
    atIndex p.messageBuffer s.messageBufferOffset
    let length ← readWord 4 p.messageBuffer s.messageBufferOffset
    return (length, { s with messageBufferOffset := s.messageBufferOffset + 4 })
  else
    -- static_cast<uint32_t>
    return ((field.arraySize % 2 ^ 32).toNat, s)

/-- `initArray`, with `initObject` for the elements that are objects -/
def initArray (p : MessageParser)
    (initObject : ℕ → BaseMsgDef → ParserState → Except Fault ParserState)
    (arrayOffset : ℕ) (field : FieldDef) (s : ParserState) : Except Fault ParserState := do
  let (length, s) ← p.arrayLength field s
  if field.type = .object ∨ field.type = .string then
    let childrenOffset := s.rosValuesOffset
    let s := { s with rosValuesOffset := s.rosValuesOffset + length }
    let s ← s.modify arrayOffset (RosValue.setArrayChildren ⟨childrenOffset, length⟩)
    if field.type = .string then
      let element ← RosValue.ofType field.type
      let s := (List.range length).foldl (fun s _ => s.emplaceBack element) s
      (List.range length).foldlM (fun s i => p.initPrimitive (childrenOffset + i) field s) s
    else
      let objectDefinition ← p.msgDef.typeDefinition field
      let element := RosValue.ofFieldIndexes objectDefinition.fieldIndexes
      let s := (List.range length).foldl (fun s _ => s.emplaceBack element) s
      (List.range length).foldlM (fun s i => initObject (childrenOffset + i) objectDefinition s) s
  else
    let s ← s.modify arrayOffset (RosValue.setPrimitiveArray s.messageBufferOffset length)
    return { s with messageBufferOffset := s.messageBufferOffset + length * (← field.typeSize) }

/-- The `switch` of `initObject` on the tag of an emplaced child. -/
def initChild (p : MessageParser)
    (initObject : ℕ → BaseMsgDef → ParserState → Except Fault ParserState)
    (childOffset : ℕ) (field : FieldDef) (s : ParserState) : Except Fault ParserState := do
  match (← s.at? childOffset).getType with
  | .object => initObject childOffset (← p.msgDef.typeDefinition field) s
  | .array | .primitiveArray => p.initArray initObject childOffset field s
  | _ => p.initPrimitive childOffset field s

/-- The second loop of `initObject`: `children.length++`, then the child. -/
def initMember (p : MessageParser)
    (initObject : ℕ → BaseMsgDef → ParserState → Except Fault ParserState)
    (objectOffset childrenOffset : ℕ) (s : ParserState) (field : FieldDef) :
    Except Fault ParserState := do
  let length ← (← s.at? objectOffset).objectLength
  let s ← s.modify objectOffset RosValue.incrementLength
  p.initChild initObject (childrenOffset + length) field s

def initObject (p : MessageParser) :
    ℕ → ℕ → BaseMsgDef → ParserState → Except Fault ParserState
  | 0, _, _, _ => .error .outOfFuel
  | fuel + 1, objectOffset, objectDefinition, s => do
    let childrenOffset := s.rosValuesOffset
    let s ← s.modify objectOffset (RosValue.setObjectChildren ⟨childrenOffset, 0⟩)
    let s ← objectDefinition.fields.foldlM p.emplaceField s
    objectDefinition.fields.foldlM (p.initMember (p.initObject fuel) objectOffset childrenOffset) s

/-- `parse`, started at `offset`; the returned pointer is slot 0 of `rosValues`. -/
def parse (p : MessageParser) (offset fuel : ℕ) : Except Fault ParserState :=
  p.initObject fuel 0 p.msgDef.toBaseMsgDef
    { rosValues := [RosValue.ofFieldIndexes p.msgDef.fieldIndexes],
      rosValuesOffset := 1, messageBufferOffset := offset }

theorem emplacedValue_primitive {p : MessageParser} {f : FieldDef} (hsize : f.arraySize = 0)
    (htype : f.type.isContainer = false) :
    p.emplacedValue f = .ok (.primitive f.type {}) := by
  have hobj : f.type ≠ .object := by rintro h; rw [h] at htype; cases htype
  rw [emplacedValue, if_pos hsize, if_pos hobj, RosValue.ofType, RosValue.ofTypeAt, htype]
  rfl

theorem type_of_typeDefinition {m : MsgDef} {f : FieldDef} {d : BaseMsgDef}
    (hd : m.typeDefinition f = .ok d) : f.type = .object := by
  by_contra h
  rw [MsgDef.typeDefinition, if_pos h] at hd
  cases hd

theorem emplacedValue_object {p : MessageParser} {f : FieldDef} {d : BaseMsgDef}
    (hsize : f.arraySize = 0) (hd : p.msgDef.typeDefinition f = .ok d) :
    p.emplacedValue f = .ok (.object {} d.fieldIndexes) := by
  rw [emplacedValue, if_pos hsize, if_neg (not_not.2 (type_of_typeDefinition hd)), hd]
  rfl

theorem emplacedValue_array {p : MessageParser} {f : FieldDef} (hsize : f.arraySize ≠ 0)
    (htype : f.type = .object ∨ f.type = .string) : p.emplacedValue f = .ok (.array {}) := by
  rw [emplacedValue, if_neg hsize, if_pos htype]
  rfl

theorem emplacedValue_primitiveArray {p : MessageParser} {f : FieldDef} (hsize : f.arraySize ≠ 0)
    (htype : ¬ (f.type = .object ∨ f.type = .string)) :
    p.emplacedValue f = .ok (.primitiveArray f.type 0 0 p.messageBuffer) := by
  rw [emplacedValue, if_neg hsize, if_neg htype]
  rfl

end MessageParser

end Embag
