import Embag.Library.Logs
import Embag.MessageFollows

/-! The decoder once more, with a log of what it does to its vector: every `at`, every
read of the message buffer, and the counter beside the vector's size whenever one of
`initObject`, `initArray` and `initPrimitive` is entered or returns. The log changes
nothing of what the decoder computes (`result_loggedParse`). -/

namespace Embag

open Log LittleEndian

/-- A call of one of the three functions; the last two with the cursor they find. -/
inductive InitCall where
  | object (slot : ℕ) (definition : BaseMsgDef)
  | array (slot : ℕ) (field : FieldDef) (cursor : ℕ)
  | primitive (slot : ℕ) (field : FieldDef) (cursor : ℕ)

def InitCall.slot : InitCall → ℕ
  | object slot _ | array slot _ _ | primitive slot _ _ => slot

inductive ParserEvent where
  /-- `ros_values_->at(index)`, where `ros_values_->size()` is `size` -/
  | access (index size : ℕ)
  /-- `message_buffer_->at(position)` and the word read through its address -/
  | reads (position : ℕ)
  /-- A call begins, with `ros_values_offset_` and `ros_values_->size()`. -/
  | enters (call : InitCall) (offset size : ℕ)
  | returns (call : InitCall) (offset size : ℕ)

abbrev Logged (α : Type) : Type := Log ParserEvent Fault α

namespace ParserState

def access (s : ParserState) (index : ℕ) : Logged RosValue := do
  tell (.access index s.rosValues.length)
  silent (s.at? index)

def update (s : ParserState) (index : ℕ) (change : RosValue → Except Fault RosValue) :
    Logged ParserState := do
  tell (.access index s.rosValues.length)
  silent (s.modify index change)

end ParserState

namespace MessageParser

def logged (call : InitCall) (s : ParserState) (body : Logged ParserState) : Logged ParserState := do
  tell (.enters call s.rosValuesOffset s.rosValues.length)
  let s' ← body
  tell (.returns call s'.rosValuesOffset s'.rosValues.length)
  return s'

def loggedPrimitive (p : MessageParser) (primitiveOffset : ℕ) (field : FieldDef) (s : ParserState) :
    Logged ParserState :=
  logged (.primitive primitiveOffset field s.messageBufferOffset) s do
    let s ← s.update primitiveOffset (RosValue.setPrimitive ⟨s.messageBufferOffset, p.messageBuffer⟩)
    if field.type = .string then
      -- through the reference that the first `at` gave
      let primitive ← silent (s.at? primitiveOffset)
      tell (.reads s.messageBufferOffset)
      let length ← silent (primitive.getPrimitive 4)
      return { s with messageBufferOffset := s.messageBufferOffset + ofLE length + 4 }
    else
      let size ← silent field.typeSize
      return { s with messageBufferOffset := s.messageBufferOffset + size }

def loggedLength (p : MessageParser) (field : FieldDef) (s : ParserState) : Logged (ℕ × ParserState) :=
  if field.arraySize = -1 then do
    tell (.reads s.messageBufferOffset)
    silent (p.arrayLength field s)
  else
    silent (p.arrayLength field s)

def loggedArray (p : MessageParser) (initObject : ℕ → BaseMsgDef → ParserState → Logged ParserState)
    (arrayOffset : ℕ) (field : FieldDef) (s : ParserState) : Logged ParserState :=
  logged (.array arrayOffset field s.messageBufferOffset) s do
    let (length, s) ← p.loggedLength field s
    if field.type = .object ∨ field.type = .string then
      let childrenOffset := s.rosValuesOffset
      let s := { s with rosValuesOffset := s.rosValuesOffset + length }
      -- `children.length`, `.base` and `.offset` are assigned through an `at` each
      let _ ← s.access arrayOffset
      let _ ← s.access arrayOffset
      let s ← s.update arrayOffset (RosValue.setArrayChildren ⟨childrenOffset, length⟩)
      if field.type = .string then
        let element ← silent (RosValue.ofType field.type)
        let s := (List.range length).foldl (fun s _ => s.emplaceBack element) s
        (List.range length).foldlM (fun s i => p.loggedPrimitive (childrenOffset + i) field s) s
      else
        let objectDefinition ← silent (p.msgDef.typeDefinition field)
        let element := RosValue.ofFieldIndexes objectDefinition.fieldIndexes
        let s := (List.range length).foldl (fun s _ => s.emplaceBack element) s
        (List.range length).foldlM (fun s i => initObject (childrenOffset + i) objectDefinition s) s
    else
      -- `.length` and `.offset`
      let _ ← s.access arrayOffset
      let s ← s.update arrayOffset (RosValue.setPrimitiveArray s.messageBufferOffset length)
      let size ← silent field.typeSize
      return { s with messageBufferOffset := s.messageBufferOffset + length * size }

def loggedChild (p : MessageParser) (initObject : ℕ → BaseMsgDef → ParserState → Logged ParserState)
    (childOffset : ℕ) (field : FieldDef) (s : ParserState) : Logged ParserState := do
  match (← s.access childOffset).getType with
  | .object => initObject childOffset (← silent (p.msgDef.typeDefinition field)) s
  | .array | .primitiveArray => p.loggedArray initObject childOffset field s
  | _ => p.loggedPrimitive childOffset field s

def loggedMember (p : MessageParser) (initObject : ℕ → BaseMsgDef → ParserState → Logged ParserState)
    (objectOffset childrenOffset : ℕ) (s : ParserState) (field : FieldDef) : Logged ParserState := do
  -- one `at` for `children.length++`
  let object ← s.access objectOffset
  let length ← silent object.objectLength
  let s ← silent (s.modify objectOffset RosValue.incrementLength)
  p.loggedChild initObject (childrenOffset + length) field s

def loggedObject (p : MessageParser) : ℕ → ℕ → BaseMsgDef → ParserState → Logged ParserState
  | 0, _, _, _ => silent (.error .outOfFuel)
  | fuel + 1, objectOffset, objectDefinition, s =>
    logged (.object objectOffset objectDefinition) s do
      let childrenOffset := s.rosValuesOffset
      -- `children.base`, `.offset` and `.length` are assigned through an `at` each
      let _ ← s.access objectOffset
      let _ ← s.access objectOffset
      let s ← s.update objectOffset (RosValue.setObjectChildren ⟨childrenOffset, 0⟩)
      let s ← silent (objectDefinition.fields.foldlM p.emplaceField s)
      objectDefinition.fields.foldlM (p.loggedMember (p.loggedObject fuel) objectOffset childrenOffset) s

def loggedParse (p : MessageParser) (offset fuel : ℕ) : Logged ParserState :=
  p.loggedObject fuel 0 p.msgDef.toBaseMsgDef
    { rosValues := [RosValue.ofFieldIndexes p.msgDef.fieldIndexes],
      rosValuesOffset := 1, messageBufferOffset := offset }

variable {p : MessageParser} {s : ParserState}

@[simp] theorem result_access (s : ParserState) (index : ℕ) : (s.access index).result = s.at? index := rfl

@[simp] theorem result_update (s : ParserState) (index : ℕ) (change : RosValue → Except Fault RosValue) :
    (s.update index change).result = s.modify index change := rfl

@[simp] theorem result_logged (call : InitCall) (s : ParserState) (body : Logged ParserState) :
    (logged call s body).result = body.result := by
  simp only [logged, result_bind, result_tell, result_pure, ok_bind]
  exact bind_pure body.result

theorem at?_bind_modify {α : Type} (s : ParserState) (index : ℕ) (change : RosValue → Except Fault RosValue)
    (f : ParserState → Except Fault α) :
    (s.at? index >>= fun _ => s.modify index change >>= f) = (s.modify index change >>= f) := by
  unfold ParserState.modify
  cases s.at? index <;> rfl

theorem result_loggedPrimitive (slot : ℕ) (f : FieldDef) (s : ParserState) :
    (p.loggedPrimitive slot f s).result = p.initPrimitive slot f s := by
  unfold loggedPrimitive initPrimitive
  simp only [result_logged, result_bind, result_update]
  congr 1
  funext s'
  split_ifs
  · simp only [result_bind, result_silent, result_tell, result_pure, ok_bind]
    rfl
  · rw [result_bind, result_silent]
    rfl

theorem result_loggedLength (f : FieldDef) (s : ParserState) :
    (p.loggedLength f s).result = p.arrayLength f s := by
  unfold loggedLength
  split_ifs <;> rfl

section Calls

variable {initObject : ℕ → BaseMsgDef → ParserState → Except Fault ParserState}
  {loggedObject : ℕ → BaseMsgDef → ParserState → Logged ParserState}

theorem result_loggedArray (h : ∀ slot d s, (loggedObject slot d s).result = initObject slot d s)
    (slot : ℕ) (f : FieldDef) (s : ParserState) :
    (p.loggedArray loggedObject slot f s).result = p.initArray initObject slot f s := by
  unfold loggedArray initArray
  simp only [result_logged, result_bind, result_loggedLength]
  congr 1
  funext ⟨length, s'⟩
  simp only
  split_ifs
  · simp only [result_bind, result_access, result_update, result_silent, result_foldlM,
      result_loggedPrimitive, at?_bind_modify]
  · simp only [result_bind, result_access, result_update, result_silent, result_foldlM, h, at?_bind_modify]
  · simp only [result_bind, result_access, result_update, result_silent, at?_bind_modify]
    rfl

theorem result_loggedChild (h : ∀ slot d s, (loggedObject slot d s).result = initObject slot d s)
    (slot : ℕ) (f : FieldDef) (s : ParserState) :
    (p.loggedChild loggedObject slot f s).result = p.initChild initObject slot f s := by
  unfold loggedChild initChild
  rw [result_bind, result_access]
  congr 1
  funext v
  cases v.getType with
  | object =>
    simp only [result_bind, result_silent, h]
  | array => exact result_loggedArray h slot f s
  | primitiveArray => exact result_loggedArray h slot f s
  | _ => exact result_loggedPrimitive slot f s

theorem result_loggedMember (h : ∀ slot d s, (loggedObject slot d s).result = initObject slot d s)
    (slot c : ℕ) (s : ParserState) (f : FieldDef) :
    (p.loggedMember loggedObject slot c s f).result = p.initMember initObject slot c s f := by
  unfold loggedMember initMember
  simp only [result_bind, result_access, result_silent, result_loggedChild h]

end Calls

theorem result_loggedObject (fuel slot : ℕ) (d : BaseMsgDef) (s : ParserState) :
    (p.loggedObject fuel slot d s).result = p.initObject fuel slot d s := by
  induction fuel generalizing slot d s with
  | zero => rfl
  | succ fuel ih =>
    rw [loggedObject, initObject]
    simp only [result_logged, result_bind, result_access, result_update, result_silent, result_foldlM,
      result_loggedMember ih, at?_bind_modify]

/-- The decoder computes what it does without the log. -/
theorem result_loggedParse (p : MessageParser) (offset fuel : ℕ) :
    (p.loggedParse offset fuel).result = p.parse offset fuel :=
  result_loggedObject fuel 0 _ _

end MessageParser

end Embag
