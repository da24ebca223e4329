import Embag.Library.Logs
import Embag.PyDicts

/-! A `RosValue` as it lies in memory: its tag, and the member of its union that is
constructed at the moment. Every use of a member is logged beside the tag and the live
member, and is undefined where the member is not the live one. The other modules take
values whose tag names their live member (`RosValue`); here that is a property of cells,
and on cells that have it the accessors compute what they compute there. -/

namespace Embag

open Log LittleEndian

inductive MemberName where
  | primitiveInfo | primitiveArrayInfo | arrayInfo | objectInfo
  deriving DecidableEq

inductive UnionMember where
  | primitiveInfo (info : PrimitiveInfo)
  | primitiveArrayInfo (elementType : RosValueType) (offset length : ℕ) (messageBuffer : Bytes)
  | arrayInfo (children : RosValueList)
  | objectInfo (children : RosValueList) (fieldIndexes : FieldIndexes)

def UnionMember.name : UnionMember → MemberName
  | primitiveInfo _ => .primitiveInfo
  | primitiveArrayInfo _ _ _ _ => .primitiveArrayInfo
  | arrayInfo _ => .arrayInfo
  | objectInfo _ _ => .objectInfo

/-- The member that the tests of `type_` come to, which the copy constructor, the assignment and
`destroy_object_info` share. -/
def RosValueType.member : RosValueType → MemberName
  | object => .objectInfo
  | array => .arrayInfo
  | primitiveArray => .primitiveArrayInfo
  | _ => .primitiveInfo

structure Cell where
  type : RosValueType
  live : Option UnionMember

inductive MemberUse where
  | reads | assigns | destroys
  deriving DecidableEq

/-- A use of the member `name` of a value with the tag `type`, while `live` is constructed -/
structure MemberAccess where
  use : MemberUse
  name : MemberName
  type : RosValueType
  live : Option MemberName

/-- The member is the live one, and a read is of the member that the tag selects. -/
def MemberAccess.Right (access : MemberAccess) : Prop :=
  access.live = some access.name ∧ (access.use = .reads → access.name = access.type.member)

instance (access : MemberAccess) : Decidable access.Right := inferInstanceAs (Decidable (_ ∧ _))

abbrev Watched (α : Type) : Type := Log MemberAccess Fault α

namespace Cell

def touch (use : MemberUse) (name : MemberName) (cell : Cell) : Watched UnionMember := do
  tell ⟨use, name, cell.type, cell.live.map UnionMember.name⟩
  silent (match cell.live with
    | some member => if member.name = name then .ok member else .error .undefined
    | none => .error .undefined)

/-- `RosValue(const Type type, message_buffer, offset)`; `RosValue(const Type type)` has neither. -/
def ofType (type : RosValueType) (messageBuffer : Option Bytes) (offset : ℕ) : Watched Cell :=
  if type.isContainer then
    silent (.error (.runtimeError (bytes "Cannot create an object or array with this constructor")))
  else pure ⟨type, some (.primitiveInfo ⟨offset, messageBuffer⟩)⟩

def ofFieldIndexes (fieldIndexes : FieldIndexes) : Watched Cell := do
  let cell : Cell := ⟨.object, some (.objectInfo {} ∅)⟩
  let _ ← cell.touch .assigns .objectInfo
  return { cell with live := some (.objectInfo {} fieldIndexes) }

def ofArray : Cell := ⟨.array, some (.arrayInfo {})⟩

def ofElementType (elementType : RosValueType) (messageBuffer : Bytes) : Cell :=
  ⟨.primitiveArray, some (.primitiveArrayInfo elementType 0 0 messageBuffer)⟩

def copy (other : Cell) : Watched Cell := do
  let member ← other.touch .reads other.type.member
  return ⟨other.type, some member⟩

def destroyObjectInfo (cell : Cell) : Watched Unit := do
  let _ ← cell.touch .destroys cell.type.member

/-- `operator=`: where the tags differ, no member is constructed in the place of the one that is
destroyed. -/
def assign (cell other : Cell) : Watched Cell := do
  let cell ← (if cell.type ≠ other.type then do
      cell.destroyObjectInfo
      return { cell with live := none }
    else pure cell : Watched Cell)
  let cell := { cell with type := other.type }
  let member ← other.touch .reads cell.type.member
  let _ ← cell.touch .assigns cell.type.member
  return { cell with live := some member }

/-- The parser, a friend, assigns to the member that it has found by the tag. -/
def fill (cell : Cell) (member : UnionMember) : Watched Cell :=
  if member.name = cell.type.member then do
    let _ ← cell.touch .assigns member.name
    return { cell with live := some member }
  else pure cell

def readObject (cell : Cell) : Watched (RosValueList × FieldIndexes) := do
  match ← cell.touch .reads .objectInfo with
  | .objectInfo children fieldIndexes => return (children, fieldIndexes)
  | _ => silent (.error .undefined)

def readArray (cell : Cell) : Watched RosValueList := do
  match ← cell.touch .reads .arrayInfo with
  | .arrayInfo children => return children
  | _ => silent (.error .undefined)

/-- `element_type`, `offset`, `length` and `message_buffer` -/
def readPrimitiveArray (cell : Cell) : Watched (RosValueType × ℕ × ℕ × Bytes) := do
  match ← cell.touch .reads .primitiveArrayInfo with
  | .primitiveArrayInfo elementType offset length messageBuffer =>
    return (elementType, offset, length, messageBuffer)
  | _ => silent (.error .undefined)

def primitiveAddress (cell : Cell) : Watched (Bytes × ℕ) := do
  match ← cell.touch .reads .primitiveInfo with
  | .primitiveInfo ⟨offset, some buffer⟩ =>
    silent (atIndex buffer offset)
    return (buffer, offset)
  | _ => silent (.error .undefined)

def getPrimitive (width : ℕ) (cell : Cell) : Watched Bytes := do
  let (buffer, offset) ← cell.primitiveAddress
  silent (readRaw buffer offset width)

def getChildren (cell : Cell) : Watched RosValueList :=
  match cell.type with
  | .object => do return (← cell.readObject).1
  | .array => cell.readArray
  | _ => silent (.error (.runtimeError
      (bytes "Cannot getChildren of a RosValue that is not an object or array")))

/-- `as<T>`, for every `T` but strings: `width` is its size. -/
def as (width : ℕ) (cell : Cell) : Watched Bytes :=
  if cell.type = .object ∨ cell.type = .array then
    silent (.error (.runtimeError (bytes "Value cannot be an object or array for as")))
  else cell.getPrimitive width

def asString (cell : Cell) : Watched Bytes :=
  if cell.type ≠ .string then
    silent (.error (.runtimeError (bytes "Cannot call as<std::string> for a non string")))
  else do
    let stringLength ← cell.getPrimitive 4
    let (buffer, offset) ← cell.primitiveAddress
    silent (readRaw buffer (offset + 4) (ofLE stringLength))

def has (key : Bytes) (cell : Cell) : Watched Bool :=
  if cell.type ≠ .object then
    silent (.error (.runtimeError (bytes "Value is not an object")))
  else do
    let (_, fieldIndexes) ← cell.readObject
    return decide (key ∈ fieldIndexes)

def size (cell : Cell) : Watched ℕ :=
  if cell.type = .array ∨ cell.type = .object then do
    return (← cell.getChildren).length
  else if cell.type = .primitiveArray then do
    let (_, _, length, _) ← cell.readPrimitiveArray
    return length
  else
    silent (.error (.runtimeError (bytes "Value is not an array or an object")))

end Cell

/-- The `boost::variant` of a `RosValue::Pointer` -/
inductive PointerInfo where
  | rosValue (cell : Cell)
  | vectorBased (index : ℕ)

namespace PointerInfo

/-- `Pointer(type, message_buffer, offset)`: the variant copies a temporary value. -/
def ofType (type : RosValueType) (messageBuffer : Option Bytes) (offset : ℕ) : Watched PointerInfo := do
  let temporary ← Cell.ofType type messageBuffer offset
  let cell ← temporary.copy
  temporary.destroyObjectInfo
  return .rosValue cell

def copy : PointerInfo → Watched PointerInfo
  | rosValue cell => do return .rosValue (← cell.copy)
  | vectorBased index => pure (.vectorBased index)

def destroy : PointerInfo → Watched Unit
  | rosValue cell => cell.destroyObjectInfo
  | vectorBased _ => pure ()

/-- The variant assigns to a content of the type it holds, and replaces one of another. -/
def assign : PointerInfo → PointerInfo → Watched PointerInfo
  | rosValue cell, rosValue other => do return .rosValue (← cell.assign other)
  | info, other => do
    info.destroy
    other.copy

/-- `operator*`, where `values` is what `vector::at` finds -/
def deref (values : ℕ → Option Cell) : PointerInfo → Except Fault Cell
  | rosValue cell => .ok cell
  | vectorBased index =>
    match values index with
    | some cell => .ok cell
    | none => .error (.outOfRange (bytes "vector::at"))

/-- A pointer that is copied into a container. -/
def stored (pointer : Watched PointerInfo) : Watched PointerInfo := do
  let temporary ← pointer
  let info ← temporary.copy
  temporary.destroy
  return info

/-- A temporary pointer that lives while `use` does. -/
def during {α : Type} (pointer : Watched PointerInfo) (use : PointerInfo → Watched α) : Watched α := do
  let temporary ← pointer
  withCleanup Fault.thrown (use temporary) temporary.destroy

end PointerInfo

namespace Cell

def childAt (list : RosValueList) (index : ℕ) : Watched PointerInfo :=
  if index ≥ list.length then
    silent (.error (.outOfRange (bytes "Provided index is out of range!")))
  else pure (.vectorBased (list.offset + index))

end Cell

def Cell.at (idx : ℕ) (cell : Cell) : Watched PointerInfo :=
  match cell.type with
  | .object => do Cell.childAt (← cell.readObject).1 idx
  | .array => do Cell.childAt (← cell.readArray) idx
  | .primitiveArray => do
    let (elementType, offset, _, messageBuffer) ← cell.readPrimitiveArray
    let width ← silent (primitiveTypeToSize elementType)
    PointerInfo.ofType elementType (some messageBuffer) (offset + idx * width)
  | _ => silent (.error (.runtimeError (bytes "Value is not an array or object")))

namespace Cell

def get (key : Bytes) (cell : Cell) : Watched PointerInfo :=
  if cell.type ≠ .object then
    silent (.error (.runtimeError (bytes "Value is not an object")))
  else do
    let (_, fieldIndexes) ← cell.readObject
    match fieldIndexes.lookup key with
    | some idx => cell.at idx
    | none => silent (.error (.outOfRange (bytes "unordered_map::at")))

def getValues (cell : Cell) : Watched (List PointerInfo) :=
  if cell.type.isContainer then do
    let size ← cell.size
    (List.range size).mapM fun i => PointerInfo.stored (cell.at i)
  else
    silent (.error (.runtimeError (bytes "Cannot getValues of a non object or array RosValue")))

/-- `getObjects()`, the values only and in no particular order -/
def getObjects (cell : Cell) : Watched (List PointerInfo) :=
  if cell.type ≠ .object then
    silent (.error (.runtimeError (bytes "Cannot getObjects of a non-object RosValue")))
  else do
    let (_, fieldIndexes) ← cell.readObject
    fieldIndexes.entries.mapM fun field => PointerInfo.stored (cell.at field.2)

def getElementType (values : ℕ → Option Cell) (cell : Cell) : Watched RosValueType :=
  match cell.type with
  | .primitiveArray => do return (← cell.readPrimitiveArray).1
  | .array => PointerInfo.during (cell.at 0) fun info => silent ((info.deref values).map Cell.type)
  | _ => silent (.error (.runtimeError (bytes "Cannot get element type of a non-array RosValue")))

def getPrimitiveArrayRosValueBuffer (values : ℕ → Option Cell) (cell : Cell) : Watched (Bytes × ℕ) :=
  if cell.type ≠ .primitiveArray then
    silent (.error (.runtimeError (bytes "Cannot access the buffer of a non primitive_array RosValue")))
  else
    PointerInfo.during (cell.at 0) fun info => do
      let element ← silent (info.deref values)
      element.primitiveAddress

def getPrimitiveArrayRosValueBufferSize (values : ℕ → Option Cell) (cell : Cell) : Watched ℕ :=
  if cell.type ≠ .primitiveArray then
    silent (.error (.runtimeError (bytes "Cannot access the buffer of a non primitive_array RosValue")))
  else do
    let (_, _, length, _) ← cell.readPrimitiveArray
    let elementType ← cell.getElementType values
    return length * (← silent (primitiveTypeToSize elementType))

end Cell

def Cell.Sound (cell : Cell) : Prop := cell.live.map UnionMember.name = some cell.type.member

def PointerInfo.Sound : PointerInfo → Prop
  | rosValue cell => cell.Sound
  | vectorBased _ => True

section Safety

variable {α β : Type} {P : α → Prop} {Q : β → Prop}

/-- Every use of a member is right, and a result satisfies `post`. -/
def Safe (post : α → Prop) (x : Watched α) : Prop :=
  Ensures MemberAccess.Right (fun _ _ => True) (fun _ => post) x

theorem Safe.mono {P' : α → Prop} {x : Watched α} (h : Safe P x) (hP : ∀ a, P a → P' a) : Safe P' x :=
  Ensures.mono h fun _ => hP

theorem Safe.pure {a : α} (h : P a) : Safe P (pure a : Watched α) := Ensures.pure h

theorem Safe.bind {x : Watched α} {f : α → Watched β} (h : Safe P x) (hf : ∀ a, P a → Safe Q (f a)) :
    Safe Q (x >>= f) :=
  Ensures.bind (fun _ _ _ h => h) h fun _ => hf

theorem Safe.silent {x : Except Fault α} (h : ∀ a, x = .ok a → P a) : Safe P (Log.silent x : Watched α) :=
  ⟨nofun, h, fun _ _ => trivial⟩

theorem Safe.error {e : Fault} : Safe P (Log.silent (.error e) : Watched α) := Safe.silent nofun

theorem Safe.mapM {f : α → Watched β} {l : List α} (hf : ∀ a ∈ l, Safe Q (f a)) :
    Safe (fun bs => ∀ b ∈ bs, Q b) (l.mapM f) := by
  induction l with
  | nil => exact Safe.pure nofun
  | cons a l ih =>
    rw [List.forall_mem_cons] at hf
    rw [List.mapM_cons]
    apply hf.1.bind
    intro b hb
    apply (ih hf.2).bind
    intro bs hbs
    apply Safe.pure
    exact List.forall_mem_cons.2 ⟨hb, hbs⟩

theorem Safe.withCleanup {caught : Fault → Bool} {x : Watched α} {cleanup : Watched Unit} (h : Safe P x)
    (hcleanup : Safe (fun _ => True) cleanup) : Safe P (withCleanup caught x cleanup) := by
  have hgood : ∀ access ∈ x.events ++ cleanup.events, access.Right := by
    intro access haccess
    rcases List.mem_append.1 haccess with haccess | haccess
    · exact h.good access haccess
    · exact hcleanup.good access haccess
  unfold Log.withCleanup
  rcases hx : x.result with e | a
  · dsimp only
    split_ifs
    · refine ⟨hgood, fun a ha => ?_, fun _ _ => trivial⟩
      cases hresult : cleanup.result <;> simp [hresult] at ha
    · exact h
  · refine ⟨hgood, fun b hb => ?_, fun _ _ => trivial⟩
    obtain ⟨_, _, rfl⟩ := map_eq_ok.1 hb
    exact h.ok a hx

end Safety

namespace Cell

variable {cell other : Cell} {name : MemberName}

theorem Sound.touch (h : cell.Sound) (use : MemberUse) (hname : name = cell.type.member) :
    Safe (fun member => member.name = cell.type.member) (cell.touch use name) := by
  obtain ⟨member, hlive, hmember⟩ := Option.map_eq_some_iff.1 h
  refine ⟨fun access haccess => ?_, fun member' h' => ?_, fun _ _ => trivial⟩
  · obtain rfl := List.mem_singleton.1 haccess
    exact ⟨by rw [hname]; exact h, fun _ => hname⟩
  · simp only [Cell.touch, tell_bind, result_silent, hlive, hname, hmember, if_true] at h'
    cases h'
    exact hmember

theorem sound_of_name {type : RosValueType} {member : UnionMember} (h : member.name = type.member) :
    Sound ⟨type, some member⟩ := congrArg some h

theorem member_of_not_container {type : RosValueType} (h : type.isContainer = false) :
    type.member = .primitiveInfo := by
  cases type <;> first | rfl | cases h

/-! ### Operations on sound cells -/

theorem safe_ofType (type : RosValueType) (messageBuffer : Option Bytes) (offset : ℕ) :
    Safe (fun cell => cell.Sound ∧ cell.type.isContainer = false) (ofType type messageBuffer offset) := by
  unfold ofType
  split_ifs with h
  · exact Safe.error
  · have htype : type.isContainer = false := by simpa using h
    exact Safe.pure ⟨sound_of_name (member_of_not_container htype).symm, htype⟩

theorem safe_ofFieldIndexes (fieldIndexes : FieldIndexes) : Safe Sound (ofFieldIndexes fieldIndexes) := by
  have hcell : Sound ⟨.object, some (.objectInfo {} ∅)⟩ := rfl
  apply (hcell.touch .assigns rfl).bind
  intro _ _
  exact Safe.pure rfl

theorem Sound.copy (h : other.Sound) :
    Safe (fun cell => cell.Sound ∧ cell.type = other.type) other.copy := by
  apply (h.touch .reads rfl).bind
  intro member hmember
  exact Safe.pure ⟨sound_of_name hmember, rfl⟩

theorem Sound.destroyObjectInfo (h : cell.Sound) : Safe (fun _ => True) cell.destroyObjectInfo := by
  apply (h.touch .destroys rfl).bind
  intro _ _
  exact Safe.pure trivial

theorem Sound.assign (h : cell.Sound) (hother : other.Sound) (htype : cell.type = other.type) :
    Safe Sound (cell.assign other) := by
  unfold Cell.assign
  rw [if_neg (not_not.2 htype), pure_bind]
  have hcell : Sound { cell with type := other.type } := htype ▸ h
  apply (hother.touch .reads rfl).bind
  intro member hmember
  apply (hcell.touch .assigns rfl).bind
  intro _ _
  exact Safe.pure (sound_of_name hmember)

theorem Sound.fill (h : cell.Sound) (member : UnionMember) : Safe Sound (cell.fill member) := by
  unfold Cell.fill
  split_ifs with hname
  · apply (h.touch .assigns hname).bind
    intro _ _
    exact Safe.pure (sound_of_name hname)
  · exact Safe.pure h

theorem Sound.readObject (h : cell.Sound) (htype : cell.type = .object) : Safe (fun _ => True) cell.readObject := by
  apply (h.touch .reads (by rw [htype]; rfl)).bind
  intro member _
  cases member with
  | objectInfo => exact Safe.pure trivial
  | _ => exact Safe.error

theorem Sound.readArray (h : cell.Sound) (htype : cell.type = .array) : Safe (fun _ => True) cell.readArray := by
  apply (h.touch .reads (by rw [htype]; rfl)).bind
  intro member _
  cases member with
  | arrayInfo => exact Safe.pure trivial
  | _ => exact Safe.error

theorem Sound.readPrimitiveArray (h : cell.Sound) (htype : cell.type = .primitiveArray) :
    Safe (fun _ => True) cell.readPrimitiveArray := by
  apply (h.touch .reads (by rw [htype]; rfl)).bind
  intro member _
  cases member with
  | primitiveArrayInfo => exact Safe.pure trivial
  | _ => exact Safe.error

theorem Sound.primitiveAddress (h : cell.Sound) (htype : cell.type.isContainer = false) :
    Safe (fun _ => True) cell.primitiveAddress := by
  apply (h.touch .reads (member_of_not_container htype).symm).bind
  intro member _
  split
  · apply (Safe.silent fun _ _ => trivial).bind
    intro _ _
    exact Safe.pure trivial
  · exact Safe.error

theorem Sound.getPrimitive (h : cell.Sound) (htype : cell.type.isContainer = false) (width : ℕ) :
    Safe (fun _ => True) (cell.getPrimitive width) := by
  apply (h.primitiveAddress htype).bind
  intro address _
  exact Safe.silent fun _ _ => trivial

/-- `as<T>` forgets one of the tags it cannot read a value of. -/
theorem Sound.as (h : cell.Sound) (htype : cell.type ≠ .primitiveArray) (width : ℕ) :
    Safe (fun _ => True) (cell.as width) := by
  unfold Cell.as
  split_ifs with hcontainer
  · exact Safe.error
  · apply h.getPrimitive
    cases ht : cell.type with
    | object | array | primitiveArray => simp [ht] at hcontainer htype
    | _ => rfl

theorem Sound.asString (h : cell.Sound) : Safe (fun _ => True) cell.asString := by
  unfold Cell.asString
  split_ifs with htype
  · exact Safe.error
  · have hprimitive : cell.type.isContainer = false := by rw [not_not.1 htype]; rfl
    apply (h.getPrimitive hprimitive 4).bind
    intro _ _
    apply (h.primitiveAddress hprimitive).bind
    intro _ _
    exact Safe.silent fun _ _ => trivial

theorem Sound.has (h : cell.Sound) (key : Bytes) : Safe (fun _ => True) (cell.has key) := by
  unfold Cell.has
  split_ifs with htype
  · exact Safe.error
  · apply (h.readObject (not_not.1 htype)).bind
    intro _ _
    exact Safe.pure trivial

theorem Sound.getChildren (h : cell.Sound) : Safe (fun _ => True) cell.getChildren := by
  unfold Cell.getChildren
  split
  · next htype =>
      apply (h.readObject htype).bind
      intro _ _
      exact Safe.pure trivial
  · next htype => exact h.readArray htype
  · exact Safe.error

theorem Sound.size (h : cell.Sound) : Safe (fun _ => True) cell.size := by
  unfold Cell.size
  split_ifs with hchildren hprimitive
  · apply h.getChildren.bind
    intro _ _
    exact Safe.pure trivial
  · apply (h.readPrimitiveArray hprimitive).bind
    intro _ _
    exact Safe.pure trivial
  · exact Safe.error

end Cell

namespace PointerInfo

variable {info other : PointerInfo} {values : ℕ → Option Cell}

/-- The pointer has a value of its own, of a primitive type. -/
def HoldsPrimitive (info : PointerInfo) : Prop :=
  ∃ cell, info = .rosValue cell ∧ cell.Sound ∧ cell.type.isContainer = false

theorem HoldsPrimitive.sound (h : info.HoldsPrimitive) : info.Sound := by
  obtain ⟨cell, rfl, hcell, -⟩ := h
  exact hcell

def SoundValues (values : ℕ → Option Cell) : Prop := ∀ index cell, values index = some cell → cell.Sound

theorem safe_ofType (type : RosValueType) (messageBuffer : Option Bytes) (offset : ℕ) :
    Safe HoldsPrimitive (ofType type messageBuffer offset) := by
  apply (Cell.safe_ofType type messageBuffer offset).bind
  rintro temporary ⟨htemporary, hprimitive⟩
  apply htemporary.copy.bind
  rintro cell ⟨hcell, htype⟩
  apply htemporary.destroyObjectInfo.bind
  intro _ _
  exact Safe.pure ⟨cell, rfl, hcell, htype ▸ hprimitive⟩

theorem Sound.copy (h : info.Sound) : Safe Sound info.copy := by
  cases info with
  | rosValue cell =>
    apply (Cell.Sound.copy h).bind
    intro _ hcopy
    exact Safe.pure hcopy.1
  | vectorBased index => exact Safe.pure trivial

theorem Sound.destroy (h : info.Sound) : Safe (fun _ => True) info.destroy := by
  cases info with
  | rosValue cell => exact Cell.Sound.destroyObjectInfo h
  | vectorBased index => exact Safe.pure trivial

theorem Sound.deref (h : info.Sound) (hvalues : SoundValues values) {cell : Cell}
    (hcell : info.deref values = .ok cell) : cell.Sound := by
  cases info with
  | rosValue own =>
    cases hcell
    exact h
  | vectorBased index =>
    simp only [PointerInfo.deref] at hcell
    split at hcell
    · next found hfound =>
        cases hcell
        exact hvalues index _ hfound
    · cases hcell

theorem safe_stored {pointer : Watched PointerInfo} (h : Safe Sound pointer) : Safe Sound (stored pointer) := by
  apply h.bind
  intro temporary htemporary
  apply htemporary.copy.bind
  intro copied hcopied
  apply htemporary.destroy.bind
  intro _ _
  exact Safe.pure hcopied

theorem safe_during {α : Type} {P : α → Prop} {pointer : Watched PointerInfo} {use : PointerInfo → Watched α}
    (h : Safe Sound pointer) (huse : ∀ info, info.Sound → Safe P (use info)) : Safe P (during pointer use) := by
  apply h.bind
  intro temporary htemporary
  exact (huse temporary htemporary).withCleanup htemporary.destroy

end PointerInfo

namespace Cell

variable {cell other : Cell} {values : ℕ → Option Cell}

theorem safe_childAt (list : RosValueList) (index : ℕ) : Safe PointerInfo.Sound (childAt list index) := by
  unfold childAt
  split_ifs
  · exact Safe.error
  · exact Safe.pure trivial

theorem Sound.at_primitiveArray (h : cell.Sound) (htype : cell.type = .primitiveArray) (idx : ℕ) :
    Safe PointerInfo.HoldsPrimitive (cell.at idx) := by
  unfold Cell.at
  rw [htype]
  apply (h.readPrimitiveArray htype).bind
  intro info _
  apply (Safe.silent fun _ _ => trivial).bind
  intro width _
  exact PointerInfo.safe_ofType _ _ _

theorem Sound.at (h : cell.Sound) (idx : ℕ) : Safe PointerInfo.Sound (cell.at idx) := by
  by_cases hprimitive : cell.type = .primitiveArray
  · exact (h.at_primitiveArray hprimitive idx).mono fun _ => PointerInfo.HoldsPrimitive.sound
  · unfold Cell.at
    split
    · next htype =>
        apply (h.readObject htype).bind
        intro children _
        exact safe_childAt children.1 idx
    · next htype =>
        apply (h.readArray htype).bind
        intro children _
        exact safe_childAt children idx
    · next htype => exact absurd htype hprimitive
    · exact Safe.error

theorem Sound.get (h : cell.Sound) (key : Bytes) : Safe PointerInfo.Sound (cell.get key) := by
  unfold Cell.get
  split_ifs with htype
  · exact Safe.error
  · apply (h.readObject (not_not.1 htype)).bind
    rintro ⟨_, fieldIndexes⟩ _
    dsimp only
    split
    · exact h.at _
    · exact Safe.error

theorem Sound.getValues (h : cell.Sound) : Safe (fun infos => ∀ info ∈ infos, info.Sound) cell.getValues := by
  unfold Cell.getValues
  split_ifs
  · apply h.size.bind
    intro size _
    apply Safe.mapM
    intro i _
    exact PointerInfo.safe_stored (h.at i)
  · exact Safe.error

theorem Sound.getObjects (h : cell.Sound) : Safe (fun infos => ∀ info ∈ infos, info.Sound) cell.getObjects := by
  unfold Cell.getObjects
  split_ifs with htype
  · exact Safe.error
  · apply (h.readObject (not_not.1 htype)).bind
    intro info _
    apply Safe.mapM
    intro field _
    exact PointerInfo.safe_stored (h.at field.2)

theorem Sound.getElementType (h : cell.Sound) : Safe (fun _ => True) (cell.getElementType values) := by
  unfold Cell.getElementType
  split
  · next htype =>
      apply (h.readPrimitiveArray htype).bind
      intro _ _
      exact Safe.pure trivial
  · apply PointerInfo.safe_during (h.at 0)
    intro _ _
    exact Safe.silent fun _ _ => trivial
  · exact Safe.error

theorem Sound.getPrimitiveArrayRosValueBuffer (h : cell.Sound) :
    Safe (fun _ => True) (cell.getPrimitiveArrayRosValueBuffer values) := by
  unfold Cell.getPrimitiveArrayRosValueBuffer
  split_ifs with htype
  · exact Safe.error
  · apply (h.at_primitiveArray (not_not.1 htype) 0).bind
    rintro _ ⟨element, rfl, hsound, hprimitive⟩
    refine Safe.withCleanup ?_ hsound.destroyObjectInfo
    exact hsound.primitiveAddress hprimitive

theorem Sound.getPrimitiveArrayRosValueBufferSize (h : cell.Sound) :
    Safe (fun _ => True) (cell.getPrimitiveArrayRosValueBufferSize values) := by
  unfold Cell.getPrimitiveArrayRosValueBufferSize
  split_ifs with htype
  · exact Safe.error
  · apply (h.readPrimitiveArray (not_not.1 htype)).bind
    intro _ _
    apply h.getElementType.bind
    intro _ _
    apply (Safe.silent fun _ _ => trivial).bind
    intro _ _
    exact Safe.pure trivial

theorem Sound.exists_touch (h : cell.Sound) (use : MemberUse) :
    ∃ member, (cell.touch use cell.type.member).result = .ok member := by
  obtain ⟨member, hlive, hmember⟩ := Option.map_eq_some_iff.1 h
  exact ⟨member, by simp [Cell.touch, hlive, hmember]⟩

theorem mem_touch (use : MemberUse) (name : MemberName) (cell : Cell) :
    ⟨use, name, cell.type, cell.live.map UnionMember.name⟩ ∈ (cell.touch use name).events :=
  List.mem_singleton_self _

/-- Assignment between values of different tags: the member that is assigned to is not constructed. -/
theorem Sound.assign_wrong (h : cell.Sound) (hother : other.Sound) (htype : cell.type ≠ other.type) :
    ∃ access ∈ (cell.assign other).events, ¬ access.Right := by
  obtain ⟨destroyed, hdestroyed⟩ := h.exists_touch .destroys
  obtain ⟨member, hmember⟩ := hother.exists_touch .reads
  refine ⟨⟨.assigns, other.type.member, other.type, none⟩, ?_, fun hright => nomatch hright.1⟩
  unfold Cell.assign
  rw [if_pos htype]
  apply mem_bind_of_ok (a := ⟨cell.type, none⟩)
  · simp only [Cell.destroyObjectInfo, result_bind, hdestroyed, ok_bind, result_pure]
  · apply mem_bind_of_ok hmember
    exact mem_bind (mem_touch .assigns other.type.member ⟨other.type, none⟩) _

/-- `as<T>` of a primitive array reads the member that primitives have. -/
theorem Sound.as_wrong (h : cell.Sound) (htype : cell.type = .primitiveArray) (width : ℕ) :
    ∃ access ∈ (cell.as width).events, ¬ access.Right := by
  refine ⟨⟨.reads, .primitiveInfo, cell.type, cell.live.map UnionMember.name⟩, ?_, fun hright => ?_⟩
  · unfold Cell.as
    rw [if_neg (by simp [htype])]
    exact mem_bind (mem_bind (mem_touch _ _ _) _) _
  · have hlive := h.symm.trans hright.1
    rw [htype] at hlive
    cases hlive

end Cell

/-- The tag of a primitive is none of the tags that the other members have. -/
def RosValue.Tagged : RosValue → Prop
  | primitive type _ => type.isContainer = false
  | _ => True

/-- The cell that a value stands for -/
def Cell.ofRosValue : RosValue → Cell
  | .primitive type info => ⟨type, some (.primitiveInfo info)⟩
  | .object children fieldIndexes => ⟨.object, some (.objectInfo children fieldIndexes)⟩
  | .array children => ⟨.array, some (.arrayInfo children)⟩
  | .primitiveArray elementType offset length messageBuffer =>
    ⟨.primitiveArray, some (.primitiveArrayInfo elementType offset length messageBuffer)⟩

def PointerInfo.ofPointer : Pointer → PointerInfo
  | .value v => rosValue (Cell.ofRosValue v)
  | .slot index => vectorBased index

namespace Cell

theorem sound_iff (cell : Cell) : cell.Sound ↔ ∃ v : RosValue, v.Tagged ∧ cell = ofRosValue v := by
  constructor
  · intro h
    obtain ⟨type, live⟩ := cell
    obtain ⟨member, rfl, hmember⟩ := Option.map_eq_some_iff.1 h
    cases member with
    | primitiveInfo info =>
      have htype : type.isContainer = false := by cases type <;> first | rfl | cases hmember
      exact ⟨.primitive type info, htype, rfl⟩
    | primitiveArrayInfo e o n b =>
      have htype : type = .primitiveArray := by cases type <;> first | rfl | cases hmember
      exact ⟨.primitiveArray e o n b, trivial, by rw [htype]; rfl⟩
    | arrayInfo children =>
      have htype : type = .array := by cases type <;> first | rfl | cases hmember
      exact ⟨.array children, trivial, by rw [htype]; rfl⟩
    | objectInfo children fieldIndexes =>
      have htype : type = .object := by cases type <;> first | rfl | cases hmember
      exact ⟨.object children fieldIndexes, trivial, by rw [htype]; rfl⟩
  · rintro ⟨v, hv, rfl⟩
    cases v with
    | primitive type info => exact sound_of_name (member_of_not_container hv).symm
    | _ => rfl

variable {v : RosValue}

theorem result_touch_primitive (use : MemberUse) (type : RosValueType) (info : PrimitiveInfo) :
    ((ofRosValue (.primitive type info)).touch use .primitiveInfo).result = .ok (.primitiveInfo info) := rfl

theorem result_getPrimitive (width : ℕ) (v : RosValue) :
    ((ofRosValue v).getPrimitive width).result = v.getPrimitive width := by
  cases v with
  | primitive type info =>
    obtain ⟨offset, _ | buffer⟩ := info
    · rfl
    · simp only [getPrimitive, primitiveAddress, result_bind, result_touch_primitive, ok_bind, result_silent,
        result_pure, bind_assoc, RosValue.getPrimitive]
  | _ => rfl

theorem type_ofRosValue (v : RosValue) : (ofRosValue v).type = v.getType := by
  cases v <;> rfl

theorem result_as {type : RosValueType} {width : ℕ} (hwidth : primitiveTypeToSize type = .ok width) (v : RosValue) :
    v.as type = ((ofRosValue v).as width).result >>= fun bs =>
      match Scalar.ofBytes type bs with
      | some x => .ok x
      | none => .error .undefined := by
  unfold RosValue.as Cell.as
  rw [type_ofRosValue, hwidth]
  split_ifs with h
  · rfl
  · rw [result_getPrimitive]
    rfl

theorem result_asString (v : RosValue) : ((ofRosValue v).asString).result = v.asString := by
  unfold Cell.asString RosValue.asString
  rw [type_ofRosValue]
  split_ifs with h
  · rfl
  · cases v with
    | primitive type info =>
      obtain ⟨offset, _ | buffer⟩ := info
      · rfl
      · simp only [getPrimitive, primitiveAddress, result_bind, result_touch_primitive, ok_bind, result_silent,
          result_pure, bind_assoc, readWord, map_bind]
        cases atIndex buffer offset <;> rfl
    | _ => simp [RosValue.getType] at h

theorem result_size (hv : v.Tagged) : ((ofRosValue v).size).result = v.size := by
  cases v with
  | primitive type info => cases type <;> first | rfl | cases hv
  | _ => rfl

theorem result_childAt (children : RosValueList) (idx : ℕ) :
    (childAt children idx).result = (children.at idx).map PointerInfo.ofPointer := by
  unfold childAt RosValueList.at
  split_ifs <;> rfl

theorem result_at (hv : v.Tagged) (idx : ℕ) :
    ((ofRosValue v).at idx).result = (v.at idx).map PointerInfo.ofPointer := by
  cases v with
  | primitive type info => cases type <;> first | rfl | cases hv
  | object children fieldIndexes => exact result_childAt children idx
  | array children => exact result_childAt children idx
  | primitiveArray elementType offset length messageBuffer =>
    cases elementType <;> rfl

theorem result_get (hv : v.Tagged) (key : Bytes) :
    ((ofRosValue v).get key).result = (v.get key).map PointerInfo.ofPointer := by
  cases v with
  | primitive type info => cases type <;> first | rfl | cases hv
  | object children fieldIndexes =>
    have hread : (ofRosValue (.object children fieldIndexes)).readObject.result = .ok (children, fieldIndexes) := rfl
    have htype : (ofRosValue (.object children fieldIndexes)).type = .object := rfl
    unfold Cell.get
    rw [if_neg (not_not.2 htype), result_bind, hread, ok_bind, RosValue.get]
    dsimp only
    cases fieldIndexes.lookup key with
    | none => rfl
    | some idx => exact result_childAt children idx
  | _ => rfl

end Cell

end Embag
