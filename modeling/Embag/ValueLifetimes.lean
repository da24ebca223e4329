import Embag.ValueCells

/-! Whole programs over values and pointers: constructions, copies, assignments, accessors
and destructions in any order. A property of every operation that is executed (each use of
a member is right, and each tag still names its live member) comes to a condition on the
tags it finds (`tagNamesLive_iff`): no assignment between two tags, and no `as<T>` of a
primitive array. -/

namespace Embag

open Log

inductive Storage where
  | value (cell : Cell)
  | pointer (info : PointerInfo)
  | destroyed

/-- The places of a program, in the order of their construction. The elements of a vector are
values like any other, and a pointer into it holds the place of one. -/
abbrev Memory : Type := List Storage

namespace Memory

def valueAt (memory : Memory) (place : ℕ) : Option Cell :=
  match memory[place]? with
  | some (.value cell) => some cell
  | _ => none

def pointerAt (memory : Memory) (place : ℕ) : Option PointerInfo :=
  match memory[place]? with
  | some (.pointer info) => some info
  | _ => none

end Memory

/-- A reference to a value: the value in a place, or what the pointer in a place leads to -/
inductive ValueRef where
  | value (place : ℕ)
  | pointee (place : ℕ)

def Memory.find (memory : Memory) : ValueRef → Option (Except Fault Cell)
  | .value place => (memory.valueAt place).map .ok
  | .pointee place => (memory.pointerAt place).map (PointerInfo.deref memory.valueAt)

/-- The member functions that read a value; the operators are `get` and `at`. -/
inductive Accessor where
  | as (width : ℕ)
  | asString
  | has (key : Bytes)
  | size
  | get (key : Bytes)
  | at (idx : ℕ)
  | getValues
  | getObjects
  | getElementType
  | getPrimitiveArrayRosValueBuffer
  | getPrimitiveArrayRosValueBufferSize

def Accessor.call (values : ℕ → Option Cell) (cell : Cell) : Accessor → Watched (List PointerInfo)
  | as width => do
    let _ ← cell.as width
    return []
  | asString => do
    let _ ← cell.asString
    return []
  | has key => do
    let _ ← cell.has key
    return []
  | size => do
    let _ ← cell.size
    return []
  | get key => do return [← cell.get key]
  | .at idx => do return [← cell.at idx]
  | getValues => cell.getValues
  | getObjects => cell.getObjects
  | getElementType => do
    let _ ← cell.getElementType values
    return []
  | getPrimitiveArrayRosValueBuffer => do
    let _ ← cell.getPrimitiveArrayRosValueBuffer values
    return []
  | getPrimitiveArrayRosValueBufferSize => do
    let _ ← cell.getPrimitiveArrayRosValueBufferSize values
    return []

inductive ValueOp where
  | construct (type : RosValueType) (messageBuffer : Option Bytes) (offset : ℕ)
  | constructObject (fieldIndexes : FieldIndexes)
  | constructArray
  | constructPrimitiveArray (elementType : RosValueType) (messageBuffer : Bytes)
  | copy (source : ValueRef)
  | assign (target : ℕ) (source : ValueRef)
  | fill (target : ℕ) (member : UnionMember)
  /-- `Pointer(base, index)` -/
  | constructPointer (index : ℕ)
  /-- `Pointer(type, message_buffer, offset)` -/
  | constructPointerTo (type : RosValueType) (messageBuffer : Option Bytes) (offset : ℕ)
  | copyPointer (source : ℕ)
  | assignPointer (target source : ℕ)
  | destroy (target : ℕ)
  | call (source : ValueRef) (accessor : Accessor)

/-- What is done with a value that is referred to; without one there is nothing to do. -/
def Memory.withValue (memory : Memory) (source : ValueRef) (use : Cell → Watched Memory) : Watched Memory :=
  match memory.find source with
  | some found => do use (← silent found)
  | none => pure memory

def ValueOp.run (memory : Memory) : ValueOp → Watched Memory
  | construct type messageBuffer offset => do
    return memory ++ [.value (← Cell.ofType type messageBuffer offset)]
  | constructObject fieldIndexes => do
    return memory ++ [.value (← Cell.ofFieldIndexes fieldIndexes)]
  | constructArray => pure (memory ++ [.value Cell.ofArray])
  | constructPrimitiveArray elementType messageBuffer =>
    pure (memory ++ [.value (Cell.ofElementType elementType messageBuffer)])
  | copy source => memory.withValue source fun other => do
    return memory ++ [.value (← other.copy)]
  | assign target source =>
    match memory.valueAt target with
    | some cell => memory.withValue source fun other => do
      return memory.set target (.value (← cell.assign other))
    | none => pure memory
  | fill target member =>
    match memory.valueAt target with
    | some cell => do return memory.set target (.value (← cell.fill member))
    | none => pure memory
  | constructPointer index => pure (memory ++ [.pointer (.vectorBased index)])
  | constructPointerTo type messageBuffer offset => do
    return memory ++ [.pointer (← PointerInfo.ofType type messageBuffer offset)]
  | copyPointer source =>
    match memory.pointerAt source with
    | some other => do return memory ++ [.pointer (← other.copy)]
    | none => pure memory
  | assignPointer target source =>
    match memory.pointerAt target, memory.pointerAt source with
    | some info, some other => do return memory.set target (.pointer (← info.assign other))
    | _, _ => pure memory
  | destroy target =>
    match memory[target]? with
    | some (.value cell) => do
      cell.destroyObjectInfo
      return memory.set target .destroyed
    | some (.pointer info) => do
      info.destroy
      return memory.set target .destroyed
    | _ => pure memory
  | call source accessor => memory.withValue source fun cell => do
    return memory ++ (← accessor.call memory.valueAt cell).map .pointer

def Storage.Sound : Storage → Prop
  | value cell => cell.Sound
  | pointer info => info.Sound
  | destroyed => True

def Memory.Sound (memory : Memory) : Prop := ∀ storage ∈ memory, storage.Sound

/-- The operation uses only members that are live, its reads only those that the tags select,
and what it leaves is sound. -/
def ValueOp.Keeps (memory : Memory) (op : ValueOp) : Prop :=
  (∀ access ∈ (op.run memory).events, access.Right) ∧
    ∀ memory', (op.run memory).result = .ok memory' → memory'.Sound

/-- Assignments find the same tag on both sides, and `as<T>` finds no primitive array. -/
def ValueOp.Careful (memory : Memory) : ValueOp → Prop
  | assign target source => ∀ cell other, memory.valueAt target = some cell →
      memory.find source = some (.ok other) → cell.type = other.type
  | assignPointer target source => ∀ cell other, memory.pointerAt target = some (.rosValue cell) →
      memory.pointerAt source = some (.rosValue other) → cell.type = other.type
  | call source (.as _) => ∀ cell, memory.find source = some (.ok cell) → cell.type ≠ .primitiveArray
  | _ => True

namespace Memory

variable {memory : Memory} {place : ℕ} {source : ValueRef} {cell : Cell}

theorem Sound.append {after : List Storage} (h : memory.Sound) (hafter : ∀ storage ∈ after, storage.Sound) :
    Sound (memory ++ after) := by
  intro storage hstorage
  rcases List.mem_append.1 hstorage with hstorage | hstorage
  · exact h storage hstorage
  · exact hafter storage hstorage

theorem Sound.snoc {storage : Storage} (h : memory.Sound) (hstorage : storage.Sound) :
    Sound (memory ++ [storage]) :=
  h.append fun _ hmem => List.mem_singleton.1 hmem ▸ hstorage

theorem Sound.set {storage : Storage} (h : memory.Sound) (hstorage : storage.Sound) :
    Sound (memory.set place storage) := by
  intro other hother
  rcases List.mem_or_eq_of_mem_set hother with hmem | rfl
  · exact h other hmem
  · exact hstorage

theorem Sound.constructs {α : Type} {P : α → Prop} {x : Watched α} {toStorage : α → Storage} (h : memory.Sound)
    (hx : Safe P x) (hstorage : ∀ a, P a → (toStorage a).Sound) :
    Safe Memory.Sound (x >>= fun a => pure (memory ++ [toStorage a])) := by
  apply hx.bind
  intro a ha
  exact Safe.pure (h.snoc (hstorage a ha))

theorem Sound.replaces {α : Type} {P : α → Prop} {x : Watched α} {toStorage : α → Storage} (h : memory.Sound)
    (hx : Safe P x) (hstorage : ∀ a, P a → (toStorage a).Sound) :
    Safe Memory.Sound (x >>= fun a => pure (memory.set place (toStorage a))) := by
  apply hx.bind
  intro a ha
  exact Safe.pure (h.set (hstorage a ha))

theorem getElem?_of_valueAt (h : memory.valueAt place = some cell) : memory[place]? = some (.value cell) := by
  unfold valueAt at h
  split at h
  · next hfound =>
      cases h
      exact hfound
  · cases h

theorem getElem?_of_pointerAt {info : PointerInfo} (h : memory.pointerAt place = some info) :
    memory[place]? = some (.pointer info) := by
  unfold pointerAt at h
  split at h
  · next hfound =>
      cases h
      exact hfound
  · cases h

theorem Sound.valueAt (h : memory.Sound) (hcell : memory.valueAt place = some cell) : cell.Sound :=
  h _ (List.mem_of_getElem? (getElem?_of_valueAt hcell))

theorem Sound.pointerAt {info : PointerInfo} (h : memory.Sound) (hinfo : memory.pointerAt place = some info) :
    info.Sound :=
  h _ (List.mem_of_getElem? (getElem?_of_pointerAt hinfo))

theorem Sound.find (h : memory.Sound) (hfind : memory.find source = some (.ok cell)) : cell.Sound := by
  cases source with
  | value place =>
    obtain ⟨found, hfound, heq⟩ := Option.map_eq_some_iff.1 hfind
    cases heq
    exact h.valueAt hfound
  | pointee place =>
    obtain ⟨info, hinfo, hderef⟩ := Option.map_eq_some_iff.1 hfind
    exact (h.pointerAt hinfo).deref (fun _ _ => h.valueAt) hderef

theorem Sound.withValue {use : Cell → Watched Memory} (h : memory.Sound)
    (huse : ∀ cell, memory.find source = some (.ok cell) → Safe Memory.Sound (use cell)) :
    Safe Memory.Sound (memory.withValue source use) := by
  unfold Memory.withValue
  split
  · next found hfound =>
      refine Safe.bind (Safe.silent fun cell hcell => ?_) huse
      rw [hfound, hcell]
  · exact Safe.pure h

end Memory

theorem Accessor.safe {accessor : Accessor} {values : ℕ → Option Cell} {cell : Cell} (h : cell.Sound)
    (has : ∀ width, accessor = .as width → cell.type ≠ .primitiveArray) :
    Safe (fun infos => ∀ info ∈ infos, info.Sound) (accessor.call values cell) := by
  have hdone {α : Type} {x : Watched α} (hx : Safe (fun _ => True) x) :
      Safe (fun infos => ∀ info ∈ infos, PointerInfo.Sound info) (x >>= fun _ => pure []) :=
    hx.bind fun _ _ => Safe.pure nofun
  have hone {x : Watched PointerInfo} (hx : Safe PointerInfo.Sound x) :
      Safe (fun infos => ∀ info ∈ infos, PointerInfo.Sound info) (x >>= fun info => pure [info]) :=
    hx.bind fun _ hinfo => Safe.pure fun _ hmem => List.mem_singleton.1 hmem ▸ hinfo
  cases accessor with
  | as width => exact hdone (h.as (has width rfl) width)
  | asString => exact hdone h.asString
  | has key => exact hdone (h.has key)
  | size => exact hdone h.size
  | get key => exact hone (h.get key)
  | «at» idx => exact hone (h.at idx)
  | getValues => exact h.getValues
  | getObjects => exact h.getObjects
  | getElementType => exact hdone h.getElementType
  | getPrimitiveArrayRosValueBuffer => exact hdone h.getPrimitiveArrayRosValueBuffer
  | getPrimitiveArrayRosValueBufferSize => exact hdone h.getPrimitiveArrayRosValueBufferSize

theorem PointerInfo.Sound.assign {info other : PointerInfo} (h : info.Sound) (hother : other.Sound)
    (htype : ∀ cell cell', info = .rosValue cell → other = .rosValue cell' → cell.type = cell'.type) :
    Safe PointerInfo.Sound (info.assign other) := by
  have hreplaced : Safe PointerInfo.Sound (info.destroy >>= fun _ => other.copy) :=
    h.destroy.bind fun _ _ => hother.copy
  cases info with
  | rosValue cell =>
    cases other with
    | rosValue cell' =>
      apply (Cell.Sound.assign h hother (htype cell cell' rfl rfl)).bind
      intro _ hassigned
      exact Safe.pure hassigned
    | vectorBased index => exact hreplaced
  | vectorBased index => exact hreplaced

namespace ValueOp

variable {memory : Memory} {op : ValueOp} {source : ValueRef}

theorem safe_copy (h : memory.Sound) (source : ValueRef) : Safe Memory.Sound ((copy source).run memory) := by
  apply h.withValue
  intro other hother
  exact h.constructs (h.find hother).copy fun _ hcell => hcell.1

theorem safe_assign {target : ℕ} (h : memory.Sound) (hc : (assign target source).Careful memory) :
    Safe Memory.Sound ((assign target source).run memory) := by
  rw [run]
  split
  · next cell hcell =>
      apply h.withValue
      intro other hother
      exact h.replaces ((h.valueAt hcell).assign (h.find hother) (hc cell other hcell hother)) fun _ => id
  · exact Safe.pure h

theorem safe_fill (h : memory.Sound) (target : ℕ) (member : UnionMember) :
    Safe Memory.Sound ((fill target member).run memory) := by
  rw [run]
  split
  · next cell hcell => exact h.replaces ((h.valueAt hcell).fill member) fun _ => id
  · exact Safe.pure h

theorem safe_copyPointer (h : memory.Sound) (source : ℕ) : Safe Memory.Sound ((copyPointer source).run memory) := by
  rw [run]
  split
  · next other hother => exact h.constructs (h.pointerAt hother).copy fun _ => id
  · exact Safe.pure h

theorem safe_assignPointer {target source : ℕ} (h : memory.Sound)
    (hc : (assignPointer target source).Careful memory) :
    Safe Memory.Sound ((assignPointer target source).run memory) := by
  rw [run]
  split
  · next info other hinfo hother =>
      have htype : ∀ cell cell', info = .rosValue cell → other = .rosValue cell' → cell.type = cell'.type := by
        rintro cell cell' rfl rfl
        exact hc cell cell' hinfo hother
      exact h.replaces ((h.pointerAt hinfo).assign (h.pointerAt hother) htype) fun _ => id
  · exact Safe.pure h

theorem safe_destroy (h : memory.Sound) (target : ℕ) : Safe Memory.Sound ((destroy target).run memory) := by
  rw [run]
  split
  · next cell hcell =>
      have hsound : cell.Sound := h _ (List.mem_of_getElem? hcell)
      exact h.replaces hsound.destroyObjectInfo fun _ _ => trivial
  · next info hinfo =>
      have hsound : info.Sound := h _ (List.mem_of_getElem? hinfo)
      exact h.replaces hsound.destroy fun _ _ => trivial
  · exact Safe.pure h

theorem safe_call {accessor : Accessor} (h : memory.Sound) (hc : (call source accessor).Careful memory) :
    Safe Memory.Sound ((call source accessor).run memory) := by
  apply h.withValue
  intro cell hcell
  have has : ∀ width, accessor = .as width → cell.type ≠ .primitiveArray := by
    rintro width rfl
    exact hc cell hcell
  apply (Accessor.safe (h.find hcell) has).bind
  intro infos hinfos
  apply Safe.pure
  apply h.append
  intro storage hstorage
  obtain ⟨info, hinfo, rfl⟩ := List.mem_map.1 hstorage
  exact hinfos info hinfo

theorem Careful.safe (hc : op.Careful memory) (h : memory.Sound) : Safe Memory.Sound (op.run memory) := by
  cases op with
  | construct type messageBuffer offset =>
    exact h.constructs (Cell.safe_ofType type messageBuffer offset) fun _ hcell => hcell.1
  | constructObject fieldIndexes => exact h.constructs (Cell.safe_ofFieldIndexes fieldIndexes) fun _ => id
  | constructArray => exact Safe.pure (h.snoc rfl)
  | constructPrimitiveArray elementType messageBuffer => exact Safe.pure (h.snoc rfl)
  | copy source => exact safe_copy h source
  | assign target source => exact safe_assign h hc
  | fill target member => exact safe_fill h target member
  | constructPointer index => exact Safe.pure (h.snoc trivial)
  | constructPointerTo type messageBuffer offset =>
    exact h.constructs (PointerInfo.safe_ofType type messageBuffer offset) fun _ => PointerInfo.HoldsPrimitive.sound
  | copyPointer source => exact safe_copyPointer h source
  | assignPointer target source => exact safe_assignPointer h hc
  | destroy target => exact safe_destroy h target
  | call source accessor => exact safe_call h hc

theorem mem_withValue {source : ValueRef} {cell : Cell} {use : Cell → Watched Memory} {access : MemberAccess}
    (hfind : memory.find source = some (.ok cell)) (h : access ∈ (use cell).events) :
    access ∈ (memory.withValue source use).events := by
  rw [Memory.withValue, hfind]
  exact mem_bind_of_ok rfl h

/-- An operation that uses only the right members was careful. -/
theorem careful_of_right (h : memory.Sound) (hright : ∀ access ∈ (op.run memory).events, access.Right) :
    op.Careful memory := by
  cases op with
  | assign target source =>
    intro cell other hcell hother
    by_contra htype
    obtain ⟨access, haccess, hwrong⟩ := (h.valueAt hcell).assign_wrong (h.find hother) htype
    apply hwrong
    apply hright
    rw [run, hcell]
    exact mem_withValue hother (mem_bind haccess _)
  | assignPointer target source =>
    intro cell other hcell hother
    by_contra htype
    obtain ⟨access, haccess, hwrong⟩ := Cell.Sound.assign_wrong (h.pointerAt hcell) (h.pointerAt hother) htype
    apply hwrong
    apply hright
    rw [run, hcell, hother]
    exact mem_bind (mem_bind haccess _) _
  | call source accessor =>
    cases accessor with
    | as width =>
      intro cell hcell htype
      obtain ⟨access, haccess, hwrong⟩ := (h.find hcell).as_wrong htype width
      apply hwrong
      apply hright
      exact mem_withValue hcell (mem_bind (mem_bind haccess _) _)
    | _ => trivial
  | _ => trivial

theorem keeps_iff (h : memory.Sound) : op.Keeps memory ↔ op.Careful memory := by
  constructor
  · exact fun hkeeps => careful_of_right h hkeeps.1
  · intro hc
    have hsafe := hc.safe h
    exact ⟨hsafe.good, hsafe.ok⟩

end ValueOp

/-- In a program that starts without values, every operation that is executed keeps each tag the
name of the live member and uses no other. -/
def TagNamesLive (ops : List ValueOp) : Prop :=
  ∀ x ∈ executed Fault.thrown ValueOp.run [] ops, x.2.Keeps x.1

/-- A program does so exactly if it never assigns between values of two tags and never calls
`as<T>` on a primitive array. -/
theorem tagNamesLive_iff (ops : List ValueOp) :
    TagNamesLive ops ↔
      ∀ x ∈ executed Fault.thrown ValueOp.run [] ops, x.2.Careful x.1 := by
  have hnext : ∀ (memory : Memory) (op : ValueOp) (memory' : Memory), memory.Sound → op.Keeps memory →
      (op.run memory).result = .ok memory' → memory'.Sound :=
    fun memory op memory' _ hkeeps => hkeeps.2 memory'
  have hempty : Memory.Sound [] := List.forall_mem_nil _
  exact executed_iff (fun _ _ => ValueOp.keeps_iff) hnext hempty ops

/-- An `int8` that an `int16` is assigned to, and a primitive array read as a number. -/
theorem not_tagNamesLive :
    ¬ TagNamesLive [.construct .int8 none 0, .construct .int16 none 0, .assign 0 (.value 1)] ∧
    ¬ TagNamesLive [.constructPrimitiveArray .uint8 [], .call (.value 0) (.as 1)] := by
  constructor
  · intro h
    have hkeeps := h (_, _) (.tail _ (.tail _ (.head _)))
    exact absurd hkeeps.1 (by decide)
  · intro h
    have hkeeps := h (_, _) (.tail _ (.head _))
    exact absurd hkeeps.1 (by decide)

end Embag
