import Embag.ViewScan

/-! What the operations of a view and its iterators do when they succeed, and the loop that
takes messages from an iterator. -/

namespace Embag

/-- The bag without its cache of schemas, as opening it left it. -/
def Bag.file (bag : Bag) : Bag := { bag with messageSchemata := ∅ }

def World.files (world : World) : List Bag := world.bags.map Bag.file

/-- The message that was returned is the one the wrapper had read; its schema is left open. -/
structure Shows (bag : Bag) (c : CurrentMessage) (m : RosMessage) : Prop where
  connection : ∃ connection, bag.connections[c.connectionId]? = some connection ∧
    m.topic = connection.topic ∧ m.md5 = connection.data.md5sum
  timestamp : m.timestamp = c.timestamp
  rawBuffer : m.rawBuffer = c.messageBuffer
  rawBufferOffset : m.rawBufferOffset = c.messageDataOffset
  rawDataLen : m.rawDataLen = c.messageLen

theorem Shows.file {bag : Bag} {c : CurrentMessage} {m : RosMessage} (h : Shows bag c m) :
    Shows bag.file c m :=
  ⟨h.connection, h.timestamp, h.rawBuffer, h.rawBufferOffset, h.rawDataLen⟩

namespace Bag

variable {bag bag' : Bag} {leftFirst : Bool} {topic : Bytes}

theorem file_file (bag : Bag) : bag.file.file = bag.file := rfl

theorem file_of_parseMsgDefForTopic {r : Except Fault Unit}
    (h : bag.parseMsgDefForTopic leftFirst topic = (bag', r)) : bag'.file = bag.file := by
  rw [parseMsgDefForTopic] at h
  split at h
  · cases h; rfl
  · cases h; rfl
  · split at h
    · cases h; rfl
    · split at h
      · cases h; rfl
      · split_ifs at h
        · cases h; rfl
        · cases h; rfl

theorem file_of_msgDefForTopic {r : Except Fault (Option MsgDef)}
    (h : bag.msgDefForTopic leftFirst topic = (bag', r)) : bag'.file = bag.file := by
  rw [msgDefForTopic] at h
  split at h
  · cases h; rfl
  · rcases hparse : bag.parseMsgDefForTopic leftFirst topic with ⟨bag'', e | ⟨⟩⟩
    · rw [hparse] at h
      cases h
      exact file_of_parseMsgDefForTopic hparse
    · rw [hparse] at h
      cases h
      exact file_of_parseMsgDefForTopic hparse

end Bag

theorem files_set {world : World} {b : ℕ} {bag bag' : Bag} (hbag : world.bags[b]? = some bag)
    (hfile : bag'.file = bag.file) :
    World.files { world with bags := world.bags.set b bag' } = world.files := by
  obtain ⟨hb, rfl⟩ := List.getElem?_eq_some_iff.1 hbag
  simp only [World.files, List.map_set, hfile]
  rw [← List.getElem_map Bag.file (h := by simpa using hb), List.set_getElem_self]

theorem files_getElem? {world : World} {b : ℕ} {bag : Bag} (hbag : world.bags[b]? = some bag) :
    world.files[b]? = some bag.file := by
  simp [World.files, hbag]

theorem exists_bag_of_files {world : World} {files : List Bag} {b : ℕ} {file : Bag}
    (hfiles : world.files = files) (hfile : files[b]? = some file) :
    ∃ bag, world.bags[b]? = some bag ∧ bag.file = file := by
  rw [← hfiles, World.files, List.getElem?_map, Option.map_eq_some_iff] at hfile
  exact hfile

section Ok

variable {env : Env} {world world' : World} {it it' : Iterator}

theorem World.readMessage_ok {p : ℕ} {queue queue' : List ℕ}
    (h : world.readMessage env p queue = (world', .ok queue')) :
    ∃ w bag scan, world.wrappers[p]? = some w ∧ world.bags[w.scan.bag]? = some bag ∧
      world'.bags = world.bags ∧
      (w.scan.readMessage bag env.codecs = (scan, .ok none) ∧
          world'.wrappers = world.wrappers.set p { w with scan } ∧ queue' = queue ∨
        ∃ current, w.scan.readMessage bag env.codecs = (scan, .ok (some current)) ∧
          world'.wrappers = world.wrappers.set p { scan, current } ∧
          queue' = env.heap.push world'.compare queue p) := by
  rw [readMessage] at h
  rcases hw : world.wrappers[p]? with _ | w
  · simp [hw] at h
  simp only [hw] at h
  rcases hbag : world.bags[w.scan.bag]? with _ | bag
  · simp [hbag] at h
  simp only [hbag] at h
  rcases hread : w.scan.readMessage bag env.codecs with ⟨scan, e | _ | current⟩
  · simp [hread] at h
  · simp only [hread, Prod.mk.injEq, Except.ok.injEq] at h
    obtain ⟨rfl, rfl⟩ := h
    exact ⟨w, bag, scan, rfl, hbag, rfl, .inl ⟨hread, rfl, rfl⟩⟩
  · simp only [hread, Prod.mk.injEq, Except.ok.injEq] at h
    obtain ⟨rfl, rfl⟩ := h
    exact ⟨w, bag, scan, rfl, hbag, rfl, .inr ⟨current, hread, rfl, rfl⟩⟩

theorem Iterator.deref_ok {m : RosMessage} (h : it.deref env world = (world', .ok m)) :
    ∃ p queue w bag bag', it.msgQueue = p :: queue ∧ world.wrappers[p]? = some w ∧
      world.bags[w.scan.bag]? = some bag ∧ Shows bag w.current m ∧
      bag.msgDefForTopic env.leftFirst m.topic = (bag', .ok m.msgDef) ∧
      world' = { world with bags := world.bags.set w.scan.bag bag' } := by
  rw [deref] at h
  rcases hqueue : it.msgQueue with _ | ⟨p, queue⟩
  · simp [hqueue] at h
  simp only [hqueue] at h
  rcases hw : world.wrappers[p]? with _ | w
  · simp [hw] at h
  simp only [hw] at h
  rcases hbag : world.bags[w.scan.bag]? with _ | bag
  · simp [hbag] at h
  simp only [hbag] at h
  rcases hconnection : bag.connections[w.current.connectionId]? with _ | connection
  · simp [hconnection] at h
  simp only [hconnection] at h
  rcases hdef : bag.msgDefForTopic env.leftFirst connection.topic with ⟨bag', e | msgDef⟩
  · simp [hdef] at h
  · simp only [hdef, Prod.mk.injEq, Except.ok.injEq] at h
    obtain ⟨rfl, rfl⟩ := h
    exact ⟨p, queue, w, bag, bag', rfl, hw, hbag, ⟨⟨_, hconnection, rfl, rfl⟩, rfl, rfl, rfl, rfl⟩,
      hdef, rfl⟩

theorem Iterator.advance_ok (h : it.advance env world = ((world', it'), .ok ())) :
    ∃ p queue, it.msgQueue = p :: queue ∧
      world.readMessage env p (env.heap.pop world.compare (p :: queue)) =
        (world', .ok it'.msgQueue) := by
  rw [advance] at h
  rcases hqueue : it.msgQueue with _ | ⟨p, queue⟩
  · simp [hqueue] at h
  simp only [hqueue] at h
  refine ⟨p, queue, rfl, ?_⟩
  rcases hread : world.readMessage env p (env.heap.pop world.compare (p :: queue)) with ⟨world'', e | queue'⟩
  · simp [hread] at h
  · simp only [hread, Prod.mk.injEq] at h
    obtain ⟨⟨rfl, rfl⟩, -⟩ := h
    rfl

theorem World.begin_ok {order : List ℕ} (h : world.begin env order = (world', .ok it)) :
    world.beginLoop env order [] = (world', .ok it.msgQueue) := by
  rw [begin] at h
  rcases hloop : world.beginLoop env order [] with ⟨world'', e | queue⟩
  · simp [hloop] at h
  · simp only [hloop, Prod.mk.injEq, Except.ok.injEq] at h
    obtain ⟨rfl, rfl⟩ := h
    rfl

theorem World.beginLoop_cons_ok {p : ℕ} {ps queue queue' : List ℕ}
    (h : world.beginLoop env (p :: ps) queue = (world', .ok queue')) :
    ∃ world₁ queue₁, (world.resetIter p).readMessage env p queue = (world₁, .ok queue₁) ∧
      world₁.beginLoop env ps queue₁ = (world', .ok queue') := by
  rw [beginLoop] at h
  rcases hread : (world.resetIter p).readMessage env p queue with ⟨world₁, e | queue₁⟩
  · simp [hread] at h
  · exact ⟨world₁, queue₁, rfl, by simpa [hread] using h⟩

end Ok

theorem World.readMessage_bags (env : Env) (p : ℕ) (queue : List ℕ) (world : World) :
    (world.readMessage env p queue).1.bags = world.bags := by
  rw [readMessage]
  split
  · rfl
  · split
    · rfl
    · split <;> rfl

theorem World.beginLoop_bags (env : Env) (ps queue : List ℕ) (world : World) :
    (world.beginLoop env ps queue).1.bags = world.bags := by
  induction ps generalizing world queue with
  | nil => rfl
  | cons p ps ih =>
    have hread := readMessage_bags env p queue (world.resetIter p)
    rw [beginLoop]
    split
    · rename_i h
      rw [h] at hread
      exact hread
    · rename_i h
      rw [h] at hread
      exact (ih _ _).trans hread

theorem World.begin_bags (env : Env) (order : List ℕ) (world : World) :
    (world.begin env order).1.bags = world.bags := by
  have hloop := beginLoop_bags env order [] world
  rw [begin]
  split <;> rename_i h <;> rw [h] at hloop <;> exact hloop

/-- The bag of the message at the front of the queue. -/
def Iterator.frontBag (it : Iterator) (world : World) : ℕ :=
  (it.msgQueue.head?.bind fun p => world.wrappers[p]?).elim 0 fun w => w.scan.bag

/-- Turns of a loop that dereferences an iterator and advances it, with the messages it gets
and the bags they are from. -/
inductive Steps (env : Env) : World × Iterator → List (ℕ × RosMessage) → World × Iterator → Prop
  | refl {st : World × Iterator} : Steps env st [] st
  | step {world world' : World} {it : Iterator} {m : RosMessage} {st st' : World × Iterator}
    {out : List (ℕ × RosMessage)} (deref : it.deref env world = (world', .ok m))
    (advance : it.advance env world' = (st, .ok ())) (rest : Steps env st out st') :
    Steps env (world, it) ((it.frontBag world, m) :: out) st'

namespace Steps

variable {env : Env} {st st₁ st' : World × Iterator} {out done : List (ℕ × RosMessage)}

theorem eq_of_atEnd (h : Steps env st out st') (hend : st.2.atEnd) : out = [] ∧ st' = st := by
  cases h with
  | refl => exact ⟨rfl, rfl⟩
  | step hderef _ _ =>
    obtain ⟨p, queue, _, _, _, hqueue, -⟩ := Iterator.deref_ok hderef
    simp [Iterator.atEnd, hqueue] at hend

/-- A loop that stops somewhere has taken the first of what the whole loop takes. -/
theorem split (h : Steps env st out st') (hend : st'.2.atEnd) (hdone : Steps env st done st₁) :
    ∃ rest, out = done ++ rest ∧ Steps env st₁ rest st' := by
  induction hdone generalizing out with
  | refl => exact ⟨out, rfl, h⟩
  | @step world world' it m st₂ st₁ done hderef hadvance _ ih =>
    cases h with
    | refl =>
      obtain ⟨p, queue, _, _, _, hqueue, -⟩ := Iterator.deref_ok hderef
      simp [Iterator.atEnd, hqueue] at hend
    | @step _ world'' _ m' st₃ _ out hderef' hadvance' hrest =>
      rw [hderef] at hderef'
      cases hderef'
      rw [hadvance] at hadvance'
      cases hadvance'
      obtain ⟨rest, rfl, hsteps⟩ := ih hrest
      exact ⟨rest, rfl, hsteps⟩

end Steps

def takeAll (env : Env) : ℕ → World × Iterator → Option (List (ℕ × RosMessage) × World × Iterator)
  | 0, st => if st.2.atEnd then some ([], st) else none
  | fuel + 1, st =>
    if st.2.atEnd then some ([], st)
    else
      match st.2.deref env st.1 with
      | (_, .error _) => none
      | (world, .ok m) =>
        match st.2.advance env world with
        | (_, .error _) => none
        | (st', .ok _) =>
          (takeAll env fuel st').map fun rest => ((st.2.frontBag st.1, m) :: rest.1, rest.2)

theorem steps_of_takeAll {env : Env} {fuel : ℕ} {st st' : World × Iterator}
    {out : List (ℕ × RosMessage)} (h : takeAll env fuel st = some (out, st')) :
    Steps env st out st' ∧ st'.2.atEnd := by
  induction fuel generalizing st out with
  | zero =>
    rw [takeAll] at h
    split_ifs at h with hend
    cases h
    exact ⟨.refl, hend⟩
  | succ fuel ih =>
    rw [takeAll] at h
    split_ifs at h with hend
    · cases h
      exact ⟨.refl, hend⟩
    · rcases hderef : st.2.deref env st.1 with ⟨world, e | m⟩
      · simp [hderef] at h
      · rcases hadvance : st.2.advance env world with ⟨st₁, e | ⟨⟨⟩⟩⟩
        · simp [hderef, hadvance] at h
        · simp only [hderef, hadvance, Option.map_eq_some_iff] at h
          obtain ⟨⟨rest, st₂⟩, hrest, heq⟩ := h
          cases heq
          obtain ⟨hsteps, hend'⟩ := ih hrest
          exact ⟨.step hderef hadvance hsteps, hend'⟩

end Embag
