import Embag.ViewMessages

/-! What a program does with a view: it calls `begin()` any number of times and works on the
iterators in any order, all of which move the same wrappers. -/

namespace Embag

/-- A call on the view or one of its copies, or on an iterator that was made from it. -/
inductive Call where
  | begin
  | copy (i : ℕ)
  | deref (i : ℕ)
  | advance (i : ℕ)
  deriving DecidableEq, Repr

/-- The bags with the wrappers, and the iterators a program has. -/
structure Session where
  world : World
  iterators : List Iterator := []

namespace Session

/-- What a call does, with the message it returns. The map of the view is not changed between
calls, so that `begin` comes to its wrappers in one order. -/
def call (env : Env) (order : List ℕ) (s : Session) : Call → Session × Except Fault (Option RosMessage)
  | .begin =>
    match s.world.begin env order with
    | (world, .error e) => ({ s with world }, .error e)
    | (world, .ok it) => ({ world, iterators := s.iterators ++ [it] }, .ok none)
  | .copy i => ({ s with iterators := s.iterators ++ (s.iterators[i]?).toList }, .ok none)
  | .deref i =>
    match s.iterators[i]? with
    | none => (s, .ok none)
    | some it =>
      match it.deref env s.world with
      | (world, r) => ({ s with world }, r.map some)
  | .advance i =>
    match s.iterators[i]? with
    | none => (s, .ok none)
    | some it =>
      match it.advance env s.world with
      | ((world, it), r) => ({ world, iterators := s.iterators.set i it }, r.map fun _ => none)

def calls (env : Env) (order : List ℕ) (s : Session) (cs : List Call) : Session :=
  cs.foldl (fun s c => (s.call env order c).1) s

theorem call_begin_world (env : Env) (order : List ℕ) (s : Session) :
    (s.call env order .begin).1.world = (s.world.begin env order).1 := by
  rw [call]
  split <;> rename_i hbegin <;> rw [hbegin]

end Session

structure Place where
  wrapper : ℕ
  chunkIter : ℕ
  processedBytes : ℕ
  currentBuffer : Option Bytes
  deriving DecidableEq, Repr

namespace World

def place (world : World) (p : ℕ) : Option Place :=
  (world.wrappers[p]?).map fun w =>
    { wrapper := p
      chunkIter := w.scan.chunkIter
      processedBytes := w.scan.processedBytes
      currentBuffer := w.scan.currentBuffer }

/-- Where the loop of `begin` has come to when `readMessage` throws in it. -/
def beginThrows (env : Env) : List ℕ → List ℕ → World → Option Place
  | [], _, _ => none
  | p :: ps, queue, world =>
    match (world.resetIter p).readMessage env p queue with
    | (world, .error _) => world.place p
    | (world, .ok queue) => world.beginThrows env ps queue

end World

/-- Where `operator++` has come to when `readMessage` throws in it. -/
def Iterator.throwsAt (env : Env) (it : Iterator) (world : World) : Option Place :=
  match it.msgQueue with
  | [] => none
  | p :: _ =>
    match it.advance env world with
    | ((world, _), .error _) => world.place p
    | (_, .ok _) => none

def Session.throwsAt (env : Env) (order : List ℕ) (s : Session) : Call → Option Place
  | .begin => s.world.beginThrows env order []
  | .advance i => (s.iterators[i]?).bind fun it => it.throwsAt env s.world
  | .copy _ => none
  | .deref _ => none

/-- What the messages of a pass are that a new `begin` starts and nothing interrupts: it comes
to the end, or to an exception of `readMessage`. -/
inductive World.Pass (env : Env) (order : List ℕ) (world : World) :
    List (ℕ × RosMessage) → Option Place → Prop
  | fails {place : Place} (h : world.beginThrows env order [] = some place) :
    Pass env order world [] (some place)
  | ends {world₁ : World} {it : Iterator} {out : List (ℕ × RosMessage)} {st : World × Iterator}
    (hbegin : world.begin env order = (world₁, .ok it)) (hsteps : Steps env (world₁, it) out st)
    (hend : st.2.atEnd) : Pass env order world out none
  | throws {world₁ world₂ : World} {it it' : Iterator} {out : List (ℕ × RosMessage)} {place : Place}
    (hbegin : world.begin env order = (world₁, .ok it))
    (hsteps : Steps env (world₁, it) out (world₂, it')) (h : it'.throwsAt env world₂ = some place) :
    Pass env order world out (some place)

section Reads

variable {env : Env} {world : World} {p : ℕ}

theorem World.readMessage_effect (env : Env) {w : BagWrapper} {bag : Bag} (queue : List ℕ)
    (hw : world.wrappers[p]? = some w) (hbag : world.bags[w.scan.bag]? = some bag) :
    ∃ w', (world.readMessage env p queue).1.wrappers = world.wrappers.set p w' ∧
      (world.readMessage env p queue).1.bags = world.bags ∧
      w'.scan = (w.scan.readMessage bag env.codecs).1 ∧
      (∀ e, (w.scan.readMessage bag env.codecs).2 = .error e →
        w'.current = w.current ∧ (world.readMessage env p queue).2 = .error e) ∧
      ((w.scan.readMessage bag env.codecs).2 = .ok none →
        w'.current = w.current ∧ (world.readMessage env p queue).2 = .ok queue) ∧
      ∀ m, (w.scan.readMessage bag env.codecs).2 = .ok (some m) → w'.current = m ∧
        (world.readMessage env p queue).2 =
          .ok (env.heap.push (world.readMessage env p queue).1.compare queue p) := by
  rw [readMessage]
  simp only [hw, hbag]
  rcases w.scan.readMessage bag env.codecs with ⟨scan, e | _ | current⟩
  · exact ⟨{ w with scan }, rfl, rfl, rfl, fun e' h => (by cases h; exact ⟨rfl, rfl⟩),
      fun h => (by cases h), fun m h => by cases h⟩
  · exact ⟨{ w with scan }, rfl, rfl, rfl, fun e' h => (by cases h), fun _ => ⟨rfl, rfl⟩,
      fun m h => by cases h⟩
  · exact ⟨{ scan, current }, rfl, rfl, rfl, fun e' h => (by cases h), fun h => (by cases h),
      fun m h => by cases h; exact ⟨rfl, rfl⟩⟩

theorem World.mem_of_readMessage {queue queue' : List ℕ}
    (h : (world.readMessage env p queue).2 = .ok queue') {q : ℕ} (hq : q ∈ queue') :
    q = p ∨ q ∈ queue := by
  rw [readMessage] at h
  split at h
  · cases h
  · split at h
    · cases h
    · split at h
      · cases h
      · cases h
        exact .inr hq
      · cases h
        exact List.mem_cons.1 ((env.heap.push_perm _ _ _).mem_iff.1 hq)

theorem World.resetIter_wrappers (world : World) (p q : ℕ) :
    (world.resetIter p).wrappers[q]? =
      if q = p then (world.wrappers[q]?).map fun w => { w with scan.chunkIter := 0 }
      else world.wrappers[q]? := by
  rw [resetIter, List.getElem?_modify]
  split_ifs with h h' h'
  · rfl
  · exact absurd h.symm h'
  · exact absurd h'.symm h
  · simp

theorem World.beginThrows_eq_none {ps queue queue' : List ℕ} {world' : World}
    (h : world.beginLoop env ps queue = (world', .ok queue')) : world.beginThrows env ps queue = none := by
  induction ps generalizing world queue with
  | nil => rfl
  | cons p ps ih =>
    obtain ⟨world₁, queue₁, hread, hloop⟩ := beginLoop_cons_ok h
    unfold beginThrows
    rw [hread]
    exact ih hloop

theorem Iterator.deref_bags (env : Env) (it : Iterator) (world : World) :
    (it.deref env world).1 = world ∨ ∃ b bag bag' topic r, world.bags[b]? = some bag ∧
      bag.msgDefForTopic env.leftFirst topic = (bag', r) ∧
      (it.deref env world).1 = { world with bags := world.bags.set b bag' } := by
  unfold deref
  split
  · exact .inl rfl
  · split
    · exact .inl rfl
    · split
      · exact .inl rfl
      · rename_i bag hbag
        split
        · exact .inl rfl
        · split <;> rename_i hdef <;> exact .inr ⟨_, bag, _, _, _, hbag, hdef, rfl⟩

theorem Iterator.advance_bags (env : Env) (it : Iterator) (world : World) :
    (it.advance env world).1.1.bags = world.bags := by
  unfold advance
  split
  · rfl
  · rename_i p queue hqueue
    have hread := World.readMessage_bags env p (env.heap.pop world.compare it.msgQueue) world
    dsimp only
    split <;> rename_i hresult <;> rw [hresult] at hread <;> exact hread

end Reads

structure World.Holds (files : List Bag) (order : List ℕ) (P : ℕ → Scan → Prop) (world : World) :
    Prop where
  files_eq : world.files = files
  wrapper : ∀ p ∈ order, ∃ w bag, world.wrappers[p]? = some w ∧ files[w.scan.bag]? = some bag ∧
    P p w.scan

/-- The iterators have no other wrappers in their queues. -/
structure Session.Holds (files : List Bag) (order : List ℕ) (P : ℕ → Scan → Prop) (s : Session) :
    Prop where
  world : s.world.Holds files order P
  queue : ∀ it ∈ s.iterators, ∀ p ∈ it.msgQueue, p ∈ order

/-- Neither `begin`, which sets the iterator, nor reading on leads out of `P`. -/
structure Stable (codecs : Codecs) (files : List Bag) (P : ℕ → Scan → Prop) : Prop where
  reset : ∀ {p s}, P p s → P p { s with chunkIter := 0 }
  read : ∀ {p s s' bag r}, files[s.bag]? = some bag → P p s → s.readMessage bag codecs = (s', r) → P p s'

theorem forall_mem_set {P : Iterator → Prop} {its : List Iterator} {i : ℕ} {it : Iterator}
    (h : ∀ it ∈ its, P it) (hit : P it) : ∀ it' ∈ its.set i it, P it' := by
  intro it' hit'
  rcases List.mem_or_eq_of_mem_set hit' with hit' | rfl
  · exact h it' hit'
  · exact hit

section Holds

variable {env : Env} {files : List Bag} {order : List ℕ} {P : ℕ → Scan → Prop} {world : World}
  {s : Session} {p : ℕ}

theorem World.Holds.resetIter (h : world.Holds files order P) (hP : Stable env.codecs files P) (p : ℕ) :
    (world.resetIter p).Holds files order P where
  files_eq := h.files_eq
  wrapper q hq := by
    obtain ⟨w, bag, hw, hbag, hscan⟩ := h.wrapper q hq
    rw [resetIter_wrappers, hw]
    split_ifs
    · exact ⟨_, bag, rfl, hbag, hP.reset hscan⟩
    · exact ⟨w, bag, rfl, hbag, hscan⟩

/-- Reading on in a wrapper, for its own part of the invariant and the rest. -/
theorem World.Holds.readMessage (h : world.Holds files order P) (hP : Stable env.codecs files P)
    (hp : p ∈ order) (queue : List ℕ) : (world.readMessage env p queue).1.Holds files order P := by
  obtain ⟨w, file, hw, hfile, hscan⟩ := h.wrapper p hp
  obtain ⟨bag, hbag, rfl⟩ := exists_bag_of_files h.files_eq hfile
  obtain ⟨w', hwrappers, hbags, hscan', -⟩ := readMessage_effect env queue hw hbag
  have hread : w.scan.readMessage bag.file env.codecs = (w'.scan, (w.scan.readMessage bag env.codecs).2) := by
    rw [hscan']
    rfl
  refine ⟨(files_eq_of_bags hbags).trans h.files_eq, fun q hq => ?_⟩
  rw [hwrappers]
  by_cases hqp : q = p
  · subst hqp
    obtain ⟨hlt, -⟩ := List.getElem?_eq_some_iff.1 hw
    refine ⟨w', bag.file, List.getElem?_set_self hlt, ?_, hP.read hfile hscan hread⟩
    rw [(Scan.continues_of_readMessage hread).bag]
    exact hfile
  · rw [List.getElem?_set_ne (Ne.symm hqp)]
    exact h.wrapper q hq

theorem World.Holds.beginLoop (h : world.Holds files order P) (hP : Stable env.codecs files P)
    {ps : List ℕ} (hps : ∀ p ∈ ps, p ∈ order) {queue : List ℕ} (hqueue : ∀ p ∈ queue, p ∈ order) :
    (world.beginLoop env ps queue).1.Holds files order P ∧
      ∀ queue', (world.beginLoop env ps queue).2 = .ok queue' → ∀ p ∈ queue', p ∈ order := by
  induction ps generalizing world queue with
  | nil => exact ⟨h, fun queue' heq => by cases heq; exact hqueue⟩
  | cons p ps ih =>
    rw [List.forall_mem_cons] at hps
    have hread := (h.resetIter hP p).readMessage hP hps.1 queue
    unfold World.beginLoop
    rcases hresult : (world.resetIter p).readMessage env p queue with ⟨world₁, e | queue₁⟩
    · rw [hresult] at hread
      exact ⟨hread, fun _ h => by cases h⟩
    · rw [hresult] at hread
      refine ih hread hps.2 fun q hq => ?_
      rcases World.mem_of_readMessage (by rw [hresult]) hq with rfl | hq
      · exact hps.1
      · exact hqueue q hq

theorem World.Holds.deref (h : world.Holds files order P) (env : Env) (it : Iterator) :
    (it.deref env world).1.Holds files order P := by
  rcases it.deref_bags env world with hsame | ⟨b, bag, bag', topic, r, hbag, hdef, hworld⟩
  · rw [hsame]
    exact h
  · rw [hworld]
    exact ⟨(files_set hbag (Bag.file_of_msgDefForTopic hdef)).trans h.files_eq, h.wrapper⟩

theorem World.Holds.advance (h : world.Holds files order P) (hP : Stable env.codecs files P)
    {it : Iterator} (hit : ∀ p ∈ it.msgQueue, p ∈ order) :
    (it.advance env world).1.1.Holds files order P ∧ ∀ p ∈ (it.advance env world).1.2.msgQueue, p ∈ order := by
  unfold Iterator.advance
  rcases hqueue : it.msgQueue with _ | ⟨p, queue⟩
  · exact ⟨h, fun p hp => by simp [hqueue] at hp⟩
  rw [hqueue, List.forall_mem_cons] at hit
  have hpop : ∀ q ∈ env.heap.pop world.compare (p :: queue), q ∈ order := fun q hq =>
    hit.2 q ((env.heap.pop_perm _ _ _).mem_iff.1 hq)
  have hread := h.readMessage hP hit.1 (env.heap.pop world.compare (p :: queue))
  rcases hresult : world.readMessage env p (env.heap.pop world.compare (p :: queue)) with
    ⟨world₁, e | queue₁⟩
  · rw [hresult] at hread
    simp only [hresult]
    exact ⟨hread, hpop⟩
  · rw [hresult] at hread
    simp only [hresult]
    refine ⟨hread, fun q hq => ?_⟩
    rcases World.mem_of_readMessage (by rw [hresult]) hq with rfl | hq
    · exact hit.1
    · exact hpop q hq

/-- What no reset and no reading leads out of holds behind every call. -/
theorem Session.Holds.call (h : s.Holds files order P) (hP : Stable env.codecs files P) (c : Call) :
    (s.call env order c).1.Holds files order P := by
  cases c with
  | begin =>
    have hloop := h.world.beginLoop hP (fun _ hp => hp) (List.forall_mem_nil (· ∈ order))
    unfold Session.call World.begin
    rcases hresult : s.world.beginLoop env order [] with ⟨world, e | queue⟩
    · rw [hresult] at hloop
      exact ⟨hloop.1, h.queue⟩
    · rw [hresult] at hloop
      refine ⟨hloop.1, fun it hit => ?_⟩
      rcases List.mem_append.1 hit with hit | hit
      · exact h.queue it hit
      · cases List.mem_singleton.1 hit
        exact hloop.2 queue rfl
  | copy i =>
    refine ⟨h.world, fun it hit => ?_⟩
    rcases List.mem_append.1 hit with hit | hit
    · exact h.queue it hit
    · exact h.queue it (List.mem_of_getElem? (Option.mem_toList.1 hit))
  | deref i =>
    rcases hit : s.iterators[i]? with _ | it
    · simp only [Session.call, hit]
      exact h
    · simp only [Session.call, hit]
      exact ⟨h.world.deref env it, h.queue⟩
  | advance i =>
    rcases hit : s.iterators[i]? with _ | it
    · simp only [Session.call, hit]
      exact h
    · simp only [Session.call, hit]
      obtain ⟨hworld, hqueue⟩ := h.world.advance hP (h.queue it (List.mem_of_getElem? hit))
      exact ⟨hworld, forall_mem_set h.queue hqueue⟩

theorem Session.Holds.calls (h : s.Holds files order P) (hP : Stable env.codecs files P)
    (cs : List Call) : (s.calls env order cs).Holds files order P := by
  induction cs generalizing s with
  | nil => exact h
  | cons c cs ih => exact ih (h.call hP c)

end Holds

end Embag
