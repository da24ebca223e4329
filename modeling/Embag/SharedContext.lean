import Embag.Decompression
import Embag.Library.Outcomes
import Embag.ViewSessions

/-! Views in a process with one context of LZ4, which every chunk finds as the last one left it. Where
the chunks that are read end with frames, each call does what it does if every chunk has a context of
its own. -/

namespace Embag

open LittleEndian Loops Lz4f Outcomes

/-- What the code leaves to its libraries and its compiler, with the libraries of the codecs. -/
structure SharedEnv where
  lz4 : Lz4f
  bz2 : Bz2
  heap : Heap.Ops ℕ
  leftFirst : Bool

namespace SharedEnv

def codecs (env : SharedEnv) (context : env.lz4.Context) : Codecs where
  lz4 stored size := (env.lz4.decompressLz4Chunk context stored size).2
  bz2 := env.bz2.decompressBz2Chunk
  length_lz4 := length_decompressLz4Chunk context
  length_bz2 := env.bz2.length_decompressBz2Chunk

/-- The environment in which every chunk has a new context. -/
def own (env : SharedEnv) : Env where
  codecs := env.codecs env.lz4.created
  heap := env.heap
  leftFirst := env.leftFirst

end SharedEnv

/-- The context behind `chunk_t::decompress`; only its LZ4 branch uses it. -/
def Chunk.contextBehind (env : SharedEnv) (memory : Bytes) (context : env.lz4.Context) (chunk : Chunk) :
    env.lz4.Context :=
  if chunk.compression = bytes "lz4" then
    match readPointer memory chunk.record.data chunk.record.dataLen with
    | .ok stored => (env.lz4.decompressLz4Chunk context stored chunk.uncompressedSize).1
    | .error _ => context
  else context

namespace Scan

/-- The chunk that the next turn decompresses. -/
def opens (bag : Bag) (s : Scan) : Option Chunk :=
  match s.currentBuffer with
  | some _ => none
  | none => ((s.chunksToParse[s.chunkIter]?).bind fun p => bag.chunks[p]?).filter
      fun chunk => 0 < chunk.uncompressedSize

def turnShared (env : SharedEnv) (bag : Bag) (st : env.lz4.Context × Scan) :
    (env.lz4.Context × Scan) × Option (Except Fault (Option CurrentMessage)) :=
  let (s, result) := st.2.turn bag (env.codecs st.1)
  let context := (st.2.opens bag).elim st.1 fun chunk => chunk.contextBehind env bag.bagBytes st.1
  ((context, s), result)

def readMessageShared (env : SharedEnv) (bag : Bag) (context : env.lz4.Context) (s : Scan) :
    env.lz4.Context × Scan × Except Fault (Option CurrentMessage) :=
  match iterate (turnShared env bag) (s.turnsLeft bag + 1) (context, s) with
  | ((context, s), some result) => (context, s, result)
  | ((context, s), none) => (context, s, .error .outOfFuel)

end Scan

namespace World

def readMessageShared (env : SharedEnv) (p : ℕ) (queue : List ℕ) (context : env.lz4.Context) (world : World) :
    env.lz4.Context × World × Except Fault (List ℕ) :=
  match world.wrappers[p]? with
  | none => (context, world, .error .undefined)
  | some wrapper =>
    match world.bags[wrapper.scan.bag]? with
    | none => (context, world, .error .undefined)
    | some bag =>
      match wrapper.scan.readMessageShared env bag context with
      | (context, scan, .error e) =>
        (context, { world with wrappers := world.wrappers.set p { wrapper with scan } }, .error e)
      | (context, scan, .ok none) =>
        (context, { world with wrappers := world.wrappers.set p { wrapper with scan } }, .ok queue)
      | (context, scan, .ok (some current)) =>
        let world := { world with wrappers := world.wrappers.set p { scan, current } }
        (context, world, .ok (env.heap.push world.compare queue p))

def beginLoopShared (env : SharedEnv) :
    List ℕ → List ℕ → env.lz4.Context → World → env.lz4.Context × World × Except Fault (List ℕ)
  | [], queue, context, world => (context, world, .ok queue)
  | p :: ps, queue, context, world =>
    match (world.resetIter p).readMessageShared env p queue context with
    | (context, world, .error e) => (context, world, .error e)
    | (context, world, .ok queue) => world.beginLoopShared env ps queue context

def beginShared (env : SharedEnv) (order : List ℕ) (context : env.lz4.Context) (world : World) :
    env.lz4.Context × World × Except Fault Iterator :=
  match world.beginLoopShared env order [] context with
  | (context, world, .error e) => (context, world, .error e)
  | (context, world, .ok msgQueue) => (context, world, .ok { msgQueue })

end World

def Iterator.advanceShared (env : SharedEnv) (it : Iterator) (context : env.lz4.Context) (world : World) :
    env.lz4.Context × (World × Iterator) × Except Fault Unit :=
  match it.msgQueue with
  | [] => (context, (world, it), .error .undefined)
  | p :: _ =>
    let queue := env.heap.pop world.compare it.msgQueue
    match world.readMessageShared env p queue context with
    | (context, world, .error e) => (context, (world, { msgQueue := queue }), .error e)
    | (context, world, .ok queue) => (context, (world, { msgQueue := queue }), .ok ())

namespace Session

/-- What a call does, with the context; `operator*` and a copy have no use for it. -/
def callShared (env : SharedEnv) (order : List ℕ) (context : env.lz4.Context) (s : Session) :
    Call → env.lz4.Context × Session × Except Fault (Option RosMessage)
  | .begin =>
    match s.world.beginShared env order context with
    | (context, world, .error e) => (context, { s with world }, .error e)
    | (context, world, .ok it) => (context, { world, iterators := s.iterators ++ [it] }, .ok none)
  | .copy i => (context, s.call env.own order (.copy i))
  | .deref i => (context, s.call env.own order (.deref i))
  | .advance i =>
    match s.iterators[i]? with
    | none => (context, s, .ok none)
    | some it =>
      match it.advanceShared env context s.world with
      | (context, (world, it), r) =>
        (context, { world, iterators := s.iterators.set i it }, r.map fun _ => none)

def callsShared (env : SharedEnv) (order : List ℕ) :
    env.lz4.Context → Session → List Call → env.lz4.Context × Session
  | context, s, [] => (context, s)
  | context, s, c :: cs =>
    match s.callShared env order context c with
    | (context, s, _) => s.callsShared env order context cs

end Session

def World.beginThrowsShared (env : SharedEnv) :
    List ℕ → List ℕ → env.lz4.Context → World → Option Place
  | [], _, _, _ => none
  | p :: ps, queue, context, world =>
    match (world.resetIter p).readMessageShared env p queue context with
    | (_, world, .error _) => world.place p
    | (context, world, .ok queue) => world.beginThrowsShared env ps queue context

def Iterator.throwsAtShared (env : SharedEnv) (it : Iterator) (context : env.lz4.Context) (world : World) :
    Option Place :=
  match it.msgQueue with
  | [] => none
  | p :: _ =>
    match it.advanceShared env context world with
    | (_, (world, _), .error _) => world.place p
    | (_, _, .ok _) => none

def Session.throwsAtShared (env : SharedEnv) (order : List ℕ) (context : env.lz4.Context) (s : Session) :
    Call → Option Place
  | .begin => s.world.beginThrowsShared env order [] context
  | .advance i => (s.iterators[i]?).bind fun it => it.throwsAtShared env context s.world
  | .copy _ => none
  | .deref _ => none

/-- Turns of a loop over an iterator, with the context between them. -/
inductive StepsShared (env : SharedEnv) :
    env.lz4.Context × World × Iterator → List (ℕ × RosMessage) → env.lz4.Context × World × Iterator → Prop
  | refl {st : env.lz4.Context × World × Iterator} : StepsShared env st [] st
  | step {context context' : env.lz4.Context} {world world' : World} {it : Iterator} {m : RosMessage}
    {st : World × Iterator} {st' : env.lz4.Context × World × Iterator} {out : List (ℕ × RosMessage)}
    (deref : it.deref env.own world = (world', .ok m))
    (advance : it.advanceShared env context world' = (context', st, .ok ()))
    (rest : StepsShared env (context', st) out st') :
    StepsShared env (context, world, it) ((it.frontBag world, m) :: out) st'

/-- The messages of a pass that nothing interrupts, which finds the context in this state. -/
inductive World.PassShared (env : SharedEnv) (order : List ℕ) (context : env.lz4.Context) (world : World) :
    List (ℕ × RosMessage) → Option Place → Prop
  | fails {place : Place} (h : world.beginThrowsShared env order [] context = some place) :
    PassShared env order context world [] (some place)
  | ends {context₁ : env.lz4.Context} {world₁ : World} {it : Iterator} {out : List (ℕ × RosMessage)}
    {st : env.lz4.Context × World × Iterator}
    (hbegin : world.beginShared env order context = (context₁, world₁, .ok it))
    (hsteps : StepsShared env (context₁, world₁, it) out st) (hend : st.2.2.atEnd) :
    PassShared env order context world out none
  | throws {context₁ context₂ : env.lz4.Context} {world₁ world₂ : World} {it it' : Iterator}
    {out : List (ℕ × RosMessage)} {place : Place}
    (hbegin : world.beginShared env order context = (context₁, world₁, .ok it))
    (hsteps : StepsShared env (context₁, world₁, it) out (context₂, world₂, it'))
    (h : it'.throwsAtShared env context₂ world₂ = some place) :
    PassShared env order context world out (some place)

/-- The data of the chunk, if it is compressed by LZ4, ends with a frame. -/
def Chunk.EndsWithFrame (IsFrame : Bytes → Bytes → Prop) (memory : Bytes) (chunk : Chunk) : Prop :=
  chunk.compression = bytes "lz4" →
    ∀ stored, readPointer memory chunk.record.data chunk.record.dataLen = .ok stored →
      Lz4f.EndsWithFrame IsFrame stored chunk.uncompressedSize

def Scan.Parses (P : Bytes → Chunk → Prop) (bag : Bag) (s : Scan) : Prop :=
  ∀ c ∈ s.chunksToParse, ∀ chunk, bag.chunks[c]? = some chunk → P bag.bagBytes chunk

/-- The chunks that the wrappers `ps` parse are all like this. -/
def World.Parses (P : Bytes → Chunk → Prop) (ps : List ℕ) (world : World) : Prop :=
  ∀ p ∈ ps, ∀ w bag, world.wrappers[p]? = some w → world.files[w.scan.bag]? = some bag → w.scan.Parses P bag

def World.EndsWithFrames (IsFrame : Bytes → Bytes → Prop) (ps : List ℕ) (world : World) : Prop :=
  world.Parses (fun memory chunk => chunk.EndsWithFrame IsFrame memory) ps

/-- The chunk ends with a frame, or it is one that throws, where that may be. -/
def Chunk.Settles (env : SharedEnv) (IsFrame : Bytes → Bytes → Prop) (mayThrow : Prop) (memory : Bytes)
    (chunk : Chunk) : Prop :=
  chunk.EndsWithFrame IsFrame memory ∨ mayThrow ∧ ∃ e, (chunk.decompress env.own.codecs memory).2 = .error e

theorem World.EndsWithFrames.settles {IsFrame : Bytes → Bytes → Prop} {ps : List ℕ} {world : World}
    (h : world.EndsWithFrames IsFrame ps) (env : SharedEnv) (mayThrow : Prop) :
    world.Parses (Chunk.Settles env IsFrame mayThrow) ps :=
  fun p hp w bag hw hbag c hc chunk hchunk => .inl (h p hp w bag hw hbag c hc chunk hchunk)

def Bag.EndsWithFrames (IsFrame : Bytes → Bytes → Prop) (bag : Bag) : Prop :=
  ∀ chunk ∈ bag.chunks, chunk.EndsWithFrame IsFrame bag.bagBytes

theorem World.endsWithFrames_of_files {IsFrame : Bytes → Bytes → Prop} {world : World}
    (h : ∀ bag ∈ world.files, bag.EndsWithFrames IsFrame) (ps : List ℕ) : world.EndsWithFrames IsFrame ps :=
  fun _ _ _ bag _ hbag _ _ _ hchunk => h bag (List.mem_of_getElem? hbag) _ (List.mem_of_getElem? hchunk)

theorem BagFile.Opens.exists_stored {f : BagFile} {bag : Bag} (h : f.Opens bag) {i : ℕ} {chunk : Chunk}
    (hchunk : bag.chunks[i]? = some chunk) :
    ∃ c, f.chunks[f.chunkOf i]? = some c ∧ chunk.compression = c.compression ∧ chunk.uncompressedSize = c.size ∧
      readPointer bag.bagBytes chunk.record.data chunk.record.dataLen = .ok c.record.data := by
  obtain ⟨x, c, hx, hc, hget⟩ := h.exists_chunk (List.getElem?_eq_some_iff.1 hchunk).1
  have heq : some chunk = some (f.chunk x c) := hchunk.symm.trans hget
  cases heq
  refine ⟨c, ?_, rfl, rfl, h.opened.readBack.data x (List.mem_of_getElem? hx) c hc⟩
  rw [BagFile.chunkOf, hx]
  exact hc

theorem BagFile.Opens.endsWithFrame {IsFrame : Bytes → Bytes → Prop} {f : BagFile} {bag : Bag} (h : f.Opens bag)
    {i : ℕ} {chunk : Chunk} (hchunk : bag.chunks[i]? = some chunk)
    (hframe : ∀ c, f.chunks[f.chunkOf i]? = some c → c.compression = bytes "lz4" →
      Lz4f.EndsWithFrame IsFrame c.record.data c.size) : chunk.EndsWithFrame IsFrame bag.bagBytes := by
  obtain ⟨c, hc, hcompression, hsize, hdata⟩ := h.exists_stored hchunk
  intro hlz4 stored hstored
  rw [hdata, Except.ok.injEq] at hstored
  rw [← hstored, hsize]
  exact hframe c hc (hcompression.symm.trans hlz4)

theorem BagFile.Opens.endsWithFrames {IsFrame : Bytes → Bytes → Prop} {f : BagFile} {bag : Bag} (h : f.Opens bag)
    (hframes : ∀ c ∈ f.chunks, c.compression = bytes "lz4" → Lz4f.EndsWithFrame IsFrame c.record.data c.size) :
    bag.file.EndsWithFrames IsFrame := by
  intro chunk hchunk
  obtain ⟨i, hchunk⟩ := List.mem_iff_getElem?.1 hchunk
  exact h.endsWithFrame hchunk fun c hc => hframes c (List.mem_of_getElem? hc)

theorem Scan.Parses.of_continues {P : Bytes → Chunk → Prop} {bag : Bag} {s s' : Scan} (h : s.Parses P bag)
    (hcontinues : Scan.Continues s s') : s'.Parses P bag := by
  intro c hc
  rw [hcontinues.chunksToParse] at hc
  exact h c hc

/-- What no call on a view changes: the files, and what the wrappers are to parse. -/
structure World.Keeps (world world' : World) : Prop where
  files : world'.files = world.files
  wrapper : ∀ {p : ℕ} {w' : BagWrapper}, world'.wrappers[p]? = some w' →
    ∃ w, world.wrappers[p]? = some w ∧ Scan.Continues w.scan w'.scan

namespace World.Keeps

variable {world world' world'' : World}

theorem refl : world.Keeps world := ⟨rfl, fun hw => ⟨_, hw, rfl, rfl, rfl⟩⟩

theorem trans (h : world.Keeps world') (h' : world'.Keeps world'') : world.Keeps world'' := by
  refine ⟨h'.files.trans h.files, fun hw => ?_⟩
  obtain ⟨w', hw', hcontinues'⟩ := h'.wrapper hw
  obtain ⟨w, hw, hcontinues⟩ := h.wrapper hw'
  exact ⟨w, hw, hcontinues.trans hcontinues'⟩

theorem parses {P : Bytes → Chunk → Prop} {ps : List ℕ} (h : world.Keeps world') (hparses : world.Parses P ps) :
    world'.Parses P ps := by
  intro p hp w' bag hw' hbag
  obtain ⟨w, hw, hcontinues⟩ := h.wrapper hw'
  rw [h.files, hcontinues.bag] at hbag
  exact (hparses p hp w bag hw hbag).of_continues hcontinues

theorem resetIter (p : ℕ) (world : World) : world.Keeps (world.resetIter p) := by
  refine ⟨rfl, fun {q w'} hw' => ?_⟩
  rw [World.resetIter_wrappers] at hw'
  split_ifs at hw' with hq
  · obtain ⟨w, hw, rfl⟩ := Option.map_eq_some_iff.1 hw'
    exact ⟨w, hw, rfl, rfl, rfl⟩
  · exact ⟨w', hw', rfl, rfl, rfl⟩

theorem readMessage (env : Env) (p : ℕ) (queue : List ℕ) (world : World) :
    world.Keeps (world.readMessage env p queue).1 := by
  rcases hw : world.wrappers[p]? with _ | w
  · simp only [World.readMessage, hw]
    exact refl
  rcases hbag : world.bags[w.scan.bag]? with _ | bag
  · simp only [World.readMessage, hw, hbag]
    exact refl
  obtain ⟨w', hwrappers, hbags, hscan, -⟩ := World.readMessage_effect env queue hw hbag
  refine ⟨files_eq_of_bags hbags, fun {q v} hv => ?_⟩
  rw [hwrappers] at hv
  by_cases hq : p = q
  · subst hq
    rw [List.getElem?_set_self (List.getElem?_eq_some_iff.1 hw).1] at hv
    cases hv
    rw [hscan]
    exact ⟨w, hw, Scan.continues_of_readMessage rfl⟩
  · rw [List.getElem?_set_ne hq] at hv
    exact ⟨v, hv, rfl, rfl, rfl⟩

theorem beginLoop (env : Env) (ps queue : List ℕ) (world : World) :
    world.Keeps (world.beginLoop env ps queue).1 := by
  induction ps generalizing world queue with
  | nil => exact refl
  | cons p ps ih =>
    have hread : world.Keeps ((world.resetIter p).readMessage env p queue).1 :=
      (resetIter p world).trans (readMessage env p queue _)
    unfold World.beginLoop
    rcases hresult : (world.resetIter p).readMessage env p queue with ⟨world₁, e | queue₁⟩
    · rw [hresult] at hread
      exact hread
    · rw [hresult] at hread
      exact hread.trans (ih queue₁ world₁)

theorem deref (env : Env) (it : Iterator) (world : World) : world.Keeps (it.deref env world).1 := by
  rcases it.deref_bags env world with hsame | ⟨b, bag, bag', topic, r, hbag, hdef, hworld⟩
  · rw [hsame]
    exact refl
  · rw [hworld]
    exact ⟨files_set hbag (Bag.file_of_msgDefForTopic hdef), fun hw => ⟨_, hw, rfl, rfl, rfl⟩⟩

theorem advance (env : Env) (it : Iterator) (world : World) : world.Keeps (it.advance env world).1.1 := by
  unfold Iterator.advance
  rcases it.msgQueue with _ | ⟨p, queue⟩
  · exact refl
  have hread := readMessage env p (env.heap.pop world.compare (p :: queue)) world
  dsimp only
  rcases hresult : world.readMessage env p (env.heap.pop world.compare (p :: queue)) with ⟨world₁, e | queue₁⟩
  · rw [hresult] at hread
    exact hread
  · rw [hresult] at hread
    exact hread

theorem call (env : Env) (order : List ℕ) (s : Session) (c : Call) : s.world.Keeps (s.call env order c).1.world := by
  cases c with
  | begin =>
    have hloop := beginLoop env order [] s.world
    unfold Session.call World.begin
    rcases hresult : s.world.beginLoop env order [] with ⟨world, e | queue⟩
    · rw [hresult] at hloop
      exact hloop
    · rw [hresult] at hloop
      exact hloop
  | copy i => exact refl
  | deref i =>
    rcases hit : s.iterators[i]? with _ | it
    · simp only [Session.call, hit]
      exact refl
    · simp only [Session.call, hit]
      exact deref env it s.world
  | advance i =>
    rcases hit : s.iterators[i]? with _ | it
    · simp only [Session.call, hit]
      exact refl
    · simp only [Session.call, hit]
      exact advance env it s.world

end World.Keeps

namespace SharedEnv

variable {env : SharedEnv} {AtBoundary : env.lz4.Context → Prop} {IsFrame : Bytes → Bytes → Prop}
  {context : env.lz4.Context} {bag : Bag} {scan : Scan} {world : World} {it : Iterator} {s : Session}
  {order ps queue : List ℕ} {p : ℕ} {mayThrow : Prop}

theorem codecs_of_atBoundary (hlz4 : env.lz4.Documented AtBoundary IsFrame) (h : AtBoundary context) :
    env.codecs context = env.codecs env.lz4.created := by
  have hsame : (fun stored size => (env.lz4.decompressLz4Chunk context stored size).2) =
      fun stored size => (env.lz4.decompressLz4Chunk env.lz4.created stored size).2 := by
    funext stored size
    exact decompressLz4Chunk_of_atBoundary hlz4 h stored size
  unfold codecs
  simp only [hsame]

theorem atBoundary_contextBehind (hlz4 : env.lz4.Documented AtBoundary IsFrame) (h : AtBoundary context)
    {memory : Bytes} {chunk : Chunk} (hends : chunk.EndsWithFrame IsFrame memory) :
    AtBoundary (chunk.contextBehind env memory context) := by
  unfold Chunk.contextBehind
  split_ifs with hcompression
  · rcases hstored : readPointer memory chunk.record.data chunk.record.dataLen with e | stored
    · exact h
    · exact atBoundary_decompressLz4Chunk hlz4 h (hends hcompression stored hstored)
  · exact h

theorem exists_of_opens {chunk : Chunk} (h : scan.opens bag = some chunk) :
    ∃ c ∈ scan.chunksToParse, bag.chunks[c]? = some chunk := by
  unfold Scan.opens at h
  rcases hbuffer : scan.currentBuffer with _ | buffer
  · rw [hbuffer] at h
    obtain ⟨hchunk, -⟩ := Option.filter_eq_some_iff.1 h
    obtain ⟨c, hc, hchunk⟩ := Option.bind_eq_some_iff.1 hchunk
    exact ⟨c, List.mem_of_getElem? hc, hchunk⟩
  · rw [hbuffer] at h
    cases h

theorem turn_of_opens {codecs : Codecs} {chunk : Chunk} {e : Fault} (hopens : scan.opens bag = some chunk)
    (he : (chunk.decompress codecs bag.bagBytes).2 = .error e) :
    (scan.turn bag codecs).2 = some (.error e) := by
  unfold Scan.opens at hopens
  rcases hbuffer : scan.currentBuffer with _ | buffer
  · rw [hbuffer] at hopens
    obtain ⟨hchunk, hsize⟩ := Option.filter_eq_some_iff.1 hopens
    obtain ⟨c, hc, hchunk⟩ := Option.bind_eq_some_iff.1 hchunk
    have hat : atIndex (List.replicate chunk.uncompressedSize 0) 0 = .ok () :=
      atIndex_of_lt (by simpa using hsize)
    rcases hdecompress : chunk.decompress codecs bag.bagBytes with ⟨buffer, r⟩
    rw [hdecompress] at he
    subst he
    simp only [Scan.turn, hc, hbuffer, hchunk, hat, hdecompress]
  · rw [hbuffer] at hopens
    cases hopens

theorem turnShared_spec (hlz4 : env.lz4.Documented AtBoundary IsFrame) (h : AtBoundary context)
    (hparses : scan.Parses (Chunk.Settles env IsFrame mayThrow) bag) :
    scan.turn bag env.own.codecs =
        ((Scan.turnShared env bag (context, scan)).1.2, (Scan.turnShared env bag (context, scan)).2) ∧
      (AtBoundary (Scan.turnShared env bag (context, scan)).1.1 ∨
        mayThrow ∧ ∃ e, (Scan.turnShared env bag (context, scan)).2 = some (.error e)) := by
  unfold Scan.turnShared
  dsimp only
  rw [codecs_of_atBoundary hlz4 h]
  refine ⟨rfl, ?_⟩
  rcases hopens : scan.opens bag with _ | chunk
  · exact .inl h
  · obtain ⟨c, hc, hchunk⟩ := exists_of_opens hopens
    rcases hparses c hc chunk hchunk with hends | ⟨hmay, e, he⟩
    · exact .inl (atBoundary_contextBehind hlz4 h hends)
    · exact .inr ⟨hmay, e, turn_of_opens hopens he⟩

/-- Reading on does what it does with new contexts, and leaves the shared one at the end of a frame, unless it
throws. -/
theorem scan_readMessageShared (hlz4 : env.lz4.Documented AtBoundary IsFrame) (h : AtBoundary context)
    (hparses : scan.Parses (Chunk.Settles env IsFrame mayThrow) bag) :
    (scan.readMessageShared env bag context).2 = scan.readMessage bag env.own.codecs ∧
      (AtBoundary (scan.readMessageShared env bag context).1 ∨
        mayThrow ∧ ∃ e, (scan.readMessageShared env bag context).2.2 = .error e) := by
  have hrun := @iterate_map_of _ _ (Scan.turn bag env.own.codecs) _ Prod.snd (Scan.turnShared env bag)
    (fun st => AtBoundary st.1 ∧ st.2.Parses (Chunk.Settles env IsFrame mayThrow) bag)
    (fun st r => AtBoundary st.1 ∨ mayThrow ∧ ∃ e, r = .error e) (fun st hst => by
      obtain ⟨hturn, hcontext⟩ := turnShared_spec hlz4 hst.1 hst.2
      refine ⟨hturn, fun hnone => ⟨hcontext.resolve_right fun hthrows => ?_,
        hst.2.of_continues (Scan.continues_of_turn hturn)⟩, fun r hr => ?_⟩
      · obtain ⟨-, e, he⟩ := hthrows
        rw [hnone] at he
        cases he
      · simpa only [hr, Option.some.injEq] using hcontext)
    (scan.turnsLeft bag + 1) (context, scan) ⟨h, hparses⟩
  obtain ⟨heq, hgoing, hdone⟩ := hrun
  unfold Scan.readMessageShared Scan.readMessage
  rw [heq]
  rcases hresult : iterate (Scan.turnShared env bag) (scan.turnsLeft bag + 1) (context, scan) with
    ⟨⟨context', s'⟩, _ | r⟩
  · rw [hresult] at hgoing
    exact ⟨rfl, .inl (hgoing rfl).1⟩
  · rw [hresult] at hdone
    exact ⟨rfl, hdone r rfl⟩

theorem world_readMessageShared (hlz4 : env.lz4.Documented AtBoundary IsFrame) (h : AtBoundary context)
    (hparses : world.Parses (Chunk.Settles env IsFrame mayThrow) ps) (hp : p ∈ ps) (queue : List ℕ) :
    (world.readMessageShared env p queue context).2 = world.readMessage env.own p queue ∧
      (AtBoundary (world.readMessageShared env p queue context).1 ∨
        mayThrow ∧ ∃ e, (world.readMessageShared env p queue context).2.2 = .error e) := by
  rcases hw : world.wrappers[p]? with _ | w
  · simp only [World.readMessageShared, World.readMessage, hw]
    exact ⟨trivial, .inl h⟩
  rcases hbag : world.bags[w.scan.bag]? with _ | bag
  · simp only [World.readMessageShared, World.readMessage, hw, hbag]
    exact ⟨trivial, .inl h⟩
  have hscan : w.scan.Parses (Chunk.Settles env IsFrame mayThrow) bag :=
    hparses p hp w bag.file hw (files_getElem? hbag)
  obtain ⟨hread, hcontext⟩ := scan_readMessageShared hlz4 h hscan
  simp only [World.readMessageShared, World.readMessage, hw, hbag, ← hread]
  rcases hresult : w.scan.readMessageShared env bag context with ⟨context', s', e | _ | current⟩
  · rw [hresult] at hcontext
    exact ⟨rfl, hcontext.imp_right fun hthrows => ⟨hthrows.1, e, rfl⟩⟩
  all_goals
    rw [hresult] at hcontext
    exact ⟨rfl, hcontext.imp_right fun hthrows => absurd hthrows.2 (not_exists_error _)⟩

theorem mem_of_beginLoop (env : Env) (hps : ∀ p ∈ ps, p ∈ order) (hqueue : ∀ p ∈ queue, p ∈ order) :
    ∀ queue', (world.beginLoop env ps queue).2 = .ok queue' → ∀ p ∈ queue', p ∈ order := by
  induction ps generalizing world queue with
  | nil =>
    intro queue' h
    cases h
    exact hqueue
  | cons p ps ih =>
    rw [List.forall_mem_cons] at hps
    unfold World.beginLoop
    rcases hread : (world.resetIter p).readMessage env p queue with ⟨world₁, e | queue₁⟩
    · intro queue' h
      cases h
    · refine ih hps.2 fun q hq => ?_
      rcases World.mem_of_readMessage (by rw [hread]) hq with rfl | hq
      · exact hps.1
      · exact hqueue q hq

theorem beginLoopShared_spec (hlz4 : env.lz4.Documented AtBoundary IsFrame) (h : AtBoundary context)
    (hparses : world.Parses (Chunk.Settles env IsFrame mayThrow) order) (hps : ∀ p ∈ ps, p ∈ order)
    (queue : List ℕ) :
    (world.beginLoopShared env ps queue context).2 = world.beginLoop env.own ps queue ∧
      world.beginThrowsShared env ps queue context = world.beginThrows env.own ps queue ∧
      (AtBoundary (world.beginLoopShared env ps queue context).1 ∨
        mayThrow ∧ ∃ e, (world.beginLoopShared env ps queue context).2.2 = .error e) := by
  induction ps generalizing world queue context with
  | nil => exact ⟨rfl, rfl, .inl h⟩
  | cons p ps ih =>
    rw [List.forall_mem_cons] at hps
    have hreset := (World.Keeps.resetIter p world).parses hparses
    obtain ⟨hread, hcontext⟩ := world_readMessageShared hlz4 h hreset hps.1 queue
    have hkeeps := (World.Keeps.readMessage env.own p queue (world.resetIter p)).parses hreset
    unfold World.beginLoopShared World.beginLoop World.beginThrowsShared World.beginThrows
    rw [← hread] at hkeeps ⊢
    rcases hresult : (world.resetIter p).readMessageShared env p queue context with ⟨context', world', e | queue'⟩
    · rw [hresult] at hcontext
      exact ⟨rfl, rfl, hcontext.imp_right fun hthrows => ⟨hthrows.1, e, rfl⟩⟩
    · rw [hresult] at hcontext hkeeps
      exact ih (hcontext.resolve_right fun hthrows => absurd hthrows.2 (not_exists_error _)) hkeeps hps.2 queue'

theorem beginShared_spec (hlz4 : env.lz4.Documented AtBoundary IsFrame) (h : AtBoundary context)
    (hparses : world.Parses (Chunk.Settles env IsFrame mayThrow) order) :
    (world.beginShared env order context).2 = world.begin env.own order ∧
      (AtBoundary (world.beginShared env order context).1 ∨
        mayThrow ∧ ∃ e, (world.beginShared env order context).2.2 = .error e) := by
  obtain ⟨hloop, -, hcontext⟩ := beginLoopShared_spec hlz4 h hparses (fun _ hp => hp) []
  unfold World.beginShared World.begin
  rw [← hloop]
  rcases hresult : world.beginLoopShared env order [] context with ⟨context', world', e | queue'⟩
  · rw [hresult] at hcontext
    exact ⟨rfl, hcontext.imp_right fun hthrows => ⟨hthrows.1, e, rfl⟩⟩
  · rw [hresult] at hcontext
    exact ⟨rfl, hcontext.imp_right fun hthrows => absurd hthrows.2 (not_exists_error _)⟩

theorem advanceShared_spec (hlz4 : env.lz4.Documented AtBoundary IsFrame) (h : AtBoundary context)
    (hparses : world.Parses (Chunk.Settles env IsFrame mayThrow) order) (hit : ∀ p ∈ it.msgQueue, p ∈ order) :
    (it.advanceShared env context world).2 = it.advance env.own world ∧
      it.throwsAtShared env context world = it.throwsAt env.own world ∧
      (AtBoundary (it.advanceShared env context world).1 ∨
        mayThrow ∧ ∃ e, (it.advanceShared env context world).2.2 = .error e) := by
  have hadvance : (it.advanceShared env context world).2 = it.advance env.own world ∧
      (AtBoundary (it.advanceShared env context world).1 ∨
        mayThrow ∧ ∃ e, (it.advanceShared env context world).2.2 = .error e) := by
    unfold Iterator.advanceShared Iterator.advance
    rcases hqueue : it.msgQueue with _ | ⟨p, queue⟩
    · exact ⟨rfl, .inl h⟩
    have hp : p ∈ order := hit p (by simp [hqueue])
    obtain ⟨hread, hcontext⟩ :=
      world_readMessageShared hlz4 h hparses hp (env.heap.pop world.compare (p :: queue))
    have hown : env.own.heap = env.heap := rfl
    dsimp only
    rw [hown, ← hread]
    rcases hresult : world.readMessageShared env p (env.heap.pop world.compare (p :: queue)) context with
      ⟨context', world', e | queue'⟩
    · rw [hresult] at hcontext
      exact ⟨rfl, hcontext.imp_right fun hthrows => ⟨hthrows.1, e, rfl⟩⟩
    · rw [hresult] at hcontext
      exact ⟨rfl, hcontext.imp_right fun hthrows => absurd hthrows.2 (not_exists_error _)⟩
  refine ⟨hadvance.1, ?_, hadvance.2⟩
  unfold Iterator.throwsAtShared Iterator.throwsAt
  rw [← hadvance.1]
  rcases it.msgQueue with _ | ⟨p, queue⟩
  · rfl
  · rcases it.advanceShared env context world with ⟨context', ⟨world', it'⟩, e | ⟨⟨⟩⟩⟩ <;> rfl

theorem mem_of_advance (env : Env) (hit : ∀ p ∈ it.msgQueue, p ∈ order) (world : World) :
    ∀ p ∈ (it.advance env world).1.2.msgQueue, p ∈ order := by
  rcases hqueue : it.msgQueue with _ | ⟨p, queue⟩
  · simp [Iterator.advance, hqueue]
  rw [hqueue, List.forall_mem_cons] at hit
  have hpop : ∀ q ∈ env.heap.pop world.compare (p :: queue), q ∈ order := fun q hq =>
    hit.2 q ((env.heap.pop_perm _ _ _).mem_iff.1 hq)
  rcases hread : world.readMessage env p (env.heap.pop world.compare (p :: queue)) with ⟨world₁, e | queue₁⟩
  · simp only [Iterator.advance, hqueue, hread]
    exact hpop
  · simp only [Iterator.advance, hqueue, hread]
    intro q hq
    rcases World.mem_of_readMessage (by rw [hread]) hq with rfl | hq
    · exact hit.1
    · exact hpop q hq

end SharedEnv

/-- The wrappers of a view parse chunks that end with frames, and its iterators have no others. -/
structure Session.EndsWithFrames (IsFrame : Bytes → Bytes → Prop) (order : List ℕ) (s : Session) : Prop where
  world : s.world.EndsWithFrames IsFrame order
  queue : ∀ it ∈ s.iterators, ∀ p ∈ it.msgQueue, p ∈ order

theorem Session.EndsWithFrames.call {IsFrame : Bytes → Bytes → Prop} {order : List ℕ} {s : Session}
    (h : s.EndsWithFrames IsFrame order) (env : Env) (c : Call) :
    (s.call env order c).1.EndsWithFrames IsFrame order := by
  refine ⟨(World.Keeps.call env order s c).parses h.world, ?_⟩
  cases c with
  | begin =>
    have hmem := @SharedEnv.mem_of_beginLoop s.world order order [] env (fun _ hp => hp) (List.forall_mem_nil (· ∈ order))
    unfold Session.call World.begin
    rcases hresult : s.world.beginLoop env order [] with ⟨world, e | queue⟩
    · exact h.queue
    · intro it hit
      rcases List.mem_append.1 hit with hit | hit
      · exact h.queue it hit
      · cases List.mem_singleton.1 hit
        exact hmem queue (by rw [hresult])
  | copy i =>
    intro it hit
    rcases List.mem_append.1 hit with hit | hit
    · exact h.queue it hit
    · exact h.queue it (List.mem_of_getElem? (Option.mem_toList.1 hit))
  | deref i =>
    rcases hit : s.iterators[i]? with _ | it
    · simp only [Session.call, hit]
      exact h.queue
    · simp only [Session.call, hit]
      exact h.queue
  | advance i =>
    rcases hit : s.iterators[i]? with _ | it
    · simp only [Session.call, hit]
      exact h.queue
    · simp only [Session.call, hit]
      exact forall_mem_set h.queue
        (SharedEnv.mem_of_advance env (h.queue it (List.mem_of_getElem? hit)) s.world)

namespace SharedEnv

variable {env : SharedEnv} {AtBoundary : env.lz4.Context → Prop} {IsFrame : Bytes → Bytes → Prop}
  {context : env.lz4.Context} {world : World} {s : Session} {order : List ℕ} {mayThrow : Prop}

theorem callShared_spec (hlz4 : env.lz4.Documented AtBoundary IsFrame) (h : AtBoundary context)
    (hends : s.EndsWithFrames IsFrame order) (c : Call) :
    AtBoundary (s.callShared env order context c).1 ∧
      (s.callShared env order context c).2 = s.call env.own order c ∧
      s.throwsAtShared env order context c = s.throwsAt env.own order c := by
  have hparses := hends.world.settles env False
  cases c with
  | begin =>
    obtain ⟨hbegin, hcontext⟩ := beginShared_spec hlz4 h hparses
    obtain ⟨-, hthrows, -⟩ := beginLoopShared_spec hlz4 h hparses (fun _ hp => hp) []
    replace hcontext := hcontext.resolve_right And.left
    refine ⟨?_, ?_, hthrows⟩ <;> unfold Session.callShared
    · rcases hresult : s.world.beginShared env order context with ⟨context', world', e | it⟩
      all_goals
        rw [hresult] at hcontext
        exact hcontext
    · unfold Session.call
      rw [← hbegin]
      rcases s.world.beginShared env order context with ⟨context', world', e | it⟩ <;> rfl
  | copy i => exact ⟨h, rfl, rfl⟩
  | deref i => exact ⟨h, rfl, rfl⟩
  | advance i =>
    rcases hit : s.iterators[i]? with _ | it
    · simp only [Session.callShared, Session.call, Session.throwsAtShared, Session.throwsAt, hit]
      exact ⟨h, trivial, rfl⟩
    obtain ⟨hadvance, hthrows, hcontext⟩ :=
      advanceShared_spec hlz4 h hparses (hends.queue it (List.mem_of_getElem? hit))
    simp only [Session.callShared, Session.call, Session.throwsAtShared, Session.throwsAt, hit, ← hadvance]
    exact ⟨hcontext.resolve_right And.left, trivial, hthrows⟩

/-- In a run of calls on a view, its session is at every time what it is if all chunks have contexts of
their own. -/
theorem callsShared_spec (hlz4 : env.lz4.Documented AtBoundary IsFrame) (h : AtBoundary context)
    (hends : s.EndsWithFrames IsFrame order) (cs : List Call) :
    AtBoundary (s.callsShared env order context cs).1 ∧
      (s.callsShared env order context cs).2 = s.calls env.own order cs ∧
      (s.calls env.own order cs).EndsWithFrames IsFrame order := by
  induction cs generalizing context s with
  | nil => exact ⟨h, rfl, hends⟩
  | cons c cs ih =>
    obtain ⟨hcontext, hcall, -⟩ := callShared_spec hlz4 h hends c
    have hnext := hends.call env.own c
    rcases hresult : s.callShared env order context c with ⟨context', s', r⟩
    rw [hresult] at hcontext hcall
    rw [← hcall] at hnext
    rw [Session.callsShared, hresult, Session.calls, List.foldl_cons, ← hcall]
    exact ih hcontext hnext

structure Goes (AtBoundary : env.lz4.Context → Prop) (IsFrame : Bytes → Bytes → Prop) (mayThrow : Prop)
    (order : List ℕ) (st : env.lz4.Context × World × Iterator) : Prop where
  context : AtBoundary st.1
  world : st.2.1.Parses (Chunk.Settles env IsFrame mayThrow) order
  queue : ∀ p ∈ st.2.2.msgQueue, p ∈ order

theorem Goes.advance (hlz4 : env.lz4.Documented AtBoundary IsFrame) {it : Iterator} {world' : World}
    {m : RosMessage} (h : Goes AtBoundary IsFrame mayThrow order (context, world, it))
    (hderef : it.deref env.own world = (world', .ok m)) :
    (it.advanceShared env context world').2 = it.advance env.own world' ∧
      it.throwsAtShared env context world' = it.throwsAt env.own world' ∧
      ∀ st, it.advance env.own world' = (st, .ok ()) →
        Goes AtBoundary IsFrame mayThrow order ((it.advanceShared env context world').1, st) := by
  have hkeeps := (World.Keeps.deref env.own it world).parses h.world
  rw [hderef] at hkeeps
  obtain ⟨hadvance, hthrows, hcontext⟩ := advanceShared_spec hlz4 h.context hkeeps h.queue
  refine ⟨hadvance, hthrows, fun st hst => ⟨hcontext.resolve_right ?_, ?_, ?_⟩⟩
  · rw [hadvance, hst]
    exact fun hthrows => absurd hthrows.2 (not_exists_error _)
  · have hworld := (World.Keeps.advance env.own it world').parses hkeeps
    rwa [hst] at hworld
  · have hmem := mem_of_advance env.own h.queue world'
    rwa [hst] at hmem

theorem Goes.steps (hlz4 : env.lz4.Documented AtBoundary IsFrame) {st st' : env.lz4.Context × World × Iterator}
    {out : List (ℕ × RosMessage)} (h : Goes AtBoundary IsFrame mayThrow order st)
    (hsteps : StepsShared env st out st') :
    Goes AtBoundary IsFrame mayThrow order st' ∧ Steps env.own st.2 out st'.2 := by
  induction hsteps with
  | refl => exact ⟨h, .refl⟩
  | step hderef hadvance _ ih =>
    obtain ⟨heq, -, hgoes⟩ := h.advance hlz4 hderef
    rw [hadvance] at heq hgoes
    obtain ⟨hlast, hsteps⟩ := ih (hgoes _ heq.symm)
    exact ⟨hlast, .step hderef heq.symm hsteps⟩

theorem Goes.exists_steps (hlz4 : env.lz4.Documented AtBoundary IsFrame) {st st' : World × Iterator}
    {out : List (ℕ × RosMessage)} (h : Goes AtBoundary IsFrame mayThrow order (context, st))
    (hsteps : Steps env.own st out st') :
    ∃ context', Goes AtBoundary IsFrame mayThrow order (context', st') ∧
      StepsShared env (context, st) out (context', st') := by
  induction hsteps generalizing context with
  | refl => exact ⟨context, h, .refl⟩
  | @step world world' it m _ _ _ hderef hadvance _ ih =>
    obtain ⟨heq, -, hgoes⟩ := h.advance hlz4 hderef
    rcases hshared : it.advanceShared env context world' with ⟨context₁, st₁, r⟩
    rw [hshared] at heq hgoes
    rw [hadvance] at heq
    cases heq
    obtain ⟨context', hlast, hsteps⟩ := ih (hgoes _ hadvance)
    exact ⟨context', hlast, .step hderef hshared hsteps⟩

theorem Goes.begin (hlz4 : env.lz4.Documented AtBoundary IsFrame) (h : AtBoundary context)
    (hparses : world.Parses (Chunk.Settles env IsFrame mayThrow) order) {world' : World} {it : Iterator}
    (hbegin : world.begin env.own order = (world', .ok it)) :
    ∃ context', Goes AtBoundary IsFrame mayThrow order (context', world', it) ∧
      world.beginShared env order context = (context', world', .ok it) := by
  obtain ⟨heq, hcontext⟩ := beginShared_spec hlz4 h hparses
  have hkeeps := (World.Keeps.call env.own order { world } .begin).parses hparses
  rw [Session.call_begin_world, hbegin] at hkeeps
  have hmem := @mem_of_beginLoop world order order [] env.own (fun _ hp => hp) (List.forall_mem_nil (· ∈ order))
    it.msgQueue (by rw [World.begin_ok hbegin])
  rcases hshared : world.beginShared env order context with ⟨context', r⟩
  rw [hshared] at hcontext heq
  rw [hbegin] at heq
  cases heq
  exact ⟨context', ⟨hcontext.resolve_right (fun hthrows => absurd hthrows.2 (not_exists_error _)), hkeeps, hmem⟩, rfl⟩

/-- A pass over chunks that end with frames gives what it gives if every chunk has a context of its own. -/
theorem passShared_iff (hlz4 : env.lz4.Documented AtBoundary IsFrame) (h : AtBoundary context)
    (hends : world.EndsWithFrames IsFrame order) {out : List (ℕ × RosMessage)} {place : Option Place} :
    world.PassShared env order context out place ↔ world.Pass env.own order out place := by
  have hparses := hends.settles env False
  obtain ⟨-, hfails, -⟩ := beginLoopShared_spec hlz4 h hparses (fun _ hp => hp) []
  have hthrowsAt : ∀ {context : env.lz4.Context} {world : World} {it : Iterator},
      Goes AtBoundary IsFrame False order (context, world, it) →
        it.throwsAtShared env context world = it.throwsAt env.own world :=
    fun hgoes => (advanceShared_spec hlz4 hgoes.context hgoes.world hgoes.queue).2.1
  have hbegun : ∀ {context' : env.lz4.Context} {world' : World} {it : Iterator},
      world.beginShared env order context = (context', world', .ok it) →
        Goes AtBoundary IsFrame False order (context', world', it) ∧
          world.begin env.own order = (world', .ok it) := by
    intro context' world' it hbegin
    obtain ⟨heq, -⟩ := beginShared_spec hlz4 h hparses
    rw [hbegin] at heq
    obtain ⟨context'', hgoes, hbegin'⟩ := Goes.begin hlz4 h hparses heq.symm
    rw [hbegin] at hbegin'
    cases hbegin'
    exact ⟨hgoes, heq.symm⟩
  constructor
  · intro hpass
    cases hpass with
    | fails hthrows => exact .fails (hfails ▸ hthrows)
    | ends hbegin hsteps hend =>
      obtain ⟨hgoes, hbegin'⟩ := hbegun hbegin
      exact .ends hbegin' (hgoes.steps hlz4 hsteps).2 hend
    | throws hbegin hsteps hthrows =>
      obtain ⟨hgoes, hbegin'⟩ := hbegun hbegin
      obtain ⟨hlast, hsteps'⟩ := hgoes.steps hlz4 hsteps
      exact .throws hbegin' hsteps' (hthrowsAt hlast ▸ hthrows)
  · intro hpass
    cases hpass with
    | fails hthrows => exact .fails (hfails ▸ hthrows)
    | ends hbegin hsteps hend =>
      obtain ⟨context₁, hgoes, hbegin'⟩ := Goes.begin hlz4 h hparses hbegin
      obtain ⟨context₂, -, hsteps'⟩ := hgoes.exists_steps hlz4 hsteps
      exact .ends hbegin' hsteps' hend
    | throws hbegin hsteps hthrows =>
      obtain ⟨context₁, hgoes, hbegin'⟩ := Goes.begin hlz4 h hparses hbegin
      obtain ⟨context₂, hlast, hsteps'⟩ := hgoes.exists_steps hlz4 hsteps
      exact .throws hbegin' hsteps' ((hthrowsAt hlast).trans hthrows)

end SharedEnv

section Sample

def sampleShared : SharedEnv where
  lz4 := sampleLz4f
  bz2 := foreignBz2
  heap := Heap.sortOps
  leftFirst := true

theorem documented_sampleShared :
    sampleShared.lz4.Documented (fun context => context = some ([], 0)) IsSampleFrame := documented_sampleLz4f

def framedChunk : FileChunk where
  compression := bytes "lz4"
  size := (ChunkRecord.encodeAll (sampleRecords false)).length
  record := {
    header := .of [(bytes "op", [5]), (bytes "compression", bytes "lz4"),
      (bytes "size", le 4 (ChunkRecord.encodeAll (sampleRecords false)).length)] (by decide)
    data := sampleFrame (ChunkRecord.encodeAll (sampleRecords false))
    fits := by decide }
  index := (sampleChunk false).index
  compression_mem := lz4_mem_compressions
  sizeFits := sampleRecords_fit false
  has := List.Subset.refl _

def framedBag : StoredBag where
  toBagLayout := { sampleLayout false with
    record := {
      header := .of [(bytes "op", [3]), (bytes "index_pos", le 8 256),
        (bytes "conn_count", le 4 2), (bytes "chunk_count", le 4 1)] (by decide)
      data := []
      fits := nil_fits }
    chunks := [framedChunk] }
  has := by decide +kernel
  ids := List.Perm.refl _
  infosOf := List.Perm.refl _
  positions := by decide
  counts := by decide
  indexed := by decide
  messages := by decide
  connectionsFit := two_fits
  chunksFit := one_fits
  size := by decide +kernel
  contents := [sampleRecords false]
  stored := .cons ⟨by simp [sampleRecords], rfl, fun h => absurd h lz4_ne_none⟩ .nil
  known := (sampleBag false).known
  accepted := accepted_sampleConnection

theorem endsWithFrames_framedBag : framedBag.bag.file.EndsWithFrames IsSampleFrame := by
  refine framedBag.opens_bag.endsWithFrames fun c hc _ => ?_
  cases List.mem_singleton.1 hc
  have hframe := endsWithFrame_sample (ChunkRecord.encodeAll (sampleRecords false)) [] (by decide)
  rwa [List.append_nil] at hframe

end Sample

end Embag
