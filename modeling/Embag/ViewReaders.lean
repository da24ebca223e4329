import Embag.Library.Interference
import Embag.BagQueries
import Embag.SchemaBuilder
import Embag.SchemaCache
import Embag.SharedContext

/-! A program with several views over the same bags, each with wrappers of its own. The bags change
only in their caches of schemas, so that every view is iterated as if it were alone. -/

namespace Embag

open Interference

/-- A view as `getMessages` has prepared it, with the order its hash map has and the iterators made
of it or of its copies. -/
structure Reader where
  order : List ℕ
  iterators : List Iterator := []

/-- The bags and wrappers of a program, and its views. -/
structure Program where
  world : World
  readers : List Reader := []

/-- What a program does: it prepares a view over some bags, calls one it has, or asks a bag or a view. -/
inductive Operation where
  | prepare (bags : List ℕ) (selection : View.Selection)
  | call (reader : ℕ) (c : Call)
  | getSchema (b : ℕ) (topic : Bytes) (fuel : ℕ)
  | ask (q : Query)

inductive Reply where
  | prepared
  | message (r : Except Fault (Option RosMessage))
  | schema (r : Except Fault (List (Bytes × PySchema)))
  | answer (a : Option Answer)

namespace Program

/-- One operation; `shuffle` is the order in which a hash map runs through its entries. -/
def step (env : Env) (shuffle : List ℕ → List ℕ) (s : Program) : Operation → Program × Reply
  | .prepare bags selection =>
    let (world, view) := View.getMessages selection { bags } s.world
    ({ world, readers := s.readers ++ [{ order := shuffle view.wrappers }] }, .prepared)
  | .call k c =>
    match s.readers[k]? with
    | none => (s, .message (.ok none))
    | some r =>
      let (session, message) := Session.call env r.order { world := s.world, iterators := r.iterators } c
      ({ world := session.world, readers := s.readers.set k { r with iterators := session.iterators } },
        .message message)
  | .getSchema b topic fuel =>
    match s.world.bags[b]? with
    | none => (s, .schema (.error .undefined))
    | some bag =>
      let (bag, schema) := SchemaBuilder.generateSchema env.leftFirst bag topic fuel
      ({ s with world.bags := s.world.bags.set b bag }, .schema schema)
  | .ask q =>
    let (world, answer) := s.world.ask q
    ({ s with world }, .answer answer)

/-- One operation, with the context that all chunks share; only calls on views decompress any. -/
def stepShared (env : SharedEnv) (shuffle : List ℕ → List ℕ) (st : env.lz4.Context × Program) :
    Operation → (env.lz4.Context × Program) × Reply
  | .call k c =>
    match st.2.readers[k]? with
    | none => (st, .message (.ok none))
    | some r =>
      match Session.callShared env r.order st.1 { world := st.2.world, iterators := r.iterators } c with
      | (context, session, message) =>
        ((context, { world := session.world
                     readers := st.2.readers.set k { r with iterators := session.iterators } }),
          .message message)
  | .prepare bags selection =>
    let (s, reply) := st.2.step env.own shuffle (.prepare bags selection)
    ((st.1, s), reply)
  | .getSchema b topic fuel =>
    let (s, reply) := st.2.step env.own shuffle (.getSchema b topic fuel)
    ((st.1, s), reply)
  | .ask q =>
    let (s, reply) := st.2.step env.own shuffle (.ask q)
    ((st.1, s), reply)

end Program

namespace World

/-- No definition that is looked up leaves a null pointer behind. -/
def LeavesNoNull (env : Env) (files : List Bag) : Prop :=
  env.leftFirst = false ∨ ∀ bag ∈ files, ∀ topic, ¬ bag.FailsToParse topic

/-- Two worlds with the same bags, up to caches that hold what parses, and the same wrappers `ps`. -/
structure Shares (ps : List ℕ) (world world' : World) : Prop where
  files : world'.files = world.files
  clean : ∀ bag ∈ world.bags, bag.Clean
  clean' : ∀ bag ∈ world'.bags, bag.Clean
  wrappers : ∀ p ∈ ps, world'.wrappers[p]? = world.wrappers[p]?

/-- An operation on the wrappers `ps` changes nothing else, except for caches. -/
structure Touches (ps : List ℕ) (world world' : World) : Prop where
  files : world'.files = world.files
  clean : (∀ bag ∈ world.bags, bag.Clean) → ∀ bag ∈ world'.bags, bag.Clean
  length : world'.wrappers.length = world.wrappers.length
  wrappers : ∀ p ∉ ps, world'.wrappers[p]? = world.wrappers[p]?

variable {env : Env} {ps order : List ℕ} {world world' world'' : World} {p b : ℕ}

theorem Touches.refl : world.Touches ps world := ⟨rfl, fun h => h, rfl, fun _ _ => rfl⟩

theorem Touches.trans (h : world.Touches ps world') (h' : world'.Touches ps world'') :
    world.Touches ps world'' where
  files := h'.files.trans h.files
  clean hclean := h'.clean (h.clean hclean)
  length := h'.length.trans h.length
  wrappers p hp := (h'.wrappers p hp).trans (h.wrappers p hp)

theorem Touches.of_bags (hbags : world'.bags = world.bags) (hlength : world'.wrappers.length = world.wrappers.length)
    (hwrappers : ∀ p ∉ ps, world'.wrappers[p]? = world.wrappers[p]?) : world.Touches ps world' where
  files := files_eq_of_bags hbags
  clean hclean bag hbag := hclean bag (by rwa [← hbags])
  length := hlength
  wrappers := hwrappers

theorem clean_set {bag : Bag} (hclean : ∀ bag ∈ world.bags, bag.Clean) (hbag : bag.Clean) :
    ∀ bag' ∈ world.bags.set b bag, bag'.Clean := by
  intro bag' hmem
  rcases List.mem_or_eq_of_mem_set hmem with hmem | rfl
  · exact hclean bag' hmem
  · exact hbag

theorem Shares.exists_bag (h : world.Shares ps world') {bag : Bag} (hbag : world.bags[b]? = some bag) :
    ∃ bag', world'.bags[b]? = some bag' ∧ bag'.file = bag.file ∧ bag.Clean ∧ bag'.Clean := by
  obtain ⟨bag', hbag', hfile⟩ := exists_bag_of_files h.files (files_getElem? hbag)
  exact ⟨bag', hbag', hfile, h.clean bag (List.mem_of_getElem? hbag), h.clean' bag' (List.mem_of_getElem? hbag')⟩

theorem Shares.bag_eq_none (h : world.Shares ps world') (hbag : world.bags[b]? = none) :
    world'.bags[b]? = none := by
  have hlength : world'.bags.length = world.bags.length := by
    simpa [World.files] using congrArg List.length h.files
  rw [List.getElem?_eq_none_iff] at hbag ⊢
  rwa [hlength]

theorem Shares.touches {ps' : List ℕ} (h : world.Shares ps world') (htouches : world.Touches ps' world'')
    (happart : ∀ p ∈ ps, p ∉ ps') : world''.Shares ps world' where
  files := h.files.trans htouches.files.symm
  clean := htouches.clean h.clean
  clean' := h.clean'
  wrappers p hp := (h.wrappers p hp).trans (htouches.wrappers p (happart p hp)).symm

theorem readMessage_wrappers (env : Env) (p : ℕ) (queue : List ℕ) (world : World) :
    (world.readMessage env p queue).1.wrappers = world.wrappers ∨
      ∃ w, (world.readMessage env p queue).1.wrappers = world.wrappers.set p w := by
  rw [readMessage]
  split
  · exact .inl rfl
  · split
    · exact .inl rfl
    · split <;> exact .inr ⟨_, rfl⟩

theorem touches_readMessage (hp : p ∈ ps) (queue : List ℕ) : world.Touches ps (world.readMessage env p queue).1 := by
  have hwrappers := readMessage_wrappers env p queue world
  refine .of_bags (readMessage_bags env p queue world) ?_ fun q hq => ?_
  · rcases hwrappers with h | ⟨w, h⟩
    · rw [h]
    · rw [h, List.length_set]
  · have hne : p ≠ q := fun he => hq (he ▸ hp)
    rcases hwrappers with h | ⟨w, h⟩
    · rw [h]
    · rw [h, List.getElem?_set_ne hne]

theorem touches_resetIter (hp : p ∈ ps) : world.Touches ps (world.resetIter p) := by
  refine .of_bags rfl (List.length_modify ..) fun q hq => ?_
  have hne : q ≠ p := fun he => hq (he ▸ hp)
  rw [resetIter_wrappers, if_neg hne]

theorem Shares.set (h : world.Shares ps world') {v : BagWrapper} (hp : p ∈ ps) (hv : world.wrappers[p]? = some v)
    (w : BagWrapper) : Shares ps { world with wrappers := world.wrappers.set p w }
      { world' with wrappers := world'.wrappers.set p w } := by
  refine ⟨h.files, h.clean, h.clean', fun q hq => ?_⟩
  have hv' : world'.wrappers[p]? = some v := (h.wrappers p hp).trans hv
  by_cases hqp : q = p
  · subst hqp
    simp only
    rw [List.getElem?_set_self (List.getElem?_eq_some_iff.1 hv).1,
      List.getElem?_set_self (List.getElem?_eq_some_iff.1 hv').1]
  · simp only
    rw [List.getElem?_set_ne (Ne.symm hqp), List.getElem?_set_ne (Ne.symm hqp), h.wrappers q hq]

theorem Shares.compare (h : world.Shares ps world') {q : ℕ} (hp : p ∈ ps) (hq : q ∈ ps) :
    world'.compare p q = world.compare p q := by
  simp only [World.compare, World.timestamp, h.wrappers p hp, h.wrappers q hq]

theorem Shares.resetIter (h : world.Shares ps world') (p : ℕ) :
    (world.resetIter p).Shares ps (world'.resetIter p) := by
  refine ⟨h.files, h.clean, h.clean', fun q hq => ?_⟩
  rw [resetIter_wrappers, resetIter_wrappers, h.wrappers q hq]

/-- Reading on in a wrapper of its own has one outcome in both worlds. -/
theorem Shares.readMessage (h : world.Shares ps world') (env : Env) (hp : p ∈ ps) {queue : List ℕ}
    (hqueue : ∀ q ∈ queue, q ∈ ps) :
    (world.readMessage env p queue).1.Shares ps (world'.readMessage env p queue).1 ∧
      (world'.readMessage env p queue).2 = (world.readMessage env p queue).2 := by
  have hw' := h.wrappers p hp
  rcases hw : world.wrappers[p]? with _ | w
  · simp only [World.readMessage, hw'.trans hw, hw]
    exact ⟨h, trivial⟩
  rw [hw] at hw'
  rcases hbag : world.bags[w.scan.bag]? with _ | bag
  · simp only [World.readMessage, hw', hw, hbag, h.bag_eq_none hbag]
    exact ⟨h, trivial⟩
  obtain ⟨bag', hbag', hfile, -, -⟩ := h.exists_bag hbag
  have hread : w.scan.readMessage bag' env.codecs = w.scan.readMessage bag env.codecs := by
    have hsame : w.scan.readMessage bag'.file env.codecs = w.scan.readMessage bag.file env.codecs := by rw [hfile]
    exact hsame
  simp only [World.readMessage, hw', hw, hbag, hbag', hread]
  rcases w.scan.readMessage bag env.codecs with ⟨scan, e | _ | current⟩
  · exact ⟨h.set hp hw _, rfl⟩
  · exact ⟨h.set hp hw _, rfl⟩
  · have hset := h.set hp hw { scan, current }
    refine ⟨hset, congrArg Except.ok (env.heap.push_congr fun x hx y hy => ?_)⟩
    have hmem : ∀ q ∈ p :: queue, q ∈ ps := List.forall_mem_cons.2 ⟨hp, hqueue⟩
    exact hset.compare (hmem x hx) (hmem y hy)

theorem touches_beginLoop (hps : ∀ q ∈ order, q ∈ ps) (queue : List ℕ) :
    world.Touches ps (world.beginLoop env order queue).1 := by
  induction order generalizing world queue with
  | nil => exact .refl
  | cons p order ih =>
    rw [List.forall_mem_cons] at hps
    have hread : world.Touches ps ((world.resetIter p).readMessage env p queue).1 :=
      (touches_resetIter hps.1).trans (touches_readMessage hps.1 queue)
    unfold World.beginLoop
    rcases hresult : (world.resetIter p).readMessage env p queue with ⟨world₁, e | queue₁⟩
    · rw [hresult] at hread
      exact hread
    · rw [hresult] at hread
      exact hread.trans (ih hps.2 queue₁)

theorem Shares.beginLoop (h : world.Shares ps world') (env : Env) (hps : ∀ q ∈ order, q ∈ ps) {queue : List ℕ}
    (hqueue : ∀ q ∈ queue, q ∈ ps) :
    (world.beginLoop env order queue).1.Shares ps (world'.beginLoop env order queue).1 ∧
      (world'.beginLoop env order queue).2 = (world.beginLoop env order queue).2 ∧
      ∀ queue', (world.beginLoop env order queue).2 = .ok queue' → ∀ q ∈ queue', q ∈ ps := by
  induction order generalizing world world' queue with
  | nil => exact ⟨h, rfl, fun queue' heq => by cases heq; exact hqueue⟩
  | cons p order ih =>
    rw [List.forall_mem_cons] at hps
    have hread := (h.resetIter p).readMessage env hps.1 hqueue
    unfold World.beginLoop
    rcases hresult : (world.resetIter p).readMessage env p queue with ⟨world₁, r⟩
    rcases hresult' : (world'.resetIter p).readMessage env p queue with ⟨world₂, r'⟩
    rw [hresult, hresult'] at hread
    obtain ⟨hshares, rfl : r' = r⟩ := hread
    cases r' with
    | error e => exact ⟨hshares, rfl, fun queue' heq => by cases heq⟩
    | ok queue₁ =>
      refine ih hshares hps.2 fun q hq => ?_
      rcases mem_of_readMessage (by rw [hresult]) hq with rfl | hq
      · exact hps.1
      · exact hqueue q hq

theorem LeavesNoNull.bag (h : LeavesNoNull env world.files) {bag : Bag} (hbag : bag ∈ world.bags) (topic : Bytes) :
    env.leftFirst = false ∨ ¬ bag.FailsToParse topic := by
  refine h.imp_right fun hparses hfails => ?_
  exact hparses bag.file (List.mem_map_of_mem hbag) topic (hfails.of_file rfl)

theorem Touches.set_bag {bag bag' : Bag} (hbag : world.bags[b]? = some bag) (hfile : bag'.file = bag.file)
    (hclean : bag.Clean → bag'.Clean) : world.Touches ps { world with bags := world.bags.set b bag' } where
  files := files_set hbag hfile
  clean h := clean_set h (hclean (h bag (List.mem_of_getElem? hbag)))
  length := rfl
  wrappers _ _ := rfl

theorem Shares.set_bag (h : world.Shares ps world') {bag bag' new new' : Bag} (hbag : world.bags[b]? = some bag)
    (hbag' : world'.bags[b]? = some bag') (hfile : new.file = bag.file) (hfile' : new'.file = bag'.file)
    (hclean : new.Clean) (hclean' : new'.Clean) :
    Shares ps { world with bags := world.bags.set b new } { world' with bags := world'.bags.set b new' } where
  files := (files_set hbag' hfile').trans (h.files.trans (files_set hbag hfile).symm)
  clean := clean_set h.clean hclean
  clean' := clean_set h.clean' hclean'
  wrappers := h.wrappers

theorem Shares.msgDefForTopic (h : world.Shares ps world') (henv : LeavesNoNull env world.files)
    {bag bag' new new' : Bag} {r r' : Except Fault (Option MsgDef)} {topic : Bytes}
    (hbag : world.bags[b]? = some bag) (hbag' : world'.bags[b]? = some bag')
    (hlookup : bag.msgDefForTopic env.leftFirst topic = (new, r))
    (hlookup' : bag'.msgDefForTopic env.leftFirst topic = (new', r')) :
    r' = r ∧ Shares ps { world with bags := world.bags.set b new }
      { world' with bags := world'.bags.set b new' } := by
  have hmem := List.mem_of_getElem? hbag
  have hmem' := List.mem_of_getElem? hbag'
  have henv' : LeavesNoNull env world'.files := by rwa [h.files]
  obtain ⟨hr, hclean⟩ := (h.clean bag hmem).msgDefForTopic (henv.bag hmem topic) hlookup
  obtain ⟨hr', hclean'⟩ := (h.clean' bag' hmem').msgDefForTopic (henv'.bag hmem' topic) hlookup'
  obtain ⟨bag₁, hbag₁, hfile, -, -⟩ := h.exists_bag hbag
  rw [hbag'] at hbag₁
  cases hbag₁
  refine ⟨?_, h.set_bag hbag hbag' (Bag.file_of_msgDefForTopic hlookup) (Bag.file_of_msgDefForTopic hlookup')
    hclean hclean'⟩
  rw [hr, hr', Bag.schemaOf_of_file hfile]

theorem touches_deref (henv : LeavesNoNull env world.files) (it : Iterator) :
    world.Touches ps (it.deref env world).1 := by
  rcases it.deref_bags env world with hsame | ⟨b, bag, bag', topic, r, hbag, hdef, hworld⟩
  · rw [hsame]
    exact .refl
  · rw [hworld]
    refine .set_bag hbag (Bag.file_of_msgDefForTopic hdef) fun hclean => ?_
    exact (hclean.msgDefForTopic (henv.bag (List.mem_of_getElem? hbag) topic) hdef).2

theorem Shares.deref (h : world.Shares ps world') (henv : LeavesNoNull env world.files) {it : Iterator}
    (hit : ∀ p ∈ it.msgQueue, p ∈ ps) :
    (it.deref env world).1.Shares ps (it.deref env world').1 ∧
      (it.deref env world').2 = (it.deref env world).2 := by
  unfold Iterator.deref
  rcases hqueue : it.msgQueue with _ | ⟨p, queue⟩
  · exact ⟨h, rfl⟩
  have hw' := h.wrappers p (hit p (by simp [hqueue]))
  rcases hw : world.wrappers[p]? with _ | w
  · simp only [hw'.trans hw, hw]
    exact ⟨h, trivial⟩
  rw [hw] at hw'
  rcases hbag : world.bags[w.scan.bag]? with _ | bag
  · simp only [hw', hw, hbag, h.bag_eq_none hbag]
    exact ⟨h, trivial⟩
  obtain ⟨bag', hbag', hfile, -, -⟩ := h.exists_bag hbag
  have hconnections : bag'.connections = bag.connections := by
    have hsame : bag'.file.connections = bag.file.connections := by rw [hfile]
    exact hsame
  rcases hconnection : bag.connections[w.current.connectionId]? with _ | connection
  · simp only [hw', hw, hbag, hbag', hconnections, hconnection]
    exact ⟨h, trivial⟩
  simp only [hw', hw, hbag, hbag', hconnections, hconnection]
  rcases hdef : bag.msgDefForTopic env.leftFirst connection.topic with ⟨new, r⟩
  rcases hdef' : bag'.msgDefForTopic env.leftFirst connection.topic with ⟨new', r'⟩
  obtain ⟨rfl, hshares⟩ := h.msgDefForTopic henv hbag hbag' hdef hdef'
  cases r' with
  | error e => exact ⟨hshares, rfl⟩
  | ok schema => exact ⟨hshares, rfl⟩

theorem touches_advance {it : Iterator} (hit : ∀ p ∈ it.msgQueue, p ∈ ps) :
    world.Touches ps (it.advance env world).1.1 := by
  unfold Iterator.advance
  rcases hqueue : it.msgQueue with _ | ⟨p, queue⟩
  · exact .refl
  have hread : world.Touches ps (world.readMessage env p (env.heap.pop world.compare (p :: queue))).1 :=
    touches_readMessage (hit p (by simp [hqueue])) _
  simp only
  rcases hresult : world.readMessage env p (env.heap.pop world.compare (p :: queue)) with ⟨world₁, e | queue₁⟩ <;>
    (rw [hresult] at hread; exact hread)

theorem Shares.advance (h : world.Shares ps world') (env : Env) {it : Iterator} (hit : ∀ p ∈ it.msgQueue, p ∈ ps) :
    (it.advance env world).1.1.Shares ps (it.advance env world').1.1 ∧
      (it.advance env world').1.2 = (it.advance env world).1.2 ∧
      (it.advance env world').2 = (it.advance env world).2 ∧
      ∀ p ∈ (it.advance env world).1.2.msgQueue, p ∈ ps := by
  unfold Iterator.advance
  rcases hqueue : it.msgQueue with _ | ⟨p, queue⟩
  · exact ⟨h, rfl, rfl, fun p hp => by simp [hqueue] at hp⟩
  have hall : ∀ q ∈ p :: queue, q ∈ ps := by rwa [hqueue] at hit
  have hpop : env.heap.pop world'.compare (p :: queue) = env.heap.pop world.compare (p :: queue) :=
    env.heap.pop_congr fun x hx y hy => h.compare (hall x hx) (hall y hy)
  have hrest : ∀ q ∈ env.heap.pop world.compare (p :: queue), q ∈ ps := fun q hq =>
    hall q (List.mem_cons_of_mem _ ((env.heap.pop_perm _ _ _).mem_iff.1 hq))
  have hread := h.readMessage env (hall p List.mem_cons_self) hrest
  simp only [hpop]
  rcases hresult : world.readMessage env p (env.heap.pop world.compare (p :: queue)) with ⟨world₁, r⟩
  rcases hresult' : world'.readMessage env p (env.heap.pop world.compare (p :: queue)) with ⟨world₂, r'⟩
  rw [hresult, hresult'] at hread
  obtain ⟨hshares, rfl : r' = r⟩ := hread
  cases r' with
  | error e => exact ⟨hshares, rfl, rfl, hrest⟩
  | ok queue₁ =>
    refine ⟨hshares, rfl, rfl, fun q hq => ?_⟩
    rcases mem_of_readMessage (by rw [hresult]) hq with rfl | hq
    · exact hall q List.mem_cons_self
    · exact hrest q hq

variable {its : List Iterator}

theorem touches_call (henv : LeavesNoNull env world.files) (horder : ∀ p ∈ order, p ∈ ps)
    (hits : ∀ it ∈ its, ∀ p ∈ it.msgQueue, p ∈ ps) (c : Call) :
    world.Touches ps (Session.call env order { world, iterators := its } c).1.world := by
  cases c with
  | begin =>
    rw [Session.call_begin_world]
    have hloop : world.Touches ps (world.beginLoop env order []).1 := touches_beginLoop horder []
    unfold World.begin
    rcases hresult : world.beginLoop env order [] with ⟨world₁, e | queue⟩ <;>
      (rw [hresult] at hloop; exact hloop)
  | copy i => exact .refl
  | deref i =>
    rcases hit : its[i]? with _ | it
    · simp only [Session.call, hit]
      exact .refl
    · simp only [Session.call, hit]
      exact touches_deref henv it
  | advance i =>
    rcases hit : its[i]? with _ | it
    · simp only [Session.call, hit]
      exact .refl
    · simp only [Session.call, hit]
      exact touches_advance (hits it (List.mem_of_getElem? hit))

theorem Shares.call (h : world.Shares ps world') (henv : LeavesNoNull env world.files)
    (horder : ∀ p ∈ order, p ∈ ps) (hits : ∀ it ∈ its, ∀ p ∈ it.msgQueue, p ∈ ps) (c : Call) :
    (Session.call env order { world, iterators := its } c).1.world.Shares ps
        (Session.call env order { world := world', iterators := its } c).1.world ∧
      (Session.call env order { world := world', iterators := its } c).1.iterators =
        (Session.call env order { world, iterators := its } c).1.iterators ∧
      (Session.call env order { world := world', iterators := its } c).2 =
        (Session.call env order { world, iterators := its } c).2 ∧
      ∀ it ∈ (Session.call env order { world, iterators := its } c).1.iterators, ∀ p ∈ it.msgQueue, p ∈ ps := by
  cases c with
  | begin =>
    obtain ⟨hshares, hsame, hqueue⟩ := h.beginLoop env horder (List.forall_mem_nil (· ∈ ps))
    unfold Session.call World.begin
    rcases hresult : world.beginLoop env order [] with ⟨world₁, r⟩
    rcases hresult' : world'.beginLoop env order [] with ⟨world₂, r'⟩
    rw [hresult, hresult'] at hshares hsame
    obtain rfl : r' = r := hsame
    cases r' with
    | error e => exact ⟨hshares, rfl, rfl, hits⟩
    | ok queue =>
      refine ⟨hshares, rfl, rfl, fun it hit => ?_⟩
      rcases List.mem_append.1 hit with hit | hit
      · exact hits it hit
      · cases List.mem_singleton.1 hit
        exact hqueue queue (by rw [hresult])
  | copy i =>
    refine ⟨h, rfl, rfl, fun it hit => ?_⟩
    rcases List.mem_append.1 hit with hit | hit
    · exact hits it hit
    · exact hits it (List.mem_of_getElem? (Option.mem_toList.1 hit))
  | deref i =>
    rcases hit : its[i]? with _ | it
    · simp only [Session.call, hit]
      exact ⟨h, trivial, trivial, hits⟩
    · obtain ⟨hshares, hsame⟩ := h.deref henv (hits it (List.mem_of_getElem? hit))
      simp only [Session.call, hit, hsame]
      exact ⟨hshares, trivial, trivial, hits⟩
  | advance i =>
    rcases hit : its[i]? with _ | it
    · simp only [Session.call, hit]
      exact ⟨h, trivial, trivial, hits⟩
    · obtain ⟨hshares, hnext, hsame, hqueue⟩ := h.advance env (hits it (List.mem_of_getElem? hit))
      simp only [Session.call, hit, hnext, hsame]
      exact ⟨hshares, trivial, trivial, forall_mem_set hits hqueue⟩

end World

namespace View

variable {selection : Selection} {world world' : World} {st st' : World × View}

theorem wrapper_of_files (selection : Selection) (world : World) (p : ℕ) :
    (world.files[p]?).map (wrapper selection p) = (world.bags[p]?).map (wrapper selection p) := by
  rw [World.files, List.getElem?_map, Option.map_map]
  congr 1
  funext bag
  exact wrapper_file p bag

theorem foldl_addWrapper (selection : Selection) (st st' : World × View) (bags : List ℕ)
    (hfiles : st'.1.files = st.1.files) (hlength : st'.1.wrappers.length = st.1.wrappers.length) (hview : st'.2 = st.2) :
    ∃ new, (bags.foldl (addWrapper selection) st).1 = { st.1 with wrappers := st.1.wrappers ++ new } ∧
      (bags.foldl (addWrapper selection) st').1 = { st'.1 with wrappers := st'.1.wrappers ++ new } ∧
      (bags.foldl (addWrapper selection) st').2 = (bags.foldl (addWrapper selection) st).2 := by
  induction bags generalizing st st' with
  | nil => exact ⟨[], by simp, by simp, hview⟩
  | cons b bags ih =>
    have hmade : (st'.1.bags[b]?).map (wrapper selection b) = (st.1.bags[b]?).map (wrapper selection b) := by
      rw [← wrapper_of_files, ← wrapper_of_files, hfiles]
    have hnext := ih (addWrapper selection st b) (addWrapper selection st' b) hfiles
      (by simp only [addWrapper, List.length_append, hlength, hmade]) (by simp only [addWrapper, hview, hlength])
    obtain ⟨new, hst, hst', hsame⟩ := hnext
    refine ⟨((st.1.bags[b]?).map (wrapper selection b)).toList ++ new, ?_, ?_, hsame⟩
    · rw [List.foldl_cons, hst]
      simp only [addWrapper, List.append_assoc]
    · rw [List.foldl_cons, hst']
      simp only [addWrapper, List.append_assoc, hmade]

theorem le_of_foldl_addWrapper {n : ℕ} (bags : List ℕ) (hn : n ≤ st.1.wrappers.length)
    (hst : ∀ {b p}, st.2.bagWrappers.lookup b = some p → n ≤ p) {b p : ℕ}
    (h : (bags.foldl (addWrapper selection) st).2.bagWrappers.lookup b = some p) : n ≤ p := by
  induction bags generalizing st with
  | nil => exact hst h
  | cons c bags ih =>
    refine ih ?_ (fun {b' p'} hlookup => ?_) h
    · simp only [addWrapper, List.length_append]
      omega
    · simp only [addWrapper] at hlookup
      by_cases hne : b' = c
      · subst hne
        rw [AList.lookup_insert, Option.some.injEq] at hlookup
        omega
      · rw [AList.lookup_insert_ne hne] at hlookup
        exact hst hlookup

theorem new_of_mem_wrappers {bags : List ℕ} (hbags : ∀ b ∈ bags, b < world.bags.length) {p : ℕ}
    (hp : p ∈ (getMessages selection { bags } world).2.wrappers) :
    world.wrappers.length ≤ p ∧ p < (getMessages selection { bags } world).1.wrappers.length := by
  obtain ⟨b, hb⟩ := mem_wrappers.1 hp
  constructor
  · exact le_of_foldl_addWrapper bags le_rfl (fun h => by simp at h) hb
  · obtain ⟨bag, -, hw⟩ := (wrapped_getMessages selection hbags).wrapper hb
    exact (List.getElem?_eq_some_iff.1 hw).1

end View

/-! ### Programs -/

theorem generateSchema_bag {leftFirst : Bool} {bag : Bag} {topic : Bytes}
    (hnull : leftFirst = false ∨ ¬ bag.FailsToParse topic) (fuel : ℕ) :
    (SchemaBuilder.generateSchema leftFirst bag topic fuel).1.file = bag.file ∧
      (bag.Clean → (SchemaBuilder.generateSchema leftFirst bag topic fuel).1.Clean) := by
  rw [SchemaBuilder.generateSchema]
  split
  · exact ⟨rfl, fun h => h⟩
  rename_i htopic
  rcases hlookup : bag.msgDefForTopic leftFirst topic with ⟨bag', r⟩
  have hfile := Bag.file_of_msgDefForTopic hlookup
  have hclean : bag.Clean → bag'.Clean := fun h => (h.msgDefForTopic hnull hlookup).2
  cases r with
  | error e => exact ⟨hfile, hclean⟩
  | ok schema =>
    cases schema with
    | none => exact ⟨hfile, hclean⟩
    | some m =>
      have hmem : topic ∈ bag'.topicConnectionMap := by
        have hmap : bag'.file.topicConnectionMap = bag.file.topicConnectionMap := by rw [hfile]
        have hin : topic ∈ bag.topicConnectionMap := by simpa [Bag.topicInBag] using htopic
        exact hmap ▸ hin
      simp only [World.connectionsForTopic_eq hmem]
      exact ⟨hfile, hclean⟩

namespace Operation

/-- The bags of a new view are there, and no query asks for the connections of a topic that its bag
does not have, which would make an entry for it. -/
def Valid (files : List Bag) : Operation → Prop
  | prepare bags _ => ∀ b ∈ bags, b < files.length
  | ask (.connectionsForTopic b topic) => ∀ bag, files[b]? = some bag → topic ∈ bag.topicConnectionMap
  | _ => True

def isCall (k : ℕ) : Operation → Bool
  | call j _ => j = k
  | _ => false

def isFor (k : ℕ) : Operation → Bool
  | prepare _ _ => true
  | call j _ => j = k
  | _ => false

end Operation

namespace Program

/-- Every view has wrappers of its own, and no iterator leads to those of another view. -/
structure Separated (s : Program) : Prop where
  inside : ∀ r ∈ s.readers, ∀ p ∈ r.order, p < s.world.wrappers.length
  apart : ∀ {i j : ℕ} {r r' : Reader}, i ≠ j → s.readers[i]? = some r → s.readers[j]? = some r' →
    ∀ p ∈ r.order, p ∉ r'.order
  queues : ∀ r ∈ s.readers, ∀ it ∈ r.iterators, ∀ p ∈ it.msgQueue, p ∈ r.order

def orderOf (s : Program) (k : ℕ) : List ℕ := (s.readers[k]?).elim [] Reader.order

/-- The programs cannot be told apart by calls on view `k`. -/
structure Alike (files : List Bag) (k : ℕ) (s t : Program) : Prop where
  files : s.world.files = files
  separated : s.Separated
  shares : s.world.Shares (s.orderOf k) t.world
  wrappers : t.world.wrappers.length = s.world.wrappers.length
  readers : t.readers.length = s.readers.length
  reader : t.readers[k]? = s.readers[k]?

variable {env : Env} {shuffle : List ℕ → List ℕ} {files : List Bag} {k j : ℕ} {s t : Program}

/-! What a step makes of the views -/

theorem getElem?_snoc {α : Type} {l : List α} {a b : α} {i : ℕ} (h : (l ++ [a])[i]? = some b) :
    l[i]? = some b ∨ i = l.length ∧ b = a := by
  rw [List.getElem?_append] at h
  split_ifs at h with hi
  · exact .inl h
  · obtain ⟨hlt, hb⟩ := List.getElem?_eq_some_iff.1 h
    rw [List.length_singleton] at hlt
    refine .inr ⟨by omega, ?_⟩
    simpa using hb.symm

theorem Separated.prepare (h : s.Separated) (hshuffle : ∀ l, (shuffle l).Perm l) {bags : List ℕ}
    {selection : View.Selection} (hbags : ∀ b ∈ bags, b < s.world.bags.length) :
    (s.step env shuffle (.prepare bags selection)).1.Separated := by
  obtain ⟨new, hworld, -, -⟩ := View.foldl_addWrapper selection (s.world, { bags }) (s.world, { bags }) bags rfl rfl rfl
  have hlength : s.world.wrappers.length ≤
      (View.getMessages selection { bags } s.world).1.wrappers.length := by
    rw [View.getMessages, hworld, List.length_append]
    exact Nat.le_add_right ..
  have hnew : ∀ p ∈ shuffle (View.getMessages selection { bags } s.world).2.wrappers,
      s.world.wrappers.length ≤ p ∧ p < (View.getMessages selection { bags } s.world).1.wrappers.length :=
    fun p hp => View.new_of_mem_wrappers hbags ((hshuffle _).mem_iff.1 hp)
  refine ⟨fun r hr p hp => ?_, fun {i j r r'} hij hr hr' p hp hp' => ?_, fun r hr it hit p hp => ?_⟩
  · rcases List.mem_append.1 hr with hr | hr
    · exact (h.inside r hr p hp).trans_le hlength
    · cases List.mem_singleton.1 hr
      exact (hnew p hp).2
  · rcases getElem?_snoc hr with hr | ⟨hi, rfl⟩ <;> rcases getElem?_snoc hr' with hr' | ⟨hj, rfl⟩
    · exact h.apart hij hr hr' p hp hp'
    · have hlt := h.inside r (List.mem_of_getElem? hr) p hp
      have hle := (hnew p hp').1
      omega
    · have hlt := h.inside r' (List.mem_of_getElem? hr') p hp'
      have hle := (hnew p hp).1
      omega
    · exact hij (hi.trans hj.symm)
  · rcases List.mem_append.1 hr with hr | hr
    · exact h.queues r hr it hit p hp
    · cases List.mem_singleton.1 hr
      cases hit

theorem order_of_set {readers : List Reader} {r r' : Reader} {its : List Iterator} {i : ℕ}
    (hr : readers[j]? = some r) (h : (readers.set j { r with iterators := its })[i]? = some r') :
    ∃ r₀, readers[i]? = some r₀ ∧ r₀.order = r'.order := by
  by_cases hij : i = j
  · subst hij
    rw [List.getElem?_set_self (List.getElem?_eq_some_iff.1 hr).1] at h
    cases h
    exact ⟨r, hr, rfl⟩
  · rw [List.getElem?_set_ne (Ne.symm hij)] at h
    exact ⟨r', h, rfl⟩

theorem Separated.set (h : s.Separated) {world : World} {r : Reader} {its : List Iterator}
    (hr : s.readers[j]? = some r) (hlength : world.wrappers.length = s.world.wrappers.length)
    (hits : ∀ it ∈ its, ∀ p ∈ it.msgQueue, p ∈ r.order) :
    Separated { world, readers := s.readers.set j { r with iterators := its } } where
  inside r' hr' p hp := by
    obtain ⟨i, hi⟩ := List.mem_iff_getElem?.1 hr'
    obtain ⟨r₀, hr₀, horder⟩ := order_of_set hr hi
    rw [hlength]
    exact h.inside r₀ (List.mem_of_getElem? hr₀) p (horder ▸ hp)
  apart hij hr' hr'' p hp hp' := by
    obtain ⟨r₀, hr₀, horder⟩ := order_of_set hr hr'
    obtain ⟨r₁, hr₁, horder'⟩ := order_of_set hr hr''
    exact h.apart hij hr₀ hr₁ p (horder ▸ hp) (horder' ▸ hp')
  queues r' hr' it hit p hp := by
    rcases List.mem_or_eq_of_mem_set hr' with hr' | rfl
    · exact h.queues r' hr' it hit p hp
    · exact hits it hit p hp

theorem orderOf_of_getElem? {r : Reader} (h : s.readers[k]? = some r) : s.orderOf k = r.order := by
  rw [orderOf, h]
  rfl

/-! Operations on both programs, and operations on one -/

theorem Alike.prepare (hsame : Alike files k s t) (hshuffle : ∀ l, (shuffle l).Perm l) {bags : List ℕ}
    {selection : View.Selection} (hbags : ∀ b ∈ bags, b < files.length) :
    Alike files k (s.step env shuffle (.prepare bags selection)).1
      (t.step env shuffle (.prepare bags selection)).1 := by
  have hvalid : ∀ b ∈ bags, b < s.world.bags.length := by
    intro b hb
    have hlt := hbags b hb
    rwa [← hsame.files, World.files, List.length_map] at hlt
  obtain ⟨new, hs, ht, hview⟩ := View.foldl_addWrapper selection (s.world, { bags }) (t.world, { bags }) bags
    hsame.shares.files hsame.wrappers rfl
  have hworld : (View.getMessages selection { bags } s.world).1 =
      { s.world with wrappers := s.world.wrappers ++ new } := hs
  have hworld' : (View.getMessages selection { bags } t.world).1 =
      { t.world with wrappers := t.world.wrappers ++ new } := ht
  have hsameView : (View.getMessages selection { bags } t.world).2 =
      (View.getMessages selection { bags } s.world).2 := hview
  have hreader : ∀ (u : Program), (u.step env shuffle (.prepare bags selection)).1.readers =
      u.readers ++ [{ order := shuffle (View.getMessages selection { bags } u.world).2.wrappers }] := fun u => rfl
  have hget : (t.step env shuffle (.prepare bags selection)).1.readers[k]? =
      (s.step env shuffle (.prepare bags selection)).1.readers[k]? := by
    rw [hreader, hreader, hsameView, List.getElem?_append, List.getElem?_append, hsame.readers, hsame.reader]
  have hold : ∀ p < s.world.wrappers.length, (t.world.wrappers ++ new)[p]? = t.world.wrappers[p]? ∧
      (s.world.wrappers ++ new)[p]? = s.world.wrappers[p]? := by
    intro p hp
    exact ⟨List.getElem?_append_left (by rwa [hsame.wrappers]), List.getElem?_append_left hp⟩
  refine ⟨?_, hsame.separated.prepare hshuffle hvalid, ⟨?_, ?_, ?_, fun p hp => ?_⟩, ?_, ?_, hget⟩
  · exact (congrArg World.files hworld).trans hsame.files
  · exact (congrArg World.files hworld').trans (hsame.shares.files.trans (congrArg World.files hworld).symm)
  · intro bag hbag
    exact hsame.shares.clean bag ((congrArg World.bags hworld) ▸ hbag)
  · intro bag hbag
    exact hsame.shares.clean' bag ((congrArg World.bags hworld') ▸ hbag)
  · show (View.getMessages selection { bags } t.world).1.wrappers[p]? =
      (View.getMessages selection { bags } s.world).1.wrappers[p]?
    rw [hworld, hworld']
    by_cases hlt : p < s.world.wrappers.length
    · rw [(hold p hlt).1, (hold p hlt).2]
      refine hsame.shares.wrappers p ?_
      -- the pointer is old, so the view is not the new one
      rcases hk : (s.step env shuffle (.prepare bags selection)).1.readers[k]? with _ | r
      · rw [orderOf, hk] at hp
        cases hp
      rw [orderOf_of_getElem? hk] at hp
      rcases getElem?_snoc hk with hk | ⟨-, rfl⟩
      · rwa [orderOf_of_getElem? hk]
      · have hle := (View.new_of_mem_wrappers hvalid ((hshuffle _).mem_iff.1 hp)).1
        omega
    · rw [List.getElem?_append_right (by rw [hsame.wrappers]; omega), List.getElem?_append_right (by omega),
        hsame.wrappers]
  · show (View.getMessages selection { bags } t.world).1.wrappers.length =
      (View.getMessages selection { bags } s.world).1.wrappers.length
    rw [hworld, hworld', List.length_append, List.length_append, hsame.wrappers]
  · rw [hreader, hreader, List.length_append, List.length_append, hsame.readers]
    rfl

theorem step_call {r : Reader} (hr : s.readers[j]? = some r) (c : Call) :
    s.step env shuffle (.call j c) =
      ({ world := (Session.call env r.order { world := s.world, iterators := r.iterators } c).1.world
         readers := s.readers.set j { r with
           iterators := (Session.call env r.order { world := s.world, iterators := r.iterators } c).1.iterators } },
        .message (Session.call env r.order { world := s.world, iterators := r.iterators } c).2) := by
  simp only [step, hr]

theorem step_call_none (hr : s.readers[j]? = none) (c : Call) :
    s.step env shuffle (.call j c) = (s, .message (.ok none)) := by
  simp only [step, hr]

/-- Calls on the view are answered alike, and leave the programs alike. -/
theorem Alike.call (hsame : Alike files k s t) (hnull : World.LeavesNoNull env files) (c : Call) :
    Alike files k (s.step env shuffle (.call k c)).1 (t.step env shuffle (.call k c)).1 ∧
      (t.step env shuffle (.call k c)).2 = (s.step env shuffle (.call k c)).2 := by
  rcases hr : s.readers[k]? with _ | r
  · rw [step_call_none hr, step_call_none (hsame.reader.trans hr)]
    exact ⟨hsame, rfl⟩
  have hr' : t.readers[k]? = some r := hsame.reader.trans hr
  rw [step_call hr, step_call hr']
  have hnull' : World.LeavesNoNull env s.world.files := by rwa [hsame.files]
  have hnull'' : World.LeavesNoNull env t.world.files := by rwa [hsame.shares.files]
  have hits := hsame.separated.queues r (List.mem_of_getElem? hr)
  have hshares := hsame.shares
  rw [orderOf_of_getElem? hr] at hshares
  have htouches := World.touches_call hnull' (fun p hp => hp) hits c
  have htouches' := World.touches_call hnull'' (fun p hp => hp) hits c
  obtain ⟨hworlds, hiterators, hreply, hinside⟩ := hshares.call hnull' (fun p hp => hp) hits c
  refine ⟨⟨htouches.files.trans hsame.files, hsame.separated.set hr htouches.length hinside, ?_, ?_, ?_, ?_⟩,
    congrArg Reply.message hreply⟩
  · have hget := List.getElem?_set_self (a := { r with iterators := (Session.call env r.order
      { world := s.world, iterators := r.iterators } c).1.iterators }) (List.getElem?_eq_some_iff.1 hr).1
    rw [orderOf_of_getElem? hget]
    exact hworlds
  · exact htouches'.length.trans (hsame.wrappers.trans htouches.length.symm)
  · simp only [List.length_set, hsame.readers]
  · simp only
    rw [List.getElem?_set_self (List.getElem?_eq_some_iff.1 hr).1,
      List.getElem?_set_self (List.getElem?_eq_some_iff.1 hr').1, hiterators]

/-- An operation that does not touch the wrappers of the view is not seen. -/
theorem Alike.touches (hsame : Alike files k s t) {s' : Program} {ps : List ℕ}
    (htouches : s.world.Touches ps s'.world) (happart : ∀ p ∈ s.orderOf k, p ∉ ps) (hseparated : s'.Separated)
    (hreaders : s'.readers.length = s.readers.length) (hreader : s'.readers[k]? = s.readers[k]?) :
    Alike files k s' t where
  files := htouches.files.trans hsame.files
  separated := hseparated
  shares := by
    have horder : s'.orderOf k = s.orderOf k := by rw [orderOf, hreader, orderOf]
    rw [horder]
    exact hsame.shares.touches htouches happart
  wrappers := hsame.wrappers.trans htouches.length.symm
  readers := hsame.readers.trans hreaders.symm
  reader := hsame.reader.trans hreader.symm

theorem Alike.call_other (hsame : Alike files k s t) (hnull : World.LeavesNoNull env files) (hjk : j ≠ k)
    (c : Call) : Alike files k (s.step env shuffle (.call j c)).1 t := by
  rcases hr : s.readers[j]? with _ | r
  · rw [step_call_none hr]
    exact hsame
  rw [step_call hr]
  have hnull' : World.LeavesNoNull env s.world.files := by rwa [hsame.files]
  have hits := hsame.separated.queues r (List.mem_of_getElem? hr)
  have htouches := World.touches_call hnull' (fun p hp => hp) hits c
  have hself : s.world.Shares r.order s.world := ⟨rfl, hsame.shares.clean, hsame.shares.clean, fun _ _ => rfl⟩
  have hinside := (hself.call hnull' (fun p hp => hp) hits c).2.2.2
  refine hsame.touches htouches (fun p hp => ?_) (hsame.separated.set hr htouches.length hinside)
    List.length_set (List.getElem?_set_ne hjk)
  rcases hk : s.readers[k]? with _ | r'
  · rw [orderOf, hk] at hp
    cases hp
  · rw [orderOf_of_getElem? hk] at hp
    exact hsame.separated.apart (Ne.symm hjk) hk hr p hp

theorem Separated.of_world (h : s.Separated) {world : World}
    (hlength : world.wrappers.length = s.world.wrappers.length) : Separated { s with world } where
  inside r hr p hp := hlength ▸ h.inside r hr p hp
  apart := h.apart
  queues := h.queues

theorem Alike.getSchema (hsame : Alike files k s t) (hnull : World.LeavesNoNull env files) (b : ℕ) (topic : Bytes)
    (fuel : ℕ) : Alike files k (s.step env shuffle (.getSchema b topic fuel)).1 t := by
  simp only [step]
  rcases hbag : s.world.bags[b]? with _ | bag
  · exact hsame
  have hnull' : World.LeavesNoNull env s.world.files := by rwa [hsame.files]
  have hbag' := hnull'.bag (List.mem_of_getElem? hbag)
  have htouches : s.world.Touches []
      { s.world with bags := s.world.bags.set b (SchemaBuilder.generateSchema env.leftFirst bag topic fuel).1 } := by
    obtain ⟨hfile, hclean⟩ := generateSchema_bag (hbag' topic) fuel
    exact .set_bag hbag hfile hclean
  exact hsame.touches htouches (by simp) (hsame.separated.of_world rfl) rfl rfl

theorem Alike.ask (hsame : Alike files k s t) {q : Query} (hq : (Operation.ask q).Valid files) :
    Alike files k (s.step env shuffle (.ask q)).1 t := by
  have hknows : s.world.Knows q := by
    cases q with
    | connectionsForTopic b topic =>
      intro hb
      refine ⟨_, List.getElem?_eq_getElem hb, ?_⟩
      have hmem := hq (s.world.bags[b]).file (by rw [← hsame.files, files_getElem? (List.getElem?_eq_getElem hb)])
      exact hmem
    | _ => trivial
  have hworld : (s.step env shuffle (.ask q)).1 = s := by
    simp only [step, World.ask_of_knows hknows]
  rw [hworld]
  exact hsame

/-- Of the operations of a program, a view answers to those that are its own. -/
theorem unwinding (hshuffle : ∀ l, (shuffle l).Perm l) (hnull : World.LeavesNoNull env files) (k : ℕ) :
    Unwinding (step env shuffle) (Operation.Valid files) (Operation.isFor k) (Operation.isCall k)
      (Alike files k) where
  keep_of_watch {o} hwatch := by
    cases o with
    | call j c => exact hwatch
    | _ => cases hwatch
  kept {s t o} hsame hvalid hkeep := by
    cases o with
    | prepare bags selection => exact hsame.prepare hshuffle hvalid
    | call j c =>
      obtain rfl : j = k := by simpa [Operation.isFor] using hkeep
      exact (hsame.call hnull c).1
    | getSchema => cases hkeep
    | ask => cases hkeep
  dropped {s t o} hsame hvalid hkeep := by
    cases o with
    | prepare => cases hkeep
    | call j c => exact hsame.call_other hnull (by simpa [Operation.isFor] using hkeep) c
    | getSchema b topic fuel => exact hsame.getSchema hnull b topic fuel
    | ask q => exact hsame.ask hvalid
  watched {s t o} hsame hvalid hwatch := by
    cases o with
    | call j c =>
      obtain rfl : j = k := by simpa [Operation.isCall] using hwatch
      exact (hsame.call hnull c).2.symm
    | _ => cases hwatch

theorem alike_start {world : World} (hclean : ∀ bag ∈ world.bags, bag.Clean) (k : ℕ) :
    Alike world.files k { world } { world } where
  files := rfl
  separated := ⟨by simp, fun _ hr => by simp at hr, by simp⟩
  shares := ⟨rfl, hclean, hclean, fun _ _ => rfl⟩
  wrappers := rfl
  readers := rfl
  reader := rfl

/-- What the views of a program in a process with one context are kept in. -/
structure Shared (env : SharedEnv) (AtBoundary : env.lz4.Context → Prop) (files : List Bag) (k : ℕ)
    (st : env.lz4.Context × Program) : Prop where
  context : AtBoundary st.1
  alike : ∃ t, Alike files k st.2 t

/-- Where all chunks end with frames, an operation does what it does with new contexts. -/
theorem Shared.step {env : SharedEnv} {AtBoundary : env.lz4.Context → Prop} {IsFrame : Bytes → Bytes → Prop}
    (hlz4 : env.lz4.Documented AtBoundary IsFrame) (hshuffle : ∀ l, (shuffle l).Perm l)
    (hnull : World.LeavesNoNull env.own files) (hends : ∀ bag ∈ files, bag.EndsWithFrames IsFrame)
    {st : env.lz4.Context × Program} (h : Shared env AtBoundary files k st) {o : Operation} (ho : o.Valid files) :
    Shared env AtBoundary files k (stepShared env shuffle st o).1 ∧
      st.2.step env.own shuffle o = ((stepShared env shuffle st o).1.2, (stepShared env shuffle st o).2) := by
  obtain ⟨t, halike⟩ := h.alike
  have hnext := (unwinding hshuffle hnull k).exists_related halike ho
  cases o with
  | prepare bags selection => exact ⟨⟨h.context, hnext⟩, rfl⟩
  | getSchema b topic fuel => exact ⟨⟨h.context, hnext⟩, rfl⟩
  | ask q => exact ⟨⟨h.context, hnext⟩, rfl⟩
  | call j c =>
    rcases hr : st.2.readers[j]? with _ | r
    · rw [step_call_none hr]
      simp only [stepShared, hr]
      exact ⟨h, trivial⟩
    rw [step_call hr] at hnext ⊢
    have hworld : st.2.world.EndsWithFrames IsFrame r.order :=
      World.endsWithFrames_of_files (fun bag hbag => hends bag (halike.files ▸ hbag)) r.order
    have hsession : ({ world := st.2.world, iterators := r.iterators } : Session).EndsWithFrames IsFrame r.order :=
      ⟨hworld, halike.separated.queues r (List.mem_of_getElem? hr)⟩
    obtain ⟨hcontext, hcall, -⟩ := SharedEnv.callShared_spec hlz4 h.context hsession c
    rw [← hcall] at hnext ⊢
    simp only [stepShared, hr]
    exact ⟨⟨hcontext, hnext⟩, trivial⟩

/-- Whatever else a program does with the bags between the calls on a view, the calls return and throw
what they do when the program does nothing else. -/
theorem answers_alone {env : SharedEnv} {AtBoundary : env.lz4.Context → Prop} {IsFrame : Bytes → Bytes → Prop}
    (hlz4 : env.lz4.Documented AtBoundary IsFrame) {context : env.lz4.Context} (hcontext : AtBoundary context)
    {world : World} (hends : ∀ bag ∈ world.files, bag.EndsWithFrames IsFrame)
    (hclean : ∀ bag ∈ world.bags, bag.Clean) (hnull : World.LeavesNoNull env.own world.files)
    (hshuffle : ∀ l, (shuffle l).Perm l) {ops : List Operation} (hvalid : ∀ o ∈ ops, o.Valid world.files) (k : ℕ) :
    (answers (stepShared env shuffle) (context, { world }) ops).filter (fun a => a.1.isCall k) =
      (answers (stepShared env shuffle) (context, { world }) (ops.filter (Operation.isFor k))).filter
        (fun a => a.1.isCall k) := by
  have hstart : Shared env AtBoundary world.files k (context, { world }) :=
    ⟨hcontext, _, alike_start hclean k⟩
  have hown : ∀ {os : List Operation}, (∀ o ∈ os, o.Valid world.files) →
      answers (stepShared env shuffle) (context, { world }) os = answers (step env.own shuffle) { world } os :=
    fun hos => answers_eq_of_simulates Prod.snd (fun h ho => h.step hlz4 hshuffle hnull hends ho) hstart hos
  rw [hown hvalid, hown fun o ho => hvalid o (List.mem_filter.1 ho).1]
  exact (unwinding hshuffle hnull k).answers_filter (alike_start hclean k) hvalid

theorem clean_bag (f : BagFile) : f.bag.Clean := by
  obtain ⟨bag, hbag, hopened⟩ := f.exists_opened
  rw [f.ofBytes_bag] at hbag
  cases hbag
  intro topic schema hlookup
  rw [hopened.schemata, AList.lookup_empty] at hlookup
  cases hlookup

def sampleOperations : List Operation :=
  [.prepare [0] .all, .prepare [0] (.topics [bytes "/a"]), .call 0 .begin, .call 1 .begin,
    .getSchema 0 (bytes "/a") 2, .call 1 (.deref 0), .call 0 (.deref 0), .call 1 (.advance 0), .call 0 (.advance 0)]

theorem valid_sampleOperations : ∀ o ∈ sampleOperations, o.Valid (World.files { bags := [framedBag.bag] }) := by
  have hlength : (World.files { bags := [framedBag.bag] }).length = 1 := rfl
  simp [sampleOperations, Operation.Valid, hlength]

theorem answers_alone_sample :
    (answers (stepShared { sampleShared with leftFirst := false } id)
        (sampleShared.lz4.created, { world := { bags := [framedBag.bag] } }) sampleOperations).filter
          (fun a => a.1.isCall 0) =
      (answers (stepShared { sampleShared with leftFirst := false } id)
        (sampleShared.lz4.created, { world := { bags := [framedBag.bag] } })
        [.prepare [0] .all, .prepare [0] (.topics [bytes "/a"]), .call 0 .begin, .call 0 (.deref 0),
          .call 0 (.advance 0)]).filter (fun a => a.1.isCall 0) := by
  refine @answers_alone id { sampleShared with leftFirst := false } _ IsSampleFrame documented_sampleShared _
    documented_sampleShared.created { bags := [framedBag.bag] } ?_ ?_ (.inl rfl) List.Perm.refl _
    valid_sampleOperations 0
  · intro bag hbag
    have heq : bag = framedBag.bag.file := List.mem_singleton.1 hbag
    rw [heq]
    exact endsWithFrames_framedBag
  · intro bag hbag
    have heq : bag = framedBag.bag := List.mem_singleton.1 hbag
    rw [heq]
    exact clean_bag framedBag.toBagFile

end Program

end Embag
