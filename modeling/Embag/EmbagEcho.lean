import Embag.Library.Logs
import Embag.TypedBags
import Embag.ViewTimes

/-! The program `embag_echo`: it opens bags and prints their messages. What it prints of bags is
what was published into them. -/

namespace Embag

open Log Loops Merge

structure EchoOptions where
  help : Bool := false
  topic : Option (List Bytes) := none
  bag : Option (List Bytes) := none

/-- What the program finds where it runs: its libraries, the files, and the order of a hash map. -/
structure EchoEnv extends Env where
  text : TextEnv
  usage : Bytes
  file : Bytes → Except Fault Bytes
  shuffle : List ℕ → List ℕ
  shuffle_perm : ∀ ps, (shuffle ps).Perm ps

namespace EmbagEcho

def number (n : UInt32) : Bytes := bytes (toString n.toNat)

variable (env : EchoEnv)

/-- `view.addBag(filename)`, announced -/
def openBag (world : World) (filename : Bytes) : Log Bytes Fault World := do
  tell (bytes "Opening " ++ filename ++ endl)
  let bag ← silent (env.file filename >>= Bag.ofBytes)
  return { world with bags := world.bags ++ [bag] }

/-- The body of the loops over the messages. -/
def printMessage (fuel : ℕ) (message : RosMessage) : Log Bytes Fault Unit := do
  tell (number message.timestamp.secs ++ bytes "." ++ number message.timestamp.nsecs ++ bytes " : " ++
    message.topic ++ endl)
  match ((MessageObject.mk message none).call env.text fuel .print).2 with
  | .ok (.printed text) => tell text
  | .ok _ => pure ()
  | .error e => silent (.error e)

/-- The loops over the messages, of at most so many turns; `fuel` is that of a message. -/
def printMessages (fuel : ℕ) : ℕ → World × Iterator → Log Bytes Fault Unit
  | 0, _ => silent (.error .outOfFuel)
  | turns + 1, (world, it) =>
    if it.atEnd then pure ()
    else
      match it.deref env.toEnv world with
      | (_, .error e) => silent (.error e)
      | (world, .ok message) => do
        printMessage env fuel message
        match it.advance env.toEnv world with
        | (_, .error e) => silent (.error e)
        | (st, .ok _) => printMessages fuel turns st

/-- `-t` makes a selection of topics, and no `-t` one of everything. -/
def selection (options : EchoOptions) : View.Selection := options.topic.elim .all .topics

def main (fuel : ℕ) (options : EchoOptions) : Log Bytes Fault ℕ := do
  if options.help then
    tell (env.usage ++ endl)
    return 0
  match options.bag with
  | none =>
    tell (bytes "You must specify at least one bag file." ++ endl)
    return 1
  | some filenames =>
    let world ← filenames.foldlM (openBag env) { bags := [] }
    let view : View := { bags := List.range world.bags.length }
    let startTime ← silent (view.getStartTime world)
    let endTime ← silent (view.getEndTime world)
    tell (bytes "Start time is " ++ number startTime.secs ++ bytes "." ++ number startTime.nsecs ++ endl)
    tell (bytes "End time is " ++ number endTime.secs ++ bytes "." ++ number endTime.nsecs ++ endl)
    let (world, view) := view.getMessages (selection options) world
    match world.begin env.toEnv (env.shuffle view.wrappers) with
    | (_, .error e) => silent (.error e)
    | (world, .ok it) =>
      printMessages env fuel fuel (world, it)
      return 0

def line (text : Bytes) : Bytes := text ++ [10]

def decimals (t : TimeValue) : Bytes := bytes (toString t.secs.toNat ++ "." ++ toString t.nsecs.toNat)

def echoed (x : Published) : Bytes :=
  line (decimals x.time ++ bytes " : " ++ x.topic) ++ messageText env.text x.definition x.values

def startTimes (files : List StoredBag) : List TimeValue :=
  files.filterMap fun f => f.infos.head?.map FileChunkInfo.startTime

def endTimes (files : List StoredBag) : List TimeValue :=
  files.filterMap fun f => f.infos.getLast?.map FileChunkInfo.endTime

theorem bytes_append (s t : String) : bytes (s ++ t) = bytes s ++ bytes t := by
  rw [bytes, String.toList_append, List.map_append]
  rfl

theorem number_eq (t : TimeValue) : number t.secs ++ bytes "." ++ number t.nsecs = decimals t := by
  rw [decimals, bytes_append, bytes_append]
  rfl

theorem endl_eq : endl = [10] := rfl

variable {env}

theorem writes_openBag {filename : Bytes} {bag : Bag} (h : (env.file filename >>= Bag.ofBytes) = .ok bag)
    (world : World) : (openBag env world filename).Writes (line (bytes "Opening " ++ filename))
      { world with bags := world.bags ++ [bag] } := by
  have hopen := (Writes.tell (ε := Fault) (line (bytes "Opening " ++ filename))).bind
    (f := fun _ => silent (env.file filename >>= Bag.ofBytes) >>= fun bag =>
      pure { world with bags := world.bags ++ [bag] })
    ((Writes.silent h).bind (.pure { world with bags := world.bags ++ [bag] }))
  rwa [List.append_nil, List.append_nil] at hopen

theorem writes_openBags {filenames : List Bytes} {files : List StoredBag}
    (h : List.Forall₂ (fun filename (f : StoredBag) => env.file filename = .ok f.encode) filenames files)
    (world : World) : (filenames.foldlM (openBag env) world).Writes
      (filenames.flatMap fun filename => line (bytes "Opening " ++ filename))
      { world with bags := world.bags ++ files.map fun f => f.bag } := by
  induction h generalizing world with
  | nil =>
    rw [List.map_nil, List.append_nil]
    exact .pure world
  | @cons filename f filenames files hfile _ ih =>
    have hbag : (env.file filename >>= Bag.ofBytes) = .ok f.bag := by
      rw [hfile, ok_bind, f.ofBytes_bag]
    rw [List.foldlM_cons, List.flatMap_cons, List.map_cons, List.append_cons]
    exact (writes_openBag hbag world).bind (ih _)

theorem openedFrom_bags (files : List StoredBag) (wrappers : List BagWrapper) :
    World.OpenedFrom (files.map StoredBag.toBagFile) { bags := files.map fun f => f.bag, wrappers } := by
  unfold World.OpenedFrom
  rw [List.forall₂_map_left_iff, List.forall₂_map_right_iff, List.forall₂_same]
  exact fun f _ => f.opens_bag

theorem filterMap_range_getElem? {α β : Type} (l : List α) (g : α → Option β) :
    ((List.range l.length).filterMap fun i => l[i]?.bind g) = l.filterMap g := by
  induction l using List.reverseRecOn with
  | nil => rfl
  | append_singleton l a ih =>
    rw [List.length_append, List.length_singleton, List.range_succ, List.filterMap_append,
      List.filterMap_append, ← ih]
    congr 1
    · refine List.filterMap_congr fun i hi => ?_
      rw [List.getElem?_append_left (List.mem_range.1 hi)]
    · simp only [List.filterMap_cons, List.filterMap_nil, List.getElem?_concat_length, Option.bind_some]

theorem map_chunks {f : StoredBag} {bag : Bag} (h : f.Opens bag) {time : Chunk → TimeValue}
    {time' : FileChunkInfo → TimeValue} (htime : ∀ x c, time (f.chunk x c) = time' x) :
    bag.chunks.map time = f.infos.map time' := by
  have hchunks : List.Forall₂ f.IsChunk f.infos bag.chunks := h.opened.chunks
  generalize bag.chunks = chunks, f.infos = infos at hchunks
  induction hchunks with
  | nil => rfl
  | cons hx _ ih =>
    obtain ⟨c, -, rfl⟩ := hx
    rw [List.map_cons, List.map_cons, htime, ih]

theorem timeOverBags_eq {files : List StoredBag} {wrappers : List BagWrapper} {pick : List Chunk → Option Chunk}
    (pick' : List FileChunkInfo → Option FileChunkInfo) {time : Chunk → TimeValue}
    {time' : FileChunkInfo → TimeValue}
    (hpick : ∀ f ∈ files, (pick f.bag.chunks).map time = (pick' f.infos).map time')
    (hsome : ∀ f ∈ files, (pick' f.infos).isSome) (join : TimeValue → TimeValue → TimeValue) (limit : TimeValue) :
    View.timeOverBags { bags := List.range files.length } { bags := files.map fun f => f.bag, wrappers } pick
        (fun t chunk => join t (time chunk)) limit =
      .ok ((files.filterMap fun f => (pick' f.infos).map time').foldl join limit) := by
  rw [View.timeOverBags_of_picked]
  · have hrange := filterMap_range_getElem? (files.map fun f => f.bag) fun bag => pick bag.chunks
    rw [List.length_map] at hrange
    have hpicked : ∀ b, View.picked { bags := files.map fun f => f.bag, wrappers } pick b =
        (files.map fun f => f.bag)[b]?.bind fun bag => pick bag.chunks := fun b => rfl
    simp only [hpicked, hrange, List.filterMap_map, List.map_filterMap, Function.comp_apply]
    rw [List.filterMap_congr hpick]
  · intro b hb
    have hlt : b < files.length := List.mem_range.1 hb
    have hmem : files[b] ∈ files := List.getElem_mem hlt
    have hsome' := hsome _ hmem
    rw [← Option.isSome_map (f := time'), ← hpick _ hmem, Option.isSome_map] at hsome'
    obtain ⟨chunk, hchunk⟩ := Option.isSome_iff_exists.1 hsome'
    refine ⟨chunk, ?_⟩
    rw [View.picked, List.getElem?_map, List.getElem?_eq_getElem hlt]
    exact hchunk

theorem getStartTime_eq {files : List StoredBag} (hchunks : ∀ f ∈ files, f.infos ≠ [])
    (wrappers : List BagWrapper) :
    View.getStartTime { bags := List.range files.length } { bags := files.map fun f => f.bag, wrappers } =
      .ok ((startTimes files).foldl View.earlier ⟨4294967295, 4294967295⟩) := by
  refine timeOverBags_eq List.head? (fun f hf => ?_) (fun f hf => ?_) View.earlier _
  · rw [← List.head?_map, ← List.head?_map, map_chunks f.opens_bag fun _ _ => rfl]
  · exact List.isSome_head?.2 (hchunks f hf)

theorem getEndTime_eq {files : List StoredBag} (hchunks : ∀ f ∈ files, f.infos ≠ [])
    (wrappers : List BagWrapper) :
    View.getEndTime { bags := List.range files.length } { bags := files.map fun f => f.bag, wrappers } =
      .ok ((endTimes files).foldl View.later ⟨0, 0⟩) := by
  refine timeOverBags_eq List.getLast? (fun f hf => ?_) (fun f hf => ?_) View.later _
  · rw [← List.getLast?_map, ← List.getLast?_map, map_chunks f.opens_bag fun _ _ => rfl]
  · exact List.getLast?_isSome.2 (hchunks f hf)

theorem writes_printMessage {m : RosMessage} {x : Published} (h : m.Carries x) {fuel : ℕ}
    (hdepth : depthList x.values < fuel) (hheight : heightList x.values < fuel) :
    (printMessage env fuel m).Writes (echoed env x) () := by
  obtain ⟨values, hparse, -, hanswers⟩ := h.holds.exists_values env.text x.resolved x.distinct hdepth hheight
  have hnew : (MessageObject.mk m none).Sound fuel := fun values hvalues => by cases hvalues
  obtain ⟨hreply, -⟩ := hnew.call env.text .print
  rw [hparse, hanswers] at hreply
  rw [printMessage, hreply, h.topic, h.timestamp, number_eq, endl_eq]
  exact (Writes.tell _).bind (.tell _)

theorem writes_printMessages {st st' : World × Iterator} {out : List (ℕ × RosMessage)}
    {merged : List (ℕ × Published)} (hsteps : Steps env.toEnv st out st') (hend : st'.2.atEnd)
    (hcarries : List.Forall₂ (fun x y => y.1 = x.1 ∧ x.2.Carries y.2) out merged) {fuel turns : ℕ}
    (hfuel : ∀ y ∈ merged, depthList y.2.values < fuel ∧ heightList y.2.values < fuel)
    (hturns : merged.length < turns) :
    (printMessages env fuel turns st).Writes (merged.flatMap fun y => echoed env y.2) () := by
  obtain ⟨turns, rfl⟩ : ∃ k, turns = k + 1 := ⟨turns - 1, by omega⟩
  induction hsteps generalizing merged turns with
  | @refl st =>
    cases hcarries
    rw [printMessages, if_pos hend]
    exact .pure ()
  | @step world world' it m st st' out hderef hadvance _ ih =>
    obtain ⟨y, rest, ⟨-, hy⟩, hrest, rfl⟩ := List.forall₂_cons_left_iff.1 hcarries
    rw [List.forall_mem_cons] at hfuel
    obtain ⟨turns, rfl⟩ : ∃ k, turns = k + 1 := ⟨turns - 1, by rw [List.length_cons] at hturns; omega⟩
    have hne : ¬ it.atEnd := by
      obtain ⟨p, queue, _, _, _, hqueue, -⟩ := Iterator.deref_ok hderef
      simp [Iterator.atEnd, hqueue]
    rw [printMessages, if_neg hne]
    simp only [hderef, hadvance, List.flatMap_cons]
    exact (writes_printMessage hy hfuel.1.1 hfuel.1.2).bind
      (ih hend hrest hfuel.2 turns (by rw [List.length_cons] at hturns; omega))

theorem selection_eq_topics {options : EchoOptions} {topics : List Bytes} (h : selection options = .topics topics) :
    options.topic = some topics := by
  unfold selection at h
  rcases htopic : options.topic with _ | asked
  · rw [htopic] at h
    cases h
  · rw [htopic] at h
    cases h
    rfl

theorem isExtreme_foldl {le : TimeValue → TimeValue → Prop} {join : TimeValue → TimeValue → TimeValue}
    {limit : TimeValue} (h : Extremum le join limit) (times : List TimeValue) :
    IsExtreme le limit (times.foldl join limit) times :=
  (h.isExtreme_iff (List.Subset.refl _) fun hnil => hnil).2 fun t ht => ⟨t, ht, h.refl t⟩

theorem writes_main {options : EchoOptions} {filenames : List Bytes} {files : List StoredBag}
    (hhelp : options.help = false) (hbag : options.bag = some filenames)
    (hfiles : List.Forall₂ (fun filename (f : StoredBag) => env.file filename = .ok f.encode) filenames files)
    {startTime endTime : TimeValue}
    (hstart : View.getStartTime { bags := List.range files.length } { bags := files.map fun f => f.bag } =
      .ok startTime)
    (hend : View.getEndTime { bags := List.range files.length } { bags := files.map fun f => f.bag } = .ok endTime)
    {world : World} {view : View} {st : World × Iterator}
    (hprepared : View.getMessages (selection options) { bags := List.range files.length }
      { bags := files.map fun f => f.bag } = (world, view))
    (hbegin : world.begin env.toEnv (env.shuffle view.wrappers) = (st.1, .ok st.2)) {fuel : ℕ} {text : Bytes}
    (hprint : (printMessages env fuel fuel st).Writes text ()) :
    (main env fuel options).Writes (filenames.flatMap (fun filename => line (bytes "Opening " ++ filename)) ++
      (line (bytes "Start time is " ++ decimals startTime) ++
        (line (bytes "End time is " ++ decimals endTime) ++ text))) 0 := by
  have hopen := writes_openBags hfiles { bags := [] }
  rw [List.nil_append] at hopen
  have hlines : ∀ (t : TimeValue) (label : Bytes), label ++ number t.secs ++ bytes "." ++ number t.nsecs ++ endl =
      line (label ++ decimals t) := by
    intro t label
    rw [← number_eq, line, endl_eq]
    simp only [List.append_assoc]
  unfold main
  rw [if_neg (by simp [hhelp])]
  simp only [hbag, hlines]
  refine hopen.bind ?_
  simp only [List.length_map]
  refine (Writes.silent hstart).bind ((Writes.silent hend).bind ?_)
  refine (Writes.tell _).bind ((Writes.tell _).bind ?_)
  simp only [hprepared, hbegin]
  rw [← List.append_nil text]
  exact hprint.bind (.pure 0)

/-- What the program prints of recorded bags: the names, the first time of their first chunks and the last
of their last ones, and every message that was asked for, merged by time, as the text of the values that were
published. -/
theorem main_prints {options : EchoOptions} {filenames : List Bytes} {files : List StoredBag}
    {xs : ℕ → List Published} (hhelp : options.help = false) (hbag : options.bag = some filenames)
    (hfiles : List.Forall₂ (fun filename (f : StoredBag) => env.file filename = .ok f.encode) filenames files)
    (hrecords : ∀ (b : ℕ) (f : StoredBag), files[b]? = some f → f.Decompresses env.codecs ∧ f.Records (xs b))
    (hchunks : ∀ f ∈ files, f.infos ≠ [])
    (hindexed : ∀ topics, options.topic = some topics → ∀ f ∈ files, f.Indexed) :
    ∃ bound startTime endTime merged, IsFirst startTime (startTimes files) ∧ IsLast endTime (endTimes files) ∧
      IsMerge Published.key (View.published (selection options) { bags := List.range files.length } xs) merged ∧
      ∀ fuel ≥ bound, (main env fuel options).Writes
        (filenames.flatMap (fun filename => line (bytes "Opening " ++ filename)) ++
          (line (bytes "Start time is " ++ decimals startTime) ++
            (line (bytes "End time is " ++ decimals endTime) ++ merged.flatMap fun y => echoed env y.2))) 0 := by
  have hrecorded : World.RecordedFrom { bags := files.map fun f => f.bag } env.codecs files xs :=
    ⟨openedFrom_bags files [], hrecords⟩
  have hbags : ∀ b ∈ ({ bags := List.range files.length } : View).bags,
      b < ({ bags := files.map fun f => f.bag } : World).bags.length := by
    intro b hb
    rw [List.length_map]
    exact List.mem_range.1 hb
  have hasked : ∀ topics, selection options = .topics topics → ∀ f ∈ files, f.Indexed :=
    fun topics h => hindexed topics (selection_eq_topics h)
  have horder := env.shuffle_perm (View.getMessages (selection options) { bags := List.range files.length }
    { bags := files.map fun f => f.bag }).2.wrappers
  obtain ⟨merged, ⟨st, out, st', hbegin, hsteps, hend, hreads⟩, hmerged⟩ :=
    View.exists_passes hrecorded hbags hasked horder
  have hcarries := hreads.imp fun _ _ h => And.intro h.1 h.2.1
  obtain ⟨bound, hbound⟩ := exists_bound_published merged
  refine ⟨bound + merged.length + 1, _, _, merged, isExtreme_foldl extremum_earlier _,
    isExtreme_foldl extremum_later _, hmerged, fun fuel hfuel => ?_⟩
  refine writes_main hhelp hbag hfiles (getStartTime_eq hchunks []) (getEndTime_eq hchunks []) rfl hbegin ?_
  exact writes_printMessages hsteps hend hcarries (hbound fuel (by omega)) (by omega)

def sampleEchoEnv : EchoEnv where
  toEnv := sampleEnv
  text := sampleTextEnv
  usage := bytes "Usage:"
  file _ := .ok pairBag.encode
  shuffle := id
  shuffle_perm := List.Perm.refl

/-- Two bags, with two messages of the topic each. -/
theorem main_prints_sample : ∃ bound startTime endTime merged, IsFirst startTime (startTimes [pairBag, pairBag]) ∧
    IsLast endTime (endTimes [pairBag, pairBag]) ∧
    IsMerge Published.key (View.published (.topics [bytes "/b"]) { bags := [0, 1] } fun _ => pairPublished) merged ∧
    ∀ fuel ≥ bound, (main sampleEchoEnv fuel
        { topic := some [bytes "/b"], bag := some [bytes "a.bag", bytes "b.bag"] }).Writes
      ([bytes "a.bag", bytes "b.bag"].flatMap (fun filename => line (bytes "Opening " ++ filename)) ++
        (line (bytes "Start time is " ++ decimals startTime) ++
          (line (bytes "End time is " ++ decimals endTime) ++
            merged.flatMap fun y => echoed sampleEchoEnv y.2))) 0 := by
  refine @main_prints sampleEchoEnv { topic := some [bytes "/b"], bag := some [bytes "a.bag", bytes "b.bag"] }
    [bytes "a.bag", bytes "b.bag"] [pairBag, pairBag] (fun _ => pairPublished) rfl rfl
    (.cons rfl (.cons rfl .nil)) (fun b f hf => ?_) (fun f hf => ?_) (fun _ _ => indexed_of_mem)
  · have hmem := List.mem_of_getElem? hf
    rw [List.mem_pair, or_self] at hmem
    rw [hmem]
    exact ⟨decompresses_pairBag _, records_pairBag⟩
  · rw [List.mem_pair, or_self] at hf
    rw [hf]
    exact List.cons_ne_nil _ _

end EmbagEcho

end Embag
