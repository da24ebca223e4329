import Embag.RosMessages
import Embag.ViewConnections
import Embag.ViewTopics

/-! From the values that were published to the values that are read: bags whose payloads are encoded
values, a view over several of them, and the messages it comes with. -/

namespace Embag

open LittleEndian Loops Merge

/-- A message as it was published: values of the type its definition describes. -/
structure Published where
  topic : Bytes
  time : TimeValue
  definition : MsgDef
  values : List Value
  resolved : definition.Resolved
  distinct : definition.DistinctFields
  typed : IsMessage definition definition.toBaseMsgDef values

namespace StoredBag

/-- The record was written for this message, by a connection with its definition. -/
structure Writes (b : StoredBag) (r : MessageRecord) (x : Published) : Prop where
  connection : ∃ c ∈ b.connections, c.id = r.connection ∧ c.topic = x.topic ∧ b.FirstAlike c ∧
    parseMsgDef c.messageDefinition c.type = .ok x.definition
  time : r.time = x.time
  data : r.data = encodeList x.values

/-- The bag was recorded of these messages, in their order; no chunk ends in one without data. -/
structure Records (b : StoredBag) (xs : List Published) : Prop where
  messages : List.Forall₂ b.Writes b.messageRecords xs
  endsInData : ∀ records ∈ b.contents, ∀ r, records.getLast? = some (.message r) → r.data ≠ []

end StoredBag

def View.Selection.wants : View.Selection → Bytes → Bool
  | .all, _ => true
  | .topics asked, topic => asked.contains topic

/-- The message carries what was published: the topic, the time, the payload as it was written, and
the definition with which its data are the values. -/
structure RosMessage.Carries (m : RosMessage) (x : Published) : Prop where
  topic : m.topic = x.topic
  timestamp : m.timestamp = x.time
  payload : ∃ buffer, m.rawBuffer = some buffer ∧
    sliceAt buffer m.rawBufferOffset m.rawDataLen = some (encodeList x.values)
  holds : m.Holds x.definition x.values

/-- `data()` of the message reads like the values that were published, along every path. -/
def RosMessage.Reads (m : RosMessage) (x : Published) : Prop :=
  ∃ bound, ∀ fuel ≥ bound, ∃ values, m.parse fuel = .ok values ∧
    ∀ path w, (Value.object (x.definition.fields.map FieldDef.name) x.values).follow path = some w →
      ∃ y, (Pointer.slot 0).follow values path = .ok y ∧ y.Reads w

theorem RosMessage.Carries.reads {m : RosMessage} {x : Published} (h : m.Carries x) : m.Reads x := by
  refine ⟨depthList x.values + heightList x.values + 1, fun fuel hfuel => ?_⟩
  obtain ⟨values, hparse, hpaths, -⟩ := h.holds.exists_values sampleTextEnv x.resolved x.distinct
    (show depthList x.values < fuel by omega) (by omega)
  exact ⟨values, hparse, hpaths⟩

namespace StoredBag

variable {b : StoredBag} {bag : Bag} {codecs : Codecs} {xs : List Published} {selection : View.Selection}

theorem Writes.carries (hopens : b.Opens bag) {r : MessageRecord} {x : Published} (hx : b.Writes r x)
    {c : CurrentMessage} (hc : IsRead r c) {m : RosMessage} (hm : bag.message c = some m) : m.Carries x := by
  obtain ⟨d, hd, hid, htopic, halike, hdef⟩ := hx.connection
  obtain ⟨⟨d', hd', hid', htopic', -⟩, htime, buffer, hbuffer, hdata⟩ := isMessage_of_isRead hopens hc hm
  cases BagFile.eq_of_id hd hd' (hid.trans hid'.symm)
  rw [hx.data] at hdata
  refine ⟨htopic'.trans htopic, htime.trans hx.time, ⟨buffer, hbuffer, hdata⟩, ?_, ?_, x.typed⟩
  · obtain ⟨first, -, hfirst⟩ := BagFile.exists_firstOf hd
    rw [Bag.message, Option.map_eq_some_iff] at hm
    obtain ⟨connection, hconnection, rfl⟩ := hm
    have hschema := hopens.schemaOf hfirst
    rw [halike first hfirst, hdef] at hschema
    simp only at htopic'
    simp only [htopic', hschema, Except.toOption]
  · exact ⟨buffer, hbuffer, occursAt_of_sliceAt hdata⟩

def ReadAs (b : StoredBag) (c : CurrentMessage) (x : Published) : Prop := ∃ r, IsRead r c ∧ b.Writes r x

theorem ReadAs.carries (hopens : b.Opens bag) {cs : List CurrentMessage} (h : List.Forall₂ b.ReadAs cs xs)
    {out : List RosMessage} (hout : List.Forall₂ (fun c m => bag.message c = some m) cs out) :
    List.Forall₂ RosMessage.Carries out xs := by
  refine (forall₂_comp hout.flip h).imp ?_
  rintro m x ⟨c, hm, r, hc, hx⟩
  exact hx.carries hopens hc hm

theorem ReadAs.wants_iff (hopens : b.Opens bag) {c : CurrentMessage} {x : Published} (h : b.ReadAs c x)
    {topics : List Bytes} {n : ℕ} :
    c.connectionId ∈ (View.wrapper (.topics topics) n bag).scan.connectionIds ↔ x.topic ∈ topics := by
  obtain ⟨r, ⟨buffer, hread⟩, hx⟩ := h
  obtain ⟨d, hd, hid, htopic, -⟩ := hx.connection
  rw [hopens.mem_connectionIds, hread.connectionId]
  constructor
  · rintro ⟨d', hd', hid', hmem⟩
    cases BagFile.eq_of_id hd hd' (hid.trans hid'.symm)
    exact htopic ▸ hmem
  · intro hmem
    exact ⟨d, hd, hid, htopic.symm ▸ hmem⟩

theorem exists_fileOrder_topics (hopens : b.Opens bag) {n : ℕ} {ms : List CurrentMessage}
    (hms : View.FileOrder codecs .all n bag ms) (topics : List Bytes) :
    ∃ ms', View.FileOrder codecs (.topics topics) n bag ms' := by
  obtain ⟨-, mss, hmss, -⟩ := hms
  have hchunk : ∀ p ∈ (View.wrapper (.topics topics) n bag).scan.chunksToParse,
      ∃ ms, bag.ChunkHolds codecs p ms := by
    intro p hp
    obtain ⟨x, hx, -⟩ := hopens.mem_topicChunks.1 hp
    have hlength : bag.chunks.length = b.infos.length := hopens.opened.chunks.length_eq.symm
    have hlt : p < bag.chunks.length := hlength ▸ (List.getElem?_eq_some_iff.1 hx).1
    obtain ⟨ms, -, hp⟩ := forall₂_mem_right hmss.flip ((hopens.mem_allChunks (b := n)).2 hlt)
    exact ⟨ms, hp⟩
  obtain ⟨mss', hmss'⟩ := exists_forall₂ hchunk
  exact ⟨_, OrderedSet.ordered_ofList _, mss', hmss', rfl⟩

theorem Records.allEndInData (h : b.Records xs) : ∀ records ∈ b.contents, ChunkRecord.EndsInData records :=
  fun records hrecords => endsInData_iff.2 (h.endsInData records hrecords)

theorem Records.exists_selected (h : b.Records xs) (hopens : b.Opens bag) (hcodecs : b.Decompresses codecs)
    (hindexed : ∀ topics, selection = .topics topics → b.Indexed) (n : ℕ) :
    ∃ ms, View.FileOrder codecs selection n bag ms ∧ (∀ c ∈ ms, bag.Returns c) ∧
      List.Forall₂ b.ReadAs ms (xs.filter fun x => selection.wants x.topic) := by
  obtain ⟨ms, hms, hread⟩ := exists_fileOrder hopens hcodecs h.allEndInData n
  have hall : List.Forall₂ b.ReadAs ms xs := forall₂_comp hread.flip h.messages
  have hreturns : ∀ c ∈ ms, bag.Returns c := by
    intro c hc
    obtain ⟨r, hr, hrc⟩ := forall₂_mem_right hread hc
    exact returns_of_isRead hopens hr hrc
  cases selection with
  | all => exact ⟨ms, hms, hreturns, by simpa [View.Selection.wants] using hall⟩
  | topics topics =>
    obtain ⟨ms', hms'⟩ := exists_fileOrder_topics hopens hms topics
    have hfilter := hopens.fileOrder_topics ((hindexed topics rfl).indexesMessages h.allEndInData hcodecs) hms hms'
    refine ⟨ms', hms', fun c hc => ?_, ?_⟩
    · rw [hfilter] at hc
      exact hreturns c (List.mem_filter.1 hc).1
    · rw [hfilter]
      refine List.rel_filter (fun c x hx => ?_) hall
      simpa [View.Selection.wants] using hx.wants_iff hopens

end StoredBag

def Published.key (x : Published) : ℕ ×ₗ ℕ := x.time.key

def View.published (selection : Selection) (view : View) (xs : ℕ → List Published) (b : ℕ) : List Published :=
  if b ∈ view.bags then (xs b).filter fun x => selection.wants x.topic else []

structure World.RecordedFrom (world : World) (codecs : Codecs) (files : List StoredBag) (xs : ℕ → List Published) :
    Prop where
  opened : world.OpenedFrom (files.map StoredBag.toBagFile)
  records : ∀ (b : ℕ) (f : StoredBag), files[b]? = some f → f.Decompresses codecs ∧ f.Records (xs b)

theorem World.RecordedFrom.exists_file {world : World} {codecs : Codecs} {files : List StoredBag}
    {xs : ℕ → List Published} (h : world.RecordedFrom codecs files xs) {b : ℕ} {bag : Bag}
    (hbag : world.bags[b]? = some bag) :
    ∃ f, files[b]? = some f ∧ f.Opens bag ∧ f.Decompresses codecs ∧ f.Records (xs b) := by
  obtain ⟨f', hf', hopens⟩ := h.opened.opens hbag
  rw [List.getElem?_map, Option.map_eq_some_iff] at hf'
  obtain ⟨f, hf, rfl⟩ := hf'
  exact ⟨f, hf, hopens, h.records b f hf⟩

section Views

variable {env : Env} {selection : View.Selection} {view : View} {world : World} {files : List StoredBag}
  {xs : ℕ → List Published}

theorem View.FileOrder.unique {codecs : Codecs} {b : ℕ} {bag : Bag} {ms ms' : List CurrentMessage}
    (h : View.FileOrder codecs selection b bag ms) (h' : View.FileOrder codecs selection b bag ms') : ms = ms' := by
  obtain ⟨-, mss, hmss, rfl⟩ := h
  obtain ⟨-, mss', hmss', rfl⟩ := h'
  rw [hmss.unique hmss']

theorem View.Begins.exists_published {st st' : World × Iterator} {out : List (ℕ × RosMessage)}
    (h : View.Begins env selection view world st) (hrecorded : world.RecordedFrom env.codecs files xs)
    (hbags : ∀ b ∈ view.bags, b < world.bags.length)
    (hindexed : ∀ topics, selection = .topics topics → ∀ f ∈ files, f.Indexed)
    (hsteps : Steps env st out st') (hend : st'.2.atEnd) :
    ∃ merged, IsMerge Published.key (view.published selection xs) merged ∧
      List.Forall₂ (fun x y => y.1 = x.1 ∧ x.2.Carries y.2) out merged := by
  obtain ⟨streams, hmerged⟩ := h.merged hbags hsteps hend
  obtain ⟨-, hstreams⟩ := h.messages hbags hrecorded.opened.schemataSound hsteps hend
  refine hmerged.least.exists_forall₂ (fun m x hx => congrArg TimeValue.key hx.timestamp.symm) fun b => ?_
  unfold View.published
  split_ifs with hb
  · obtain ⟨bag, ms, hbag, hms, hout⟩ := hstreams b hb
    rw [hmerged.restrict b] at hout
    obtain ⟨f, hf, hopens, hcodecs, hrecords⟩ := hrecorded.exists_file hbag
    obtain ⟨ms', hms', -, hread⟩ := hrecords.exists_selected hopens hcodecs
      (fun topics ht => hindexed topics ht f (List.mem_of_getElem? hf)) b
    rw [hms.unique hms'] at hout
    exact StoredBag.ReadAs.carries hopens hread hout
  · rw [hmerged.noStream b hb]
    exact .nil

/-- A view over bags comes from `begin()` to `end()` without an exception, in whatever order its map has
the bags. -/
theorem View.exists_pass_of_recorded (hrecorded : world.RecordedFrom env.codecs files xs)
    (hbags : ∀ b ∈ view.bags, b < world.bags.length)
    (hindexed : ∀ topics, selection = .topics topics → ∀ f ∈ files, f.Indexed)
    {order : List ℕ} (horder : order.Perm (view.getMessages selection world).2.wrappers) :
    ∃ st out st', (view.getMessages selection world).1.begin env order = (st.1, .ok st.2) ∧
      Steps env st out st' ∧ st'.2.atEnd := by
  have hstream : ∀ b, ∃ ms, (b ∉ view.bags → ms = []) ∧ (b ∈ view.bags → ∀ bag, world.bags[b]? = some bag →
      FileOrder env.codecs selection b bag ms ∧ ∀ c ∈ ms, bag.Returns c) := by
    intro b
    by_cases hb : b ∈ view.bags
    · obtain ⟨f, hf, hopens, hcodecs, hrecords⟩ :=
        hrecorded.exists_file (List.getElem?_eq_getElem (hbags b hb))
      obtain ⟨ms, hms, hreturns, -⟩ := hrecords.exists_selected hopens hcodecs
        (fun topics ht => hindexed topics ht f (List.mem_of_getElem? hf)) b
      refine ⟨ms, fun hnb => absurd hb hnb, fun _ bag hbag => ?_⟩
      rw [List.getElem?_eq_getElem (hbags b hb)] at hbag
      cases hbag
      exact ⟨hms, hreturns⟩
    · exact ⟨[], fun _ => rfl, fun h => absurd h hb⟩
  choose pending hnone hfile using hstream
  exact View.exists_pass env selection pending hbags hrecorded.opened.schemataSound hnone hfile horder

/-- From `begin()` to `end()` the view returns these messages, of these bags. -/
def View.Passes (env : Env) (selection : View.Selection) (view : View) (world : World) (order : List ℕ)
    (merged : List (ℕ × Published)) : Prop :=
  ∃ st out st', (view.getMessages selection world).1.begin env order = (st.1, .ok st.2) ∧
    Steps env st out st' ∧ st'.2.atEnd ∧
    List.Forall₂ (fun x y => y.1 = x.1 ∧ x.2.Carries y.2 ∧ x.2.Reads y.2) out merged

theorem View.exists_passes (hrecorded : world.RecordedFrom env.codecs files xs)
    (hbags : ∀ b ∈ view.bags, b < world.bags.length)
    (hindexed : ∀ topics, selection = .topics topics → ∀ f ∈ files, f.Indexed)
    {order : List ℕ} (horder : order.Perm (view.getMessages selection world).2.wrappers) :
    ∃ merged, view.Passes env selection world order merged ∧
      IsMerge Published.key (view.published selection xs) merged := by
  obtain ⟨st, out, st', hbegin, hsteps, hend⟩ := exists_pass_of_recorded hrecorded hbags hindexed horder
  obtain ⟨merged, hmerged, hall⟩ :=
    Begins.exists_published ⟨order, horder, hbegin⟩ hrecorded hbags hindexed hsteps hend
  exact ⟨merged, ⟨st, out, st', hbegin, hsteps, hend, hall.imp fun x y h => ⟨h.1, h.2, h.2.reads⟩⟩, hmerged⟩

theorem exists_bound_published (merged : List (ℕ × Published)) : ∃ bound, ∀ fuel ≥ bound, ∀ y ∈ merged,
    depthList y.2.values < fuel ∧ heightList y.2.values < fuel := by
  have hdeep : ∀ y ∈ merged, ∃ bound, ∀ fuel ≥ bound,
      depthList y.2.values < fuel ∧ heightList y.2.values < fuel := by
    intro y _
    refine ⟨depthList y.2.values + heightList y.2.values + 1, fun fuel hfuel => ?_⟩
    omega
  exact exists_bound (List.finite_toSet merged) hdeep

/-- What is read out of the bags is what was published into them: a view over any bags, in whatever order
its map has them, comes to its end and returns the messages that were asked for, merged by time, each
with its topic, its time, its payload and its values. -/
theorem View.returns_published (hrecorded : world.RecordedFrom env.codecs files xs)
    (hbags : ∀ b ∈ view.bags, b < world.bags.length)
    (hindexed : ∀ topics, selection = .topics topics → ∀ f ∈ files, f.Indexed)
    {order : List ℕ} (horder : order.Perm (view.getMessages selection world).2.wrappers) :
    ∃ st out st' merged, (view.getMessages selection world).1.begin env order = (st.1, .ok st.2) ∧
      Steps env st out st' ∧ st'.2.atEnd ∧ IsMerge Published.key (view.published selection xs) merged ∧
      List.Forall₂ (fun x y => y.1 = x.1 ∧ x.2.Carries y.2 ∧ x.2.Reads y.2) out merged := by
  obtain ⟨merged, ⟨st, out, st', hbegin, hsteps, hend, hall⟩, hmerged⟩ :=
    exists_passes hrecorded hbags hindexed horder
  exact ⟨st, out, st', merged, hbegin, hsteps, hend, hmerged, hall⟩

end Views

def pairDef (second : Bool) : MsgDef where
  name := cond second (bytes "a/B") (bytes "a/A")
  members := [.field { parsedInfo := ⟨cond second (bytes "int16") (bytes "int8"), 0, cond second (bytes "y") (bytes "x")⟩ }]
  embeddedDefinitionMap := ∅

theorem pairDef_definitions {second : Bool} {d : BaseMsgDef} (h : d = (pairDef second).toBaseMsgDef ∨
    ∃ key, (pairDef second).embeddedDefinitionMap.lookup key = some d) : d = (pairDef second).toBaseMsgDef := by
  rcases h with h | ⟨key, hkey⟩
  · exact h
  · rw [pairDef, AList.lookup_empty] at hkey
    cases hkey

theorem resolved_pairDef (second : Bool) : (pairDef second).Resolved := by
  intro d hd f hf htype
  obtain rfl := pairDef_definitions hd
  rw [List.mem_singleton.1 hf] at htype
  cases second <;> exact absurd htype (by decide)

theorem distinct_pairDef (second : Bool) : (pairDef second).DistinctFields := by
  intro d hd
  obtain rfl := pairDef_definitions hd
  cases second <;> decide

def pairFirst : Published where
  topic := bytes "/a"
  time := ⟨5, 0⟩
  definition := pairDef false
  values := [.scalar (.int8 7)]
  resolved := resolved_pairDef false
  distinct := distinct_pairDef false
  typed := ⟨rfl, fun i _ hv => match i, hv with
    | 0, _ => .scalar rfl rfl⟩

def pairSecond (third : Bool) : Published where
  topic := bytes "/b"
  time := ⟨cond third 7 6, 0⟩
  definition := pairDef true
  values := [.scalar (.int16 (cond third 2 1))]
  resolved := resolved_pairDef true
  distinct := distinct_pairDef true
  typed := ⟨rfl, fun i _ hv => match i, hv with
    | 0, _ => .scalar rfl rfl⟩

def pairPublished : List Published := [pairFirst, pairSecond false, pairSecond true]

theorem firstAlike_pairBag {c : FileConnection} (hc : c ∈ pairBag.connections) : pairBag.FirstAlike c := by
  rcases List.mem_pair.1 hc with rfl | rfl
  · intro first hfirst
    cases hfirst
    exact rfl
  · intro first hfirst
    cases hfirst
    exact rfl

theorem records_pairBag : pairBag.Records pairPublished := by
  have hfirst : pairConnection false ∈ pairBag.connections := List.mem_cons_self
  have hsecond : pairConnection true ∈ pairBag.connections := List.mem_cons_of_mem _ List.mem_cons_self
  refine ⟨.cons ⟨⟨_, hfirst, rfl, rfl, firstAlike_pairBag hfirst, rfl⟩, rfl, rfl⟩
    (.cons ⟨⟨_, hsecond, rfl, rfl, firstAlike_pairBag hsecond, rfl⟩, rfl, rfl⟩
      (.cons ⟨⟨_, hsecond, rfl, rfl, firstAlike_pairBag hsecond, rfl⟩, rfl, rfl⟩ .nil)), ?_⟩
  intro records hrecords r hr
  rcases List.mem_pair.1 hrecords with rfl | rfl
  · cases hr
    decide
  · cases hr
    decide

theorem indexed_of_mem : ∀ f ∈ [pairBag, pairBag], f.Indexed := by
  intro f hf
  rw [List.mem_pair, or_self] at hf
  exact hf ▸ StoredBag.indexed_pairBag

def pairWorld : World := { bags := [pairBag.bag, pairBag.bag] }

theorem recordedFrom_pairWorld :
    pairWorld.RecordedFrom sampleEnv.codecs [pairBag, pairBag] fun _ => pairPublished where
  opened := .cons pairBag.opens_bag (.cons pairBag.opens_bag .nil)
  records b f hf := by
    have hmem := List.mem_of_getElem? hf
    rw [List.mem_pair, or_self] at hmem
    rw [hmem]
    exact ⟨decompresses_pairBag _, records_pairBag⟩

theorem lt_length_pairWorld {bags : List ℕ} (h : bags ⊆ [0, 1]) : ∀ b ∈ bags, b < pairWorld.bags.length := by
  intro b hb
  rcases List.mem_pair.1 (h hb) with rfl | rfl
  · exact Nat.two_pos
  · exact Nat.one_lt_two

theorem View.returns_published_sample : ∃ st out st' merged,
    (View.getMessages (.topics [bytes "/a"]) { bags := [0, 1] } pairWorld).1.begin sampleEnv
      (View.getMessages (.topics [bytes "/a"]) { bags := [0, 1] } pairWorld).2.wrappers = (st.1, .ok st.2) ∧
    Steps sampleEnv st out st' ∧ st'.2.atEnd ∧
    IsMerge Published.key (View.published (.topics [bytes "/a"]) { bags := [0, 1] } fun _ => pairPublished)
      merged ∧
    List.Forall₂ (fun x y => y.1 = x.1 ∧ x.2.Carries y.2 ∧ x.2.Reads y.2) out merged :=
  View.returns_published recordedFrom_pairWorld (lt_length_pairWorld (List.Subset.refl _))
    (fun _ _ => indexed_of_mem) (List.Perm.refl _)

end Embag
