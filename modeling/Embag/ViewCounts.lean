import Mathlib.Algebra.BigOperators.Group.Finset.Basic
import Embag.Library.Tally
import Embag.ViewTopics

/-! The connections a view lists, with the messages counted for them in all of its bags, and
the messages that iterating over a topic yields. -/

namespace Embag

open Tally

def ConnectionData.key (c : ConnectionData) : Bytes × Bytes × Bytes × Bytes × Bool :=
  (c.topic, c.type, c.md5sum, c.callerid, c.latching)

def ConnectionData.entry (c : ConnectionData) : (Bytes × Bytes × Bytes × Bytes × Bool) × ℕ :=
  (c.key, c.messageCount)

theorem ConnectionData.equal_iff {c d : ConnectionData} : c.equal d ↔ c.key = d.key := by
  simp only [equal, key, Bool.and_eq_true, decide_eq_true_eq, Prod.mk.injEq, and_assoc]
  constructor
  · rintro ⟨h₁, h₂, h₃, h₄, h₅⟩
    exact ⟨h₁.symm, h₂.symm, h₃.symm, h₄.symm, h₅.symm⟩
  · rintro ⟨h₁, h₂, h₃, h₄, h₅⟩
    exact ⟨h₁.symm, h₂.symm, h₃.symm, h₄.symm, h₅.symm⟩

namespace View

theorem map_addConnection (new : ConnectionData) (conns : List ConnectionData) :
    (addConnection new conns).map ConnectionData.entry =
      add (2 ^ 64) new.entry (conns.map ConnectionData.entry) := by
  induction conns with
  | nil => rfl
  | cons c conns ih =>
    rw [addConnection, List.map_cons, add]
    by_cases h : c.entry.1 = new.entry.1
    · rw [if_pos (ConnectionData.equal_iff.2 h), if_pos h]
      rfl
    · rw [if_neg (mt ConnectionData.equal_iff.1 h), if_neg h, List.map_cons, ih]

def merged (l : List ConnectionData) : List ConnectionData :=
  l.foldl (fun conns c => addConnection c conns) []

theorem map_merged (l : List ConnectionData) :
    (merged l).map ConnectionData.entry = ofList (2 ^ 64) (l.map ConnectionData.entry) := by
  induction l using List.reverseRecOn with
  | nil => rfl
  | append_singleton l c ih =>
    rw [List.map_append, List.map_singleton, ofList_append, ← ih, ← map_addConnection, merged,
      List.foldl_append]
    rfl

def listOf (map : AList fun _ : Bytes => List ConnectionData) (topic : Bytes) : List ConnectionData :=
  (map.lookup topic).getD []

theorem listOf_insert (map : AList fun _ : Bytes => List ConnectionData) (t topic : Bytes)
    (l : List ConnectionData) :
    listOf (map.insert t l) topic = if topic = t then l else listOf map topic := by
  unfold listOf
  split_ifs with h
  · subst h
    rw [AList.lookup_insert, Option.getD_some]
  · rw [AList.lookup_insert_ne h]

theorem listOf_addConnections {entries : List (Sigma fun _ : Bytes => List ConnectionData)}
    (hnodup : entries.NodupKeys) (map : AList fun _ : Bytes => List ConnectionData) (topic : Bytes) :
    listOf (entries.foldl (fun map item => addConnections map item.1 item.2) map) topic =
      ((entries.dlookup topic).getD []).foldl (fun conns c => addConnection c conns)
        (listOf map topic) := by
  induction entries generalizing map with
  | nil => rfl
  | cons item entries ih =>
    rw [List.nodupKeys_cons] at hnodup
    rw [List.foldl_cons, ih hnodup.2, addConnections, listOf_insert]
    obtain ⟨t, l⟩ := item
    split_ifs with h
    · subst h
      rw [List.dlookup_cons_eq, List.dlookup_eq_none.2 hnodup.1]
      rfl
    · rw [List.dlookup_cons_ne _ _ h]

variable (view : View) (world : World)

def listed (topic : Bytes) : List ConnectionData := listOf (view.connectionsByTopicMap world) topic

def connectionsOf (topic : Bytes) : List ConnectionData :=
  view.bags.flatMap fun b => (world.bags[b]?).elim [] fun bag => listOf bag.connectionsByTopicMap topic

theorem listed_eq (topic : Bytes) : view.listed world topic = merged (view.connectionsOf world topic) := by
  have hloop : ∀ (bs : List ℕ) (map : AList fun _ : Bytes => List ConnectionData),
      listOf (bs.foldl (fun map b => ((world.bags[b]?).elim ∅ Bag.connectionsByTopicMap).entries.foldl
        (fun map item => addConnections map item.1 item.2) map) map) topic =
      (bs.flatMap fun b => (world.bags[b]?).elim [] fun bag => listOf bag.connectionsByTopicMap topic).foldl
        (fun conns c => addConnection c conns) (listOf map topic) := by
    intro bs
    induction bs with
    | nil => exact fun _ => rfl
    | cons b bs ih =>
      intro map
      rw [List.foldl_cons, ih, listOf_addConnections (AList.nodupKeys _), List.flatMap_cons,
        List.foldl_append]
      cases world.bags[b]? <;> rfl
  exact hloop view.bags ∅

end View

theorem Bag.lookup_connectionsByTopicMap (bag : Bag) (topic : Bytes) :
    bag.connectionsByTopicMap.lookup topic =
      (bag.topicConnectionMap.lookup topic).map bag.connectionDataOf := by
  have hloop : ∀ (entries : List (Sigma fun _ : Bytes => List ℕ)) (_ : entries.NodupKeys)
      (map : AList fun _ : Bytes => List ConnectionData),
      (entries.foldl (fun map item => map.insert item.1 (bag.connectionDataOf item.2)) map).lookup topic =
        ((entries.dlookup topic).map bag.connectionDataOf).or (map.lookup topic) := by
    intro entries
    induction entries with
    | nil => exact fun _ _ => rfl
    | cons item entries ih =>
      intro hnodup map
      rw [List.nodupKeys_cons] at hnodup
      rw [List.foldl_cons, ih hnodup.2]
      obtain ⟨t, ids⟩ := item
      by_cases h : topic = t
      · subst h
        rw [List.dlookup_cons_eq, List.dlookup_eq_none.2 hnodup.1, AList.lookup_insert]
        rfl
      · rw [List.dlookup_cons_ne _ _ h, AList.lookup_insert_ne h]
  have hall := hloop bag.topicConnectionMap.entries bag.topicConnectionMap.nodupKeys ∅
  rw [AList.lookup_empty, Option.or_none] at hall
  exact hall

namespace BagFile

variable {f : BagFile} {bag : Bag}

def connectionData (f : BagFile) : List ConnectionData :=
  f.connections.map fun c => (f.connectionRecord c).data

theorem Opens.listOf_connectionsByTopicMap (h : f.Opens bag) (topic : Bytes) :
    View.listOf bag.connectionsByTopicMap topic = f.connectionData.filter fun c => c.topic = topic := by
  have hids : (bag.topicConnectionMap.lookup topic).getD [] = idsOf f.connections topic :=
    h.opened.topics.lookup topic
  have hlist : View.listOf bag.connectionsByTopicMap topic =
      bag.connectionDataOf ((bag.topicConnectionMap.lookup topic).getD []) := by
    rw [View.listOf, Bag.lookup_connectionsByTopicMap]
    cases bag.topicConnectionMap.lookup topic <;> rfl
  rw [hlist, hids, Bag.connectionDataOf, idsOf, List.filterMap_map, connectionData, List.filter_map]
  have htopic : (fun c : ConnectionData => decide (c.topic = topic)) ∘
      (fun c => (f.connectionRecord c).data) = fun c => decide (c.topic = topic) := rfl
  rw [htopic, ← List.filterMap_eq_map]
  refine List.filterMap_congr fun c hc => ?_
  simp only [Function.comp_apply, h.connection (List.mem_of_mem_filter hc), Option.map_some]

theorem Opens.connections_perm (h : f.Opens bag) :
    (bag.connections.map ConnectionRecord.data).Perm f.connectionData := by
  have hall : bag.connections = (List.range f.connections.length).map fun i =>
      (bag.connections[i]?).getD {} := by
    refine List.ext_getElem (by simp [h.length_connections]) fun i hi hi' => ?_
    simp [List.getElem?_eq_getElem hi]
  have hdata : f.connectionData = (f.connections.map f.connectionRecord).map ConnectionRecord.data := by
    rw [connectionData, List.map_map]
    rfl
  rw [hall, hdata]
  apply List.Perm.map
  refine (f.ids.map _).symm.trans (List.Perm.of_eq ?_)
  rw [List.map_map]
  refine List.map_congr_left fun c hc => ?_
  simp [h.connection hc]

theorem messageCount_lt_of_mem {d : ConnectionData} (hd : d ∈ f.connectionData) :
    d.messageCount < 2 ^ 64 := by
  obtain ⟨c, -, rfl⟩ := List.mem_map.1 hd
  have hlt := f.messageCount_lt (List.prefix_refl (f.records f.infos)) c.id
  rwa [BagLayout.messageCount, ((f.records_perm.filter _).map _).sum_eq] at hlt

/-- The INDEX_DATA records of a chunk count the messages of each connection in it. -/
def CountsMessages (f : BagFile) (codecs : Codecs) : Prop :=
  ∀ bag, Bag.ofBytes f.encode = .ok bag → ∀ i x ms, f.infos[i]? = some x →
    bag.ChunkHolds codecs i ms → ∀ id < f.connections.length,
      BagLayout.messageCount (f.indexOf x) id = ms.countP fun m => m.connectionId = id

theorem Opens.counts {codecs : Codecs} (h : f.Opens bag) (hcounts : f.CountsMessages codecs) {i : ℕ}
    {x : FileChunkInfo} {ms : List CurrentMessage} (hx : f.infos[i]? = some x)
    (hms : bag.ChunkHolds codecs i ms) {id : ℕ} (hid : id < f.connections.length) :
    BagLayout.messageCount (f.indexOf x) id = ms.countP fun m => m.connectionId = id := by
  obtain ⟨opened, hopened, hfile⟩ := h.file
  have hms' : bag.file.ChunkHolds codecs i ms := hms
  rw [hfile] at hms'
  exact hcounts opened hopened i x ms hx hms' id hid

/-- The messages counted for some connections in the chunk that is kept under an index. -/
def countIn (f : BagFile) (ids : List ℕ) (i : ℕ) : ℕ :=
  (f.infos[i]?).elim 0 fun x => (ids.map (BagLayout.messageCount (f.indexOf x))).sum

theorem sum_countIn (f : BagFile) (ids : List ℕ) :
    ((List.range f.infos.length).map (f.countIn ids)).sum =
      (ids.map (BagLayout.messageCount (f.chunks.flatMap FileChunk.index))).sum := by
  have hrange : (List.range f.infos.length).map (f.countIn ids) =
      f.infos.map fun x => (ids.map (BagLayout.messageCount (f.indexOf x))).sum := by
    refine List.ext_getElem (by simp) fun i hi hi' => ?_
    have hlt : i < f.infos.length := by simpa using hi
    simp [countIn, List.getElem?_eq_getElem hlt]
  have hrecords : ∀ infos : List FileChunkInfo,
      (infos.map fun x => (ids.map (BagLayout.messageCount (f.indexOf x))).sum).sum =
        (ids.map (BagLayout.messageCount (f.records infos))).sum := by
    intro infos
    induction infos with
    | nil =>
      have hnone : BagLayout.messageCount [] = fun _ => 0 := rfl
      simp [records, hnone]
    | cons x infos ih =>
      have hcons : BagLayout.messageCount (f.records (x :: infos)) = fun id =>
          BagLayout.messageCount (f.indexOf x) id + BagLayout.messageCount (f.records infos) id :=
        funext (messageCount_append (f.indexOf x) (f.records infos))
      rw [List.map_cons, List.sum_cons, ih, hcons, List.sum_map_add]
  rw [hrange, hrecords]
  congr 1
  refine List.map_congr_left fun id _ => ?_
  exact ((f.records_perm.filter _).map _).sum_eq

/-- The chunks that a topic does not lead to count nothing for it. -/
theorem Opens.sum_topicChunks (h : f.Opens bag) {codecs : Codecs} {topic : Bytes} {b : ℕ}
    {ms : List CurrentMessage} (hms : View.FileOrder codecs (.topics [topic]) b bag ms) :
    ((View.wrapper (.topics [topic]) b bag).scan.chunksToParse.map
        (f.countIn (idsOf f.connections topic))).sum =
      ((List.range f.infos.length).map (f.countIn (idsOf f.connections topic))).sum := by
  have hnodup : (View.wrapper (.topics [topic]) b bag).scan.chunksToParse.Nodup :=
    List.Pairwise.imp (fun {i j} hlt heq => by simp [heq] at hlt) hms.ordered
  rw [← List.sum_toFinset _ hnodup, ← List.sum_toFinset _ List.nodup_range]
  apply Finset.sum_subset
  · intro p hp
    rw [List.mem_toFinset, h.mem_topicChunks] at hp
    obtain ⟨x, hx, -⟩ := hp
    simpa using (List.getElem?_eq_some_iff.1 hx).1
  · intro p hp hskip
    rw [List.mem_toFinset, List.mem_range] at hp
    rw [List.mem_toFinset, h.mem_topicChunks] at hskip
    rw [countIn, List.getElem?_eq_getElem hp, Option.elim_some, List.sum_eq_zero]
    intro n hn
    obtain ⟨id, hid, rfl⟩ := List.mem_map.1 hn
    obtain ⟨c, hc, rfl⟩ := List.mem_map.1 hid
    rw [List.mem_filter, decide_eq_true_eq] at hc
    rw [BagLayout.messageCount, List.filter_eq_nil_iff.2]
    · rfl
    · intro y hy hyid
      apply hskip
      exact ⟨_, List.getElem?_eq_getElem hp, c, hc.1, by simp [hc.2], y, hy, of_decide_eq_true hyid⟩

theorem Opens.length_fileOrder (h : f.Opens bag) {codecs : Codecs} (hcounts : f.CountsMessages codecs)
    {topic : Bytes} {b : ℕ} {ms : List CurrentMessage}
    (hms : View.FileOrder codecs (.topics [topic]) b bag ms) :
    ms.length =
      ((View.listOf bag.connectionsByTopicMap topic).map ConnectionData.messageCount).sum := by
  have hsum := h.sum_topicChunks hms
  obtain ⟨-, mss, hmss, rfl⟩ := hms
  have hlisted : (View.listOf bag.connectionsByTopicMap topic).map ConnectionData.messageCount =
      (idsOf f.connections topic).map
        (BagLayout.messageCount (f.chunks.flatMap FileChunk.index)) := by
    rw [h.listOf_connectionsByTopicMap, connectionData, List.filter_map, idsOf, List.map_map,
      List.map_map]
    rfl
  rw [hlisted, ← sum_countIn, ← hsum]
  have hids : (idsOf f.connections topic).Nodup := f.nodup_ids.sublist (List.filter_sublist.map _)
  have hwanted : ∀ m : CurrentMessage,
      m.connectionId ∈ (View.wrapper (.topics [topic]) b bag).scan.connectionIds ↔
        m.connectionId ∈ idsOf f.connections topic := by
    intro m
    rw [h.mem_connectionIds, idsOf, List.mem_map]
    simp only [List.mem_filter, List.mem_singleton, decide_eq_true_eq]
    constructor
    · rintro ⟨c, hc, hid, htopic⟩
      exact ⟨c, ⟨hc, htopic⟩, hid⟩
    · rintro ⟨c, ⟨hc, htopic⟩, hid⟩
      exact ⟨c, hc, hid, htopic⟩
  have hchunks : ∀ ps mss, bag.ChunksHold codecs ps mss → (∀ p ∈ ps, p < f.infos.length) →
      mss.flatten.countP (fun m => m.connectionId ∈ idsOf f.connections topic) =
        (ps.map (f.countIn (idsOf f.connections topic))).sum := by
    intro ps mss hmss
    induction hmss with
    | nil => exact fun _ => rfl
    | @cons p ms ps mss hp _ ih =>
      intro hlt
      rw [List.forall_mem_cons] at hlt
      rw [List.flatten_cons, List.countP_append, ih hlt.2, List.map_cons, List.sum_cons,
        ← sum_countP CurrentMessage.connectionId hids, countIn, List.getElem?_eq_getElem hlt.1,
        Option.elim_some]
      congr 2
      refine List.map_congr_left fun id hid => ?_
      obtain ⟨c, hc, rfl⟩ := List.mem_map.1 hid
      exact (h.counts hcounts (List.getElem?_eq_getElem hlt.1) hp
        (id_lt (List.mem_of_mem_filter hc))).symm
  rw [Scan.wanted, ← List.countP_eq_length_filter]
  simp only [hwanted]
  apply hchunks _ _ hmss
  intro p hp
  obtain ⟨x, hx, -⟩ := h.mem_topicChunks.1 hp
  exact (List.getElem?_eq_some_iff.1 hx).1

end BagFile

namespace View

variable {view : View} {world : World} {files : List BagFile}

def allConnections (view : View) (world : World) : List ConnectionData :=
  view.bags.flatMap fun b => (world.bags[b]?).elim [] fun bag => bag.connections.map ConnectionRecord.data

def countOf (view : View) (world : World) (c : ConnectionData) : ℕ :=
  (((view.allConnections world).filter fun d => d.equal c).map ConnectionData.messageCount).sum

theorem connectionsOf_perm (hfiles : world.OpenedFrom files) (topic : Bytes) :
    (view.connectionsOf world topic).Perm
      ((view.allConnections world).filter fun c => c.topic = topic) := by
  rw [allConnections, List.filter_flatMap]
  apply List.Perm.flatMap_left
  intro b _
  rcases hbag : world.bags[b]? with _ | bag
  · exact .nil
  · obtain ⟨f, -, hopens⟩ := hfiles.opens hbag
    rw [Option.elim_some, Option.elim_some, hopens.listOf_connectionsByTopicMap]
    exact hopens.connections_perm.symm.filter _

theorem messageCount_lt_of_mem (hfiles : world.OpenedFrom files) {c : ConnectionData}
    (hc : c ∈ view.allConnections world) : c.messageCount < 2 ^ 64 := by
  obtain ⟨b, -, hc⟩ := List.mem_flatMap.1 hc
  rcases hbag : world.bags[b]? with _ | bag
  · simp [hbag] at hc
  · obtain ⟨f, -, hopens⟩ := hfiles.opens hbag
    rw [hbag, Option.elim_some, hopens.connections_perm.mem_iff] at hc
    exact BagFile.messageCount_lt_of_mem hc

theorem entry_lt (hfiles : world.OpenedFrom files) (topic : Bytes) :
    ∀ e ∈ (view.connectionsOf world topic).map ConnectionData.entry, e.2 < 2 ^ 64 := by
  intro e he
  obtain ⟨d, hd, rfl⟩ := List.mem_map.1 he
  rw [(connectionsOf_perm hfiles topic).mem_iff] at hd
  exact messageCount_lt_of_mem hfiles (List.mem_of_mem_filter hd)

theorem map_listed (view : View) (world : World) (topic : Bytes) :
    (view.listed world topic).map ConnectionData.entry =
      ofList (2 ^ 64) ((view.connectionsOf world topic).map ConnectionData.entry) := by
  rw [listed_eq, map_merged]

theorem mem_listed (hfiles : world.OpenedFrom files) {topic : Bytes} {c : ConnectionData}
    (hc : c ∈ view.listed world topic) :
    c.topic = topic ∧ c.messageCount = view.countOf world c % 2 ^ 64 := by
  have hperm : (view.connectionsOf world topic).Perm _ := connectionsOf_perm hfiles topic
  have hentry : c.entry ∈ ofList (2 ^ 64) ((view.connectionsOf world topic).map ConnectionData.entry) := by
    rw [← map_listed]
    exact List.mem_map_of_mem hc
  obtain ⟨hkey, hcount⟩ := (mem_ofList (entry_lt hfiles topic)).1 hentry
  have htopic : c.topic = topic := by
    rw [List.map_map, List.mem_map] at hkey
    obtain ⟨d, hd, hdc⟩ := hkey
    have hdtopic := (List.mem_filter.1 (hperm.mem_iff.1 hd)).2
    rw [← of_decide_eq_true hdtopic]
    exact (congrArg Prod.fst hdc).symm
  refine ⟨htopic, hcount.trans ?_⟩
  have hfilter : ((view.allConnections world).filter fun d => d.topic = topic).filter
      (fun d => d.equal c) = (view.allConnections world).filter fun d => d.equal c := by
    rw [List.filter_filter]
    refine List.filter_congr fun d _ => ?_
    rw [Bool.and_eq_left_iff_imp]
    intro heq
    have hkeys : d.topic = c.topic := congrArg Prod.fst (ConnectionData.equal_iff.1 heq)
    rw [decide_eq_true_eq, hkeys, htopic]
  have htotal : ∀ l : List ConnectionData, total (l.map ConnectionData.entry) c.key =
      ((l.filter fun d => d.equal c).map ConnectionData.messageCount).sum := by
    intro l
    have hpred : (fun e : (Bytes × Bytes × Bytes × Bytes × Bool) × ℕ => decide (e.1 = c.key)) ∘
        ConnectionData.entry = fun d => d.equal c := by
      funext d
      rw [Bool.eq_iff_iff, ConnectionData.equal_iff]
      exact decide_eq_true_iff
    rw [total, List.filter_map, hpred, List.map_map]
    rfl
  rw [total_perm (hperm.map _), countOf, ← hfilter]
  exact congrArg (· % 2 ^ 64) (htotal _)

theorem exists_listed (hfiles : world.OpenedFrom files) {c : ConnectionData}
    (hc : c ∈ view.allConnections world) : ∃ d ∈ view.listed world c.topic, c.equal d := by
  have hmem : c ∈ view.connectionsOf world c.topic := by
    rw [(connectionsOf_perm hfiles c.topic).mem_iff]
    exact List.mem_filter.2 ⟨hc, by simp⟩
  have hkey : c.entry.1 ∈ ((view.listed world c.topic).map ConnectionData.entry).map Prod.fst := by
    rw [map_listed, mem_keys_ofList]
    exact List.mem_map_of_mem (List.mem_map_of_mem hmem)
  rw [List.map_map, List.mem_map] at hkey
  obtain ⟨d, hd, hkeys⟩ := hkey
  exact ⟨d, hd, ConnectionData.equal_iff.2 hkeys.symm⟩

theorem length_eq_sum {env : Env} (hfiles : world.OpenedFrom files)
    (hcounts : ∀ f ∈ files, f.CountsMessages env.codecs) (hbags : ∀ b ∈ view.bags, b < files.length)
    (hnodup : view.bags.Nodup) {topic : Bytes} {st st' : World × Iterator} {out : List (ℕ × RosMessage)}
    (hbegins : Begins env (.topics [topic]) view world st) (hsteps : Steps env st out st')
    (hend : st'.2.atEnd) :
    out.length = ((view.connectionsOf world topic).map ConnectionData.messageCount).sum := by
  have hlength : files.length = world.bags.length := List.Forall₂.length_eq hfiles
  obtain ⟨hmem, hstreams⟩ := hbegins.messages (fun b hb => hlength ▸ hbags b hb)
    hfiles.schemataSound hsteps hend
  have hall : out.length = out.countP fun x => x.1 ∈ view.bags := by
    rw [eq_comm, List.countP_eq_length]
    intro x hx
    simpa using hmem x hx
  rw [hall, ← sum_countP Prod.fst hnodup, connectionsOf, List.map_flatMap, List.flatMap_def,
    List.sum_flatten, List.map_map]
  congr 1
  refine List.map_congr_left fun b hb => ?_
  obtain ⟨bag, ms, hbag, hms, hshown⟩ := hstreams b hb
  obtain ⟨f, hf, hopens⟩ := hfiles.opens hbag
  rw [Function.comp_apply, hbag, Option.elim_some, ← hopens.length_fileOrder (hcounts f (List.mem_of_getElem? hf)) hms,
    hshown.length_eq, List.length_map, List.countP_eq_length_filter]

/-- The connections a view lists are told apart by `==`, each counts all those equal to it
whatever the order of the bags, and what is counted for a topic are the messages of the topic. -/
theorem connections_conserved {env : Env} (hfiles : world.OpenedFrom files)
    (hcounts : ∀ f ∈ files, f.CountsMessages env.codecs) (hbags : ∀ b ∈ view.bags, b < files.length)
    (hnodup : view.bags.Nodup) :
    (∀ topic, (view.listed world topic).Pairwise (fun c d => ¬ c.equal d) ∧
      ∀ c ∈ view.listed world topic,
        c.topic = topic ∧ c.messageCount = view.countOf world c % 2 ^ 64) ∧
    (∀ c ∈ view.allConnections world, ∃ d ∈ view.listed world c.topic, c.equal d) ∧
    (∀ view' : View, view'.bags.Perm view.bags → ∀ topic,
      ((view'.listed world topic).map ConnectionData.entry).Perm
        ((view.listed world topic).map ConnectionData.entry)) ∧
    ∀ topic st out st', Begins env (.topics [topic]) view world st → Steps env st out st' →
      st'.2.atEnd →
        ((view.listed world topic).map ConnectionData.messageCount).sum % 2 ^ 64 =
            out.length % 2 ^ 64 ∧
          (out.length < 2 ^ 64 →
            ((view.listed world topic).map ConnectionData.messageCount).sum = out.length) := by
  refine ⟨fun topic => ⟨?_, fun c hc => mem_listed hfiles hc⟩, fun c hc => exists_listed hfiles hc,
    fun view' hview' topic => ?_, fun topic st out st' hbegins hsteps hend => ?_⟩
  · have hkeys := nodup_ofList (2 ^ 64) ((view.connectionsOf world topic).map ConnectionData.entry)
    rw [← map_listed, List.map_map] at hkeys
    refine (List.pairwise_map.1 hkeys).imp fun hne => ?_
    rw [ConnectionData.equal_iff]
    exact hne
  · rw [map_listed, map_listed]
    apply ofList_perm (entry_lt hfiles topic)
    exact (hview'.flatMap_right _).map _
  · have hlength := length_eq_sum hfiles hcounts hbags hnodup hbegins hsteps hend
    have hsnd : ∀ l : List ConnectionData, (l.map ConnectionData.entry).map Prod.snd =
        l.map ConnectionData.messageCount := fun l => List.map_map
    have hsum := sum_ofList (m := 2 ^ 64)
      (l := (view.connectionsOf world topic).map ConnectionData.entry)
    rw [← map_listed, hsnd, hsnd, ← hlength] at hsum
    refine ⟨hsum.1, fun hlt => ?_⟩
    exact Nat.ModEq.eq_of_lt_of_lt hsum.1 (hsum.2.trans_lt hlt) hlt

end View

theorem StoredBag.countsMessages {b : StoredBag} {codecs : Codecs} (hcodecs : b.Decompresses codecs)
    (hend : ∀ records ∈ b.contents, ChunkRecord.EndsInData records)
    (hcounts : ∀ x ∈ b.infos, ∀ records, b.contents[x.chunk]? = some records → ∀ id < b.connections.length,
      BagLayout.messageCount (b.indexOf x) id =
        (records.filterMap ChunkRecord.message?).countP fun r => r.connection = id) :
    b.CountsMessages codecs := by
  intro bag hbag i x ms hx hms id hid
  obtain ⟨records, hcontents, hread⟩ :=
    forall₂_isRead_of_chunkHolds (BagFile.opens_of_ofBytes hbag) hcodecs hend hx hms
  rw [hcounts x (List.mem_of_getElem? hx) records hcontents id hid]
  clear hms
  generalize records.filterMap ChunkRecord.message? = rs at hread
  induction hread with
  | nil => rfl
  | cons hr _ ih => rw [List.countP_cons, List.countP_cons, ih, hr.connectionId]

theorem countsMessages_pairBag : pairBag.CountsMessages sampleEnv.codecs := by
  refine StoredBag.countsMessages (decompresses_pairBag _) StoredBag.endsInData_pairBag fun x hx records hrecords => ?_
  rcases List.mem_pair.1 hx with rfl | rfl
  · cases hrecords
    decide
  · cases hrecords
    decide

/-- Two copies of a bag, with two messages of the topic each. -/
theorem View.connections_conserved_sample : ∃ out : List (ℕ × RosMessage), out.length = 4 ∧
    ((listed { bags := [0, 1] } { bags := [pairBag.bag, pairBag.bag] } (bytes "/b")).map
      ConnectionData.messageCount).sum = out.length := by
  have htopics : (View.messages sampleEnv (.topics [bytes "/b"]) 5 { bags := [0, 1] }
      { bags := [pairBag.bag, pairBag.bag] }).map List.length = some 4 := by decide +kernel
  obtain ⟨out, hout, hlength⟩ := Option.map_eq_some_iff.1 htopics
  obtain ⟨st, st', hbegins, hsteps, hend⟩ := View.exists_of_messages hout
  have hopened : World.OpenedFrom [pairBag.toBagFile, pairBag.toBagFile] { bags := [pairBag.bag, pairBag.bag] } :=
    .cons pairBag.opens_bag (.cons pairBag.opens_bag .nil)
  have hcounts : ∀ f ∈ [pairBag.toBagFile, pairBag.toBagFile], f.CountsMessages sampleEnv.codecs := by
    intro f hf
    rw [List.mem_pair, or_self] at hf
    rw [hf]
    exact countsMessages_pairBag
  have hconserved := @connections_conserved { bags := [0, 1] } { bags := [pairBag.bag, pairBag.bag] } _ sampleEnv
    hopened hcounts (by simp) (by simp)
  refine ⟨out, hlength, ?_⟩
  apply (hconserved.2.2.2 _ st out st' hbegins hsteps hend).2
  rw [hlength]
  norm_num

end Embag
