import Embag.ViewSchemas

/-! What the views of well-formed bags work with: every chunk is kept at an offset of its own,
and the wrappers of `getMessages` have the chunks and the connections that were asked for. -/

namespace Embag

open OrderedSet

/-- What opening a file leads to, which never fails. -/
def BagFile.bag (f : BagFile) : Bag :=
  match Bag.ofBytes f.encode with
  | .ok bag => bag
  | .error _ => { bagBytes := [] }

theorem BagFile.ofBytes_bag (f : BagFile) : Bag.ofBytes f.encode = .ok f.bag := by
  obtain ⟨bag, hbag, -⟩ := f.exists_opened
  rw [BagFile.bag, hbag]

namespace BagFile

/-- The bag was opened from the file; schemas may have been looked up since. -/
structure Opens (f : BagFile) (bag : Bag) : Prop where
  file : ∃ opened, Bag.ofBytes f.encode = .ok opened ∧ bag.file = opened.file
  schemata : bag.SchemataSound

variable {f : BagFile} {bag : Bag}

theorem Opens.opened (h : f.Opens bag) : f.Opened bag.file := by
  obtain ⟨bag₀, hbag₀, hfile⟩ := h.file
  obtain ⟨bag₁, hbag₁, hopened⟩ := f.exists_opened
  rw [hbag₀] at hbag₁
  have heq := Except.ok.inj hbag₁
  subst heq
  have hsame : bag₀.file = bag₀ := by rw [Bag.file, ← hopened.schemata]
  rw [hfile, hsame]
  exact hopened

theorem opens_of_ofBytes (h : Bag.ofBytes f.encode = .ok bag) : f.Opens bag := by
  obtain ⟨opened, hopened, hof⟩ := f.exists_opened
  rw [h] at hopened
  cases hopened
  refine ⟨⟨bag, h, rfl⟩, fun topic schema hlookup => ?_⟩
  rw [hof.schemata] at hlookup
  simp at hlookup

theorem opens_bag (f : BagFile) : f.Opens f.bag := opens_of_ofBytes f.ofBytes_bag

theorem Opens.connection (h : f.Opens bag) {c : FileConnection} (hc : c ∈ f.connections) :
    bag.connections[c.id]? = some (f.connectionRecord c) := by
  have hrecord := h.opened.holds.record c hc
  exact hrecord

theorem Opens.length_connections (h : f.Opens bag) :
    bag.connections.length = f.connections.length := by
  have hlength := h.opened.holds.length
  exact hlength

theorem exists_connection (f : BagFile) {id : ℕ} (hid : id < f.connections.length) :
    ∃ c ∈ f.connections, c.id = id := by
  have hmem := f.ids.mem_iff.2 (List.mem_range.2 hid)
  simpa using hmem

theorem Opens.exists_connection (h : f.Opens bag) {id : ℕ} {r : ConnectionRecord}
    (hr : bag.connections[id]? = some r) :
    ∃ c ∈ f.connections, c.id = id ∧ r = f.connectionRecord c := by
  obtain ⟨hlt, -⟩ := List.getElem?_eq_some_iff.1 hr
  rw [h.length_connections] at hlt
  obtain ⟨c, hc, rfl⟩ := f.exists_connection hlt
  rw [h.connection hc] at hr
  cases hr
  exact ⟨c, hc, rfl, rfl⟩

theorem eq_of_id {c d : FileConnection} (hc : c ∈ f.connections) (hd : d ∈ f.connections)
    (hid : c.id = d.id) : c = d :=
  List.inj_on_of_nodup_map f.nodup_ids hc hd hid

def firstOf (f : BagFile) (topic : Bytes) : Option FileConnection :=
  f.connections.find? fun c => c.topic = topic

theorem exists_firstOf {c : FileConnection} (hc : c ∈ f.connections) :
    ∃ first ∈ f.connections, f.firstOf c.topic = some first := by
  obtain ⟨first, hfirst⟩ : ∃ first, f.firstOf c.topic = some first := by
    rw [← Option.isSome_iff_exists, firstOf, List.find?_isSome]
    exact ⟨c, hc, by simp⟩
  exact ⟨first, List.mem_of_find?_eq_some hfirst, hfirst⟩

theorem Opens.schemaOf (h : f.Opens bag) {topic : Bytes} {first : FileConnection}
    (hfirst : f.firstOf topic = some first) :
    bag.schemaOf topic = parseMsgDef first.messageDefinition first.type := by
  have hids : (bag.topicConnectionMap.lookup topic).getD [] = idsOf f.connections topic :=
    h.opened.topics.lookup topic
  have hmem := List.mem_of_find?_eq_some hfirst
  have hcons : ∃ rest, idsOf f.connections topic = first.id :: rest := by
    rw [firstOf, ← List.head?_filter] at hfirst
    obtain ⟨rest, hrest⟩ := List.head?_eq_some_iff.1 hfirst
    exact ⟨rest.map FileConnection.id, by rw [idsOf, hrest, List.map_cons]⟩
  obtain ⟨rest, hrest⟩ := hcons
  have hlookup : bag.topicConnectionMap.lookup topic = some (first.id :: rest) := by
    rw [hrest] at hids
    cases hmap : bag.topicConnectionMap.lookup topic with
    | none => simp [hmap] at hids
    | some ids => simpa [hmap] using hids
  rw [Bag.schemaOf, hlookup]
  simp only [h.connection hmem]
  rfl

theorem chunkPosition_succ {k : ℕ} {c : FileChunk} (hc : f.chunks[k]? = some c) :
    f.chunkPosition (k + 1) = f.chunkPosition k + c.encode.length := by
  obtain ⟨hk, rfl⟩ := List.getElem?_eq_some_iff.1 hc
  rw [BagLayout.chunkPosition, BagLayout.chunkPosition, List.take_add_one,
    List.getElem?_eq_getElem hk, Option.toList_some, List.flatMap_append, List.flatMap_singleton,
    List.length_append, Nat.add_assoc]

theorem chunkPosition_mono {k l : ℕ} (h : k ≤ l) : f.chunkPosition k ≤ f.chunkPosition l := by
  have hprefix : (f.chunks.take k).flatMap FileChunk.encode <+: (f.chunks.take l).flatMap FileChunk.encode := by
    obtain ⟨t, ht⟩ := List.take_prefix_take_left h (l := f.chunks)
    exact ⟨t.flatMap FileChunk.encode, by rw [← ht, List.flatMap_append]⟩
  have hlen := hprefix.length_le
  simp only [BagLayout.chunkPosition]
  omega

theorem chunkEnd_lt {k l : ℕ} {c d : FileChunk} (hkl : k < l) (hc : f.chunks[k]? = some c) :
    f.chunkPosition k + c.record.encode.length < f.chunkPosition l + d.record.encode.length := by
  have hsucc := chunkPosition_succ hc
  have hmono := chunkPosition_mono (f := f) (show k + 1 ≤ l from hkl)
  have hd := d.record.length_encode
  have henc : c.encode.length = c.record.encode.length + _ := List.length_append
  omega

theorem Opens.exists_chunk (h : f.Opens bag) {i : ℕ} (hi : i < bag.chunks.length) :
    ∃ x c, f.infos[i]? = some x ∧ f.chunks[x.chunk]? = some c ∧
      bag.chunks[i]? = some (f.chunk x c) := by
  have hchunks : List.Forall₂ f.IsChunk f.infos bag.chunks := h.opened.chunks
  have hi' : i < f.infos.length := hchunks.length_eq ▸ hi
  obtain ⟨c, hc, hchunk⟩ := List.forall₂_iff_get.1 hchunks |>.2 i hi' hi
  rw [List.get_eq_getElem] at hc hchunk
  exact ⟨_, c, List.getElem?_eq_getElem hi', hc,
    (List.getElem?_eq_getElem hi).trans (congrArg some hchunk)⟩

theorem Opens.chunkOffset_inj (h : f.Opens bag) {i j : ℕ} (hi : i < bag.chunks.length)
    (hj : j < bag.chunks.length) (hoffset : bag.chunkOffset i = bag.chunkOffset j) : i = j := by
  obtain ⟨x, c, hx, hc, hchunk⟩ := h.exists_chunk hi
  obtain ⟨y, d, hy, hd, hchunk'⟩ := h.exists_chunk hj
  have hends : f.chunkPosition x.chunk + c.record.encode.length =
      f.chunkPosition y.chunk + d.record.encode.length := by
    rw [← f.positions x (List.mem_of_getElem? hx), ← f.positions y (List.mem_of_getElem? hy)]
    simpa [Bag.chunkOffset, hchunk, hchunk', BagLayout.chunk] using hoffset
  have hsame : x.chunk = y.chunk := by
    rcases Nat.lt_trichotomy x.chunk y.chunk with hlt | heq | hlt
    · have hne := chunkEnd_lt (d := d) hlt hc
      omega
    · exact heq
    · have hne := chunkEnd_lt (d := c) hlt hd
      omega
  have hnodup : (f.infos.map FileChunkInfo.chunk).Nodup := f.infosOf.nodup_iff.2 List.nodup_range
  obtain ⟨hi', hxi⟩ := List.getElem?_eq_some_iff.1 hx
  obtain ⟨hj', hyj⟩ := List.getElem?_eq_some_iff.1 hy
  have hinj := @List.Nodup.getElem_inj_iff _ _ hnodup i (by simpa using hi') j (by simpa using hj')
  refine hinj.1 ?_
  simpa [hxi, hyj] using hsame

theorem Opens.mem_chunkSet (h : f.Opens bag) {ps : List ℕ} (hps : ∀ p ∈ ps, p < bag.chunks.length)
    {p : ℕ} : p ∈ bag.chunkSet ps ↔ p ∈ ps :=
  mem_ofList fun i hi j hj => h.chunkOffset_inj (hps i hi) (hps j hj)

theorem Opens.mem_selectedConnections (h : f.Opens bag) {topics : List Bytes} {r : ConnectionRecord} :
    r ∈ View.selectedConnections topics bag ↔
      ∃ c ∈ f.connections, c.topic ∈ topics ∧ r = f.connectionRecord c := by
  have hids : ∀ topic, (bag.topicConnectionMap.lookup topic).getD [] = idsOf f.connections topic :=
    h.opened.topics.lookup
  simp only [View.selectedConnections, List.mem_flatMap, List.mem_filterMap, hids, idsOf,
    List.mem_map, List.mem_filter, decide_eq_true_eq]
  constructor
  · rintro ⟨topic, htopic, id, ⟨c, ⟨hc, rfl⟩, rfl⟩, hr⟩
    rw [h.connection hc] at hr
    cases hr
    exact ⟨c, hc, htopic, rfl⟩
  · rintro ⟨c, hc, htopic, rfl⟩
    exact ⟨c.topic, htopic, c.id, ⟨c, ⟨hc, rfl⟩, rfl⟩, h.connection hc⟩

theorem Opens.mem_connectionIds (h : f.Opens bag) {topics : List Bytes} {b id : ℕ} :
    id ∈ (View.wrapper (.topics topics) b bag).scan.connectionIds ↔
      ∃ c ∈ f.connections, c.id = id ∧ c.topic ∈ topics := by
  simp only [View.wrapper, View.topicsWrapper, List.mem_map, h.mem_selectedConnections]
  constructor
  · rintro ⟨_, ⟨c, hc, htopic, rfl⟩, rfl⟩
    exact ⟨c, hc, rfl, htopic⟩
  · rintro ⟨c, hc, rfl, htopic⟩
    exact ⟨_, ⟨c, hc, htopic, rfl⟩, rfl⟩

theorem Opens.mem_allChunks (h : f.Opens bag) {b p : ℕ} :
    p ∈ (View.wrapper .all b bag).scan.chunksToParse ↔ p < bag.chunks.length := by
  rw [View.wrapper, View.plainWrapper, h.mem_chunkSet (by simp), List.mem_range]

/-- The number of the chunk in the file that is kept under an index. -/
def chunkOf (f : BagFile) (i : ℕ) : ℕ := (f.infos[i]?).elim 0 FileChunkInfo.chunk

theorem Opens.chunkOf_allChunks (h : f.Opens bag) (b : ℕ) :
    (View.wrapper .all b bag).scan.chunksToParse.map f.chunkOf = List.range f.chunks.length := by
  have hlt : ∀ i < bag.chunks.length, ∀ j < bag.chunks.length,
      bag.chunkOffset i < bag.chunkOffset j → f.chunkOf i < f.chunkOf j := by
    intro i hi j hj hoffset
    obtain ⟨x, c, hx, hc, hchunk⟩ := h.exists_chunk hi
    obtain ⟨y, d, hy, hd, hchunk'⟩ := h.exists_chunk hj
    have hends : f.chunkPosition x.chunk + c.record.encode.length <
        f.chunkPosition y.chunk + d.record.encode.length := by
      rw [← f.positions x (List.mem_of_getElem? hx), ← f.positions y (List.mem_of_getElem? hy)]
      simpa [Bag.chunkOffset, hchunk, hchunk', BagLayout.chunk] using hoffset
    rw [chunkOf, chunkOf, hx, hy, Option.elim_some, Option.elim_some]
    rcases Nat.lt_trichotomy x.chunk y.chunk with hxy | hxy | hxy
    · exact hxy
    · rw [hxy] at hc hends
      rw [hc] at hd
      cases hd
      omega
    · have hgt := chunkEnd_lt (d := c) hxy hd
      omega
  have hordered : Ordered bag.chunkOffset (View.wrapper .all b bag).scan.chunksToParse := ordered_ofList _
  have hmap : ((View.wrapper .all b bag).scan.chunksToParse.map f.chunkOf).Pairwise (· < ·) := by
    rw [List.pairwise_map]
    exact List.Pairwise.imp_of_mem (fun hi hj hij => hlt _ (h.mem_allChunks.1 hi) _ (h.mem_allChunks.1 hj) hij)
      hordered
  refine List.Pairwise.eq_of_mem_iff hmap List.pairwise_lt_range fun k => ?_
  have hinfos : ∀ k, k ∈ List.range f.chunks.length ↔ k ∈ f.infos.map FileChunkInfo.chunk :=
    fun k => f.infosOf.mem_iff.symm
  have hlength : bag.chunks.length = f.infos.length := h.opened.chunks.length_eq.symm
  rw [hinfos, List.mem_map, List.mem_map]
  constructor
  · rintro ⟨i, hi, rfl⟩
    obtain ⟨x, c, hx, -, -⟩ := h.exists_chunk (h.mem_allChunks.1 hi)
    exact ⟨x, List.mem_of_getElem? hx, by rw [chunkOf, hx]; rfl⟩
  · rintro ⟨x, hx, rfl⟩
    obtain ⟨i, hi, rfl⟩ := List.getElem_of_mem hx
    refine ⟨i, h.mem_allChunks.2 (hlength ▸ hi), ?_⟩
    rw [chunkOf, List.getElem?_eq_getElem hi]
    rfl

/-- Asking for topics leads to the chunks that have an INDEX_DATA record of a connection of one. -/
theorem Opens.mem_topicChunks (h : f.Opens bag) {topics : List Bytes} {b p : ℕ} :
    p ∈ (View.wrapper (.topics topics) b bag).scan.chunksToParse ↔
      ∃ x, f.infos[p]? = some x ∧
        ∃ c ∈ f.connections, c.topic ∈ topics ∧ ∃ y ∈ f.indexOf x, y.connection = c.id := by
  have hblocks : ∀ q, q ∈ ((View.selectedConnections topics bag).flatMap
      fun c => c.blocks.map IndexBlock.intoChunk) ↔ ∃ x, f.infos[q]? = some x ∧
        ∃ c ∈ f.connections, c.topic ∈ topics ∧ ∃ y ∈ f.indexOf x, y.connection = c.id := by
    intro q
    simp only [List.mem_flatMap, h.mem_selectedConnections, List.mem_map]
    constructor
    · rintro ⟨_, ⟨c, hc, htopic, rfl⟩, ⟨q⟩, hq, rfl⟩
      obtain ⟨x, hx, hy⟩ := ((f.isBlocks_blocks c.id).mem q).1 hq
      exact ⟨x, hx, c, hc, htopic, hy⟩
    · rintro ⟨x, hx, c, hc, htopic, hy⟩
      exact ⟨_, ⟨c, hc, htopic, rfl⟩, ⟨q⟩, ((f.isBlocks_blocks c.id).mem q).2 ⟨x, hx, hy⟩, rfl⟩
  have hlength : bag.chunks.length = f.infos.length := h.opened.chunks.length_eq.symm
  rw [View.wrapper, View.topicsWrapper, h.mem_chunkSet, hblocks]
  intro q hq
  obtain ⟨x, hx, -⟩ := (hblocks q).1 hq
  rw [hlength]
  exact (List.getElem?_eq_some_iff.1 hx).1

end BagFile

end Embag
