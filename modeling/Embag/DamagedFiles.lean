import Embag.TypedBags
import Embag.ViewFailures

/-! Damage to the data of chunks. Opening a bag does not look at them, so that it has the records of the whole
file all the same, and the chunks that are whole hold what was written into them. -/

namespace Embag

open LittleEndian Loops

/-- The bytes with others written over their front; those of the same length take their place. -/
def overwrite (old new : Bytes) : Bytes := new.take old.length ++ old.drop new.length

theorem length_overwrite (old new : Bytes) : (overwrite old new).length = old.length := by
  rw [overwrite, List.length_append, List.length_take, List.length_drop]
  omega

theorem overwrite_nil (old : Bytes) : overwrite old [] = old := by
  rw [overwrite, List.take_nil]
  rfl

def FileRecord.damage (noise : Bytes) (r : FileRecord) : FileRecord where
  header := r.header
  data := overwrite r.data noise
  fits := (length_overwrite r.data noise).symm ▸ r.fits

theorem FileRecord.length_damage (noise : Bytes) (r : FileRecord) :
    (r.damage noise).encode.length = r.encode.length := by
  rw [length_encode, length_encode]
  simp only [damage, length_overwrite]

def FileChunk.damage (noise : Bytes) (c : FileChunk) : FileChunk where
  compression := c.compression
  size := c.size
  record := c.record.damage noise
  index := c.index
  compression_mem := c.compression_mem
  sizeFits := c.sizeFits
  has := c.has

theorem FileChunk.damage_nil (c : FileChunk) : c.damage [] = c := by
  simp only [damage, FileRecord.damage, overwrite_nil]

theorem FileChunk.length_damage (noise : Bytes) (c : FileChunk) :
    (c.damage noise).encode.length = c.encode.length := by
  simp only [encode, damage, List.length_append, FileRecord.length_damage]

namespace BagLayout

variable (noise : ℕ → Bytes) (b : BagLayout)

/-- The layout with noise in the data of its chunks; where it is empty the chunk is whole. -/
def damage : BagLayout := { b with chunks := b.chunks.mapIdx fun k c => c.damage (noise k) }

theorem getElem?_damage (k : ℕ) : (b.damage noise).chunks[k]? = (b.chunks[k]?).map (FileChunk.damage (noise k)) :=
  List.getElem?_mapIdx

theorem length_damage : (b.damage noise).chunks.length = b.chunks.length := List.length_mapIdx

theorem map_length_damage :
    (b.damage noise).chunks.map (fun c => c.encode.length) = b.chunks.map fun c => c.encode.length := by
  refine List.ext_getElem? fun k => ?_
  rw [List.getElem?_map, List.getElem?_map, getElem?_damage, Option.map_map]
  refine congrArg (fun g => Option.map g b.chunks[k]?) (funext fun c => ?_)
  exact c.length_damage (noise k)

theorem length_chunks_damage :
    ((b.damage noise).chunks.flatMap FileChunk.encode).length = (b.chunks.flatMap FileChunk.encode).length := by
  rw [List.length_flatMap, List.length_flatMap, map_length_damage]

theorem chunkPosition_damage (k : ℕ) : (b.damage noise).chunkPosition k = b.chunkPosition k := by
  rw [chunkPosition, chunkPosition, List.length_flatMap, List.length_flatMap, List.map_take, map_length_damage,
    ← List.map_take]
  rfl

theorem indexPos_damage : (b.damage noise).indexPos = b.indexPos := by
  rw [indexPos, indexPos, length_chunks_damage]
  rfl

theorem length_encode_damage : (b.damage noise).encode.length = b.encode.length := by
  simp only [encode, List.length_append, length_chunks_damage]
  rfl

theorem indexOf_damage (info : FileChunkInfo) : (b.damage noise).indexOf info = b.indexOf info := by
  rw [indexOf, indexOf, getElem?_damage]
  cases b.chunks[info.chunk]? <;> rfl

theorem mem_damage {c : FileChunk} (h : c ∈ (b.damage noise).chunks) : ∃ d ∈ b.chunks, c.index = d.index := by
  obtain ⟨k, hk⟩ := List.mem_iff_getElem?.1 h
  rw [getElem?_damage, Option.map_eq_some_iff] at hk
  obtain ⟨d, hd, rfl⟩ := hk
  exact ⟨d, List.mem_of_getElem? hd, rfl⟩

end BagLayout

/-- The file with noise in the data of its chunks. It is a bag still: all that the records say of each other
is as it was. -/
def BagFile.damage (noise : ℕ → Bytes) (f : BagFile) : BagFile where
  toBagLayout := f.toBagLayout.damage noise
  has := by
    rw [BagLayout.indexPos_damage, BagLayout.length_damage]
    exact f.has
  ids := f.ids
  infosOf := by
    rw [BagLayout.length_damage]
    exact f.infosOf
  positions info hinfo := by
    rw [BagLayout.chunkPosition_damage]
    exact f.positions info hinfo
  counts info hinfo := by
    rw [BagLayout.indexOf_damage]
    exact f.counts info hinfo
  indexed c hc := by
    obtain ⟨d, hd, hindex⟩ := f.toBagLayout.mem_damage noise hc
    rw [hindex]
    exact f.indexed d hd
  messages c hc := by
    obtain ⟨d, hd, hindex⟩ := f.toBagLayout.mem_damage noise hc
    rw [hindex]
    exact f.messages d hd
  connectionsFit := f.connectionsFit
  chunksFit := by
    rw [BagLayout.length_damage]
    exact f.chunksFit
  size := by
    rw [BagLayout.length_encode_damage]
    exact f.size

/-- The bags have the same records, whatever the bytes of their chunks are. -/
structure Bag.SameRecords (bag bag' : Bag) : Prop where
  connections : bag.connections = bag'.connections
  chunks : bag.chunks = bag'.chunks
  lookup : ∀ topic, bag.topicConnectionMap.lookup topic = bag'.topicConnectionMap.lookup topic

namespace Bag.SameRecords

variable {bag bag' : Bag}

theorem schemaOf (h : bag.SameRecords bag') : bag.schemaOf = bag'.schemaOf := by
  funext topic
  simp only [Bag.schemaOf, h.lookup, h.connections]

theorem message (h : bag.SameRecords bag') : bag.message = bag'.message := by
  funext c
  simp only [Bag.message, h.connections, h.schemaOf]

theorem returns (h : bag.SameRecords bag') {c : CurrentMessage} (hc : bag'.Returns c) : bag.Returns c := by
  rw [Bag.Returns, h.connections, h.schemaOf]
  exact hc

theorem wrapper (h : bag.SameRecords bag') (selection : View.Selection) (b : ℕ) :
    View.wrapper selection b bag = View.wrapper selection b bag' := by
  have hoffset : bag.chunkOffset = bag'.chunkOffset := by
    funext p
    rw [Bag.chunkOffset, Bag.chunkOffset, h.chunks]
  have hselected : ∀ topics, View.selectedConnections topics bag = View.selectedConnections topics bag' := by
    intro topics
    simp only [View.selectedConnections, h.lookup, h.connections]
  cases selection with
  | all => simp only [View.wrapper, View.plainWrapper, Bag.chunkSet, hoffset, h.chunks, h.connections]
  | topics topics => simp only [View.wrapper, View.topicsWrapper, Bag.chunkSet, hoffset, hselected]

end Bag.SameRecords

namespace BagFile

variable {f : BagFile} {noise : ℕ → Bytes} {bag bag' : Bag} {codecs : Codecs}

theorem connectionRecord_damage (noise : ℕ → Bytes) (f : BagFile) (c : FileConnection) :
    (f.damage noise).connectionRecord c = f.connectionRecord c := by
  have hindex : (f.damage noise).chunks.map FileChunk.index = f.chunks.map FileChunk.index := by
    refine List.ext_getElem? fun k => ?_
    rw [List.getElem?_map, List.getElem?_map, damage, BagLayout.getElem?_damage, Option.map_map]
    rfl
  have hcount : (f.damage noise).indexCount = f.indexCount := by
    funext id info
    rw [BagLayout.indexCount, BagLayout.indexCount, damage, BagLayout.indexOf_damage]
  rw [connectionRecord, connectionRecord, List.flatMap_def, hindex, ← List.flatMap_def, BagLayout.blocks, hcount]
  rfl

theorem chunk_damage (noise : ℕ → Bytes) (f : BagFile) (x : FileChunkInfo) (c : FileChunk) :
    (f.damage noise).chunk x (c.damage (noise x.chunk)) = f.chunk x c := by
  have hinfo : (f.damage noise).chunkInfo x = f.chunkInfo x := by
    rw [BagLayout.chunkInfo, BagLayout.chunkInfo, damage, BagLayout.indexOf_damage]
  have hlength : (c.damage (noise x.chunk)).record.data.length = c.record.data.length := length_overwrite _ _
  simp only [BagLayout.chunk, hinfo, FileRecord.toRecord, hlength]
  have hencode : (c.damage (noise x.chunk)).record.encode.length = c.record.encode.length :=
    FileRecord.length_damage _ _
  rw [hencode]
  rfl

/-- A damaged file opens to the records of the whole one. -/
theorem Opens.sameRecords (h : (f.damage noise).Opens bag) (h' : f.Opens bag') : bag.SameRecords bag' where
  connections := by
    refine List.ext_getElem? fun id => ?_
    have hlength : bag.connections.length = bag'.connections.length := by
      rw [h.length_connections, h'.length_connections]
      rfl
    by_cases hid : id < f.connections.length
    · obtain ⟨c, hc, rfl⟩ := f.exists_connection hid
      rw [h'.connection hc, h.connection (show c ∈ (f.damage noise).connections from hc), connectionRecord_damage]
    · rw [List.getElem?_eq_none (h'.length_connections.trans_le (not_lt.1 hid)),
        List.getElem?_eq_none (hlength.trans_le (h'.length_connections.trans_le (not_lt.1 hid)))]
  chunks := by
    have hchunks : List.Forall₂ (f.damage noise).IsChunk f.infos bag.chunks := h.opened.chunks
    have hchunks' : List.Forall₂ f.IsChunk f.infos bag'.chunks := h'.opened.chunks
    refine List.forall₂_eq_eq_eq.le _ _ ((forall₂_comp hchunks.flip hchunks').imp ?_)
    rintro chunk chunk' ⟨x, ⟨c, hc, rfl⟩, d, hd, rfl⟩
    rw [damage, BagLayout.getElem?_damage, hd] at hc
    cases hc
    exact f.chunk_damage noise x d
  lookup topic := by
    have hlookup := (h.opened.topics.lookup topic).trans (h'.opened.topics.lookup topic).symm
    have hmem := (h.opened.topics.mem topic).trans (h'.opened.topics.mem topic).symm
    change (bag.topicConnectionMap.lookup topic).getD [] = (bag'.topicConnectionMap.lookup topic).getD [] at hlookup
    change topic ∈ bag.topicConnectionMap ↔ topic ∈ bag'.topicConnectionMap at hmem
    rw [← AList.lookup_isSome, ← AList.lookup_isSome] at hmem
    cases hl : bag.topicConnectionMap.lookup topic <;> cases hl' : bag'.topicConnectionMap.lookup topic <;>
      simp_all

end BagFile

def BagFile.Selects (f : BagFile) (selection : View.Selection) (k : ℕ) : Prop :=
  ∃ chunk, f.chunks[k]? = some chunk ∧ ∀ topics, selection = .topics topics →
    ∃ c ∈ f.connections, c.topic ∈ topics ∧ ∃ y ∈ chunk.index, y.connection = c.id

/-- Of the first chunks, those that are read for the selection are whole. -/
def BagFile.WholeUpTo (f : BagFile) (noise : ℕ → Bytes) (selection : View.Selection) (k : ℕ) : Prop :=
  ∀ j < k, f.Selects selection j → noise j = []

theorem BagFile.Opens.mem_chunksToParse {f : BagFile} {bag : Bag} (h : f.Opens bag) {selection : View.Selection}
    {b p : ℕ} : p ∈ (View.wrapper selection b bag).scan.chunksToParse ↔
      p < bag.chunks.length ∧ f.Selects selection (f.chunkOf p) := by
  have hselects : ∀ {x c}, f.infos[p]? = some x → f.chunks[x.chunk]? = some c →
      (f.Selects selection (f.chunkOf p) ↔ ∀ topics, selection = .topics topics →
        ∃ d ∈ f.connections, d.topic ∈ topics ∧ ∃ y ∈ f.indexOf x, y.connection = d.id) := by
    intro x c hx hc
    have hchunkOf : f.chunkOf p = x.chunk := by
      rw [BagFile.chunkOf, hx]
      rfl
    have hindexOf : f.indexOf x = c.index := by
      rw [BagLayout.indexOf, hc]
      rfl
    rw [BagFile.Selects, hchunkOf, hc, hindexOf]
    simp only [Option.some.injEq, exists_eq_left']
  cases selection with
  | all =>
    rw [h.mem_allChunks]
    refine ⟨fun hp => ⟨hp, ?_⟩, fun hp => hp.1⟩
    obtain ⟨x, c, hx, hc, -⟩ := h.exists_chunk hp
    refine (hselects hx hc).2 fun _ htopics => ?_
    cases htopics
  | topics topics =>
    rw [h.mem_topicChunks]
    constructor
    · rintro ⟨x, hx, d, hd, htopic, y, hy⟩
      obtain ⟨c, hc⟩ := f.exists_chunk (List.mem_of_getElem? hx)
      have hlength : bag.chunks.length = f.infos.length := h.opened.chunks.length_eq.symm
      refine ⟨hlength ▸ (List.getElem?_eq_some_iff.1 hx).1, (hselects hx hc).2 ?_⟩
      rintro _ ⟨⟩
      exact ⟨d, hd, htopic, y, hy⟩
    · rintro ⟨hp, hselect⟩
      obtain ⟨x, c, hx, hc, -⟩ := h.exists_chunk hp
      exact ⟨x, hx, (hselects hx hc).1 hselect topics rfl⟩

theorem BagFile.Opens.chunksToParse_eq {f : BagFile} {bag : Bag} (h : f.Opens bag) (selection : View.Selection)
    (b : ℕ) : (View.wrapper selection b bag).scan.chunksToParse =
      (View.wrapper .all b bag).scan.chunksToParse.filter
        fun p => p ∈ (View.wrapper selection b bag).scan.chunksToParse := by
  have hordered : OrderedSet.Ordered bag.chunkOffset (View.wrapper selection b bag).scan.chunksToParse := by
    cases selection <;> exact OrderedSet.ordered_ofList _
  have hordered' : OrderedSet.Ordered bag.chunkOffset (View.wrapper .all b bag).scan.chunksToParse :=
    OrderedSet.ordered_ofList _
  refine hordered.ext (hordered'.filter _) fun p => ?_
  simp only [List.mem_filter, decide_eq_true_eq, h.mem_allChunks, iff_and_self]
  exact fun hp => (h.mem_chunksToParse.1 hp).1

theorem BagFile.Opens.exists_front {f : BagFile} {bag : Bag} (h : f.Opens bag) (selection : View.Selection)
    (b k : ℕ) : ∃ front behind, (View.wrapper selection b bag).scan.chunksToParse = front ++ behind ∧
      front = ((View.wrapper .all b bag).scan.chunksToParse.take k).filter
        (fun p => p ∈ (View.wrapper selection b bag).scan.chunksToParse) ∧
      (∀ p ∈ front, f.chunkOf p < k) ∧ ∀ p ∈ behind, k ≤ f.chunkOf p := by
  have hread := h.chunksToParse_eq selection b
  have hchunkOf := h.chunkOf_allChunks b
  generalize (View.wrapper .all b bag).scan.chunksToParse = ps at *
  refine ⟨_, (ps.drop k).filter fun p => p ∈ (View.wrapper selection b bag).scan.chunksToParse, ?_, rfl,
    fun p hp => ?_, fun p hp => ?_⟩
  · rw [← List.filter_append, List.take_append_drop]
    exact hread
  · have hmem := List.mem_map_of_mem (f := f.chunkOf) (List.mem_of_mem_filter hp)
    rw [List.map_take, hchunkOf, List.take_range] at hmem
    exact (List.mem_range.1 hmem).trans_le (Nat.min_le_left k _)
  · have hmem := List.mem_map_of_mem (f := f.chunkOf) (List.mem_of_mem_filter hp)
    rw [List.map_drop, hchunkOf, List.range_eq_range', List.drop_range', List.mem_range'_1] at hmem
    omega

namespace StoredBag

variable {f : StoredBag} {noise : ℕ → Bytes} {bag : Bag} {codecs : Codecs} {xs : List Published}
  {selection : View.Selection} {i k : ℕ} {records : List ChunkRecord}

theorem returns_of_wanted (h : f.Opens bag) {n : ℕ} {c : CurrentMessage}
    (hc : c.connectionId ∈ (View.wrapper selection n bag).scan.connectionIds) : bag.Returns c := by
  cases selection with
  | all =>
    obtain ⟨d, hd, hid⟩ := f.exists_connection (h.length_connections ▸ List.mem_range.1 hc)
    exact returns_of_id h hd hid
  | topics topics =>
    obtain ⟨d, hd, hid, -⟩ := h.mem_connectionIds.1 hc
    exact returns_of_id h hd hid

/-- A chunk that is whole holds in the damaged file what it holds in the whole one. -/
theorem keeps_damage (h : (f.damage noise).Opens bag) (hcodecs : f.Decompresses codecs)
    (hi : i < bag.chunks.length) (hrecords : f.contents[f.chunkOf i]? = some records)
    (hwhole : noise (f.chunkOf i) = []) : f.Keeps codecs bag i records := by
  have hsame := h.sameRecords f.opens_bag
  rw [hsame.chunks] at hi
  obtain ⟨x, c, hx, hc, hchunk⟩ := f.opens_bag.exists_chunk hi
  have hchunkOf : f.chunkOf i = x.chunk := by
    rw [BagFile.chunkOf, hx]
    rfl
  obtain ⟨hne, hmem, chunk, hchunk', hsize, hdecompress⟩ := keeps_of_chunkOf f.opens_bag hcodecs hi hrecords
  rw [hchunk] at hchunk'
  cases hchunk'
  refine ⟨hne, hmem, _, by rw [hsame.chunks, hchunk], hsize, ?_⟩
  -- the same bytes stand in both files
  have hdamaged : (f.damage noise).chunks[x.chunk]? = some c := by
    rw [BagFile.damage, BagLayout.getElem?_damage, hc, ← hchunkOf, hwhole, Option.map_some, FileChunk.damage_nil]
  have hrecord : (f.chunk x c).record = c.record.toRecord x.position := rfl
  have hrecord' : ((f.damage noise).chunk x c).record = c.record.toRecord x.position := rfl
  have hdata := h.opened.readBack.data x (List.mem_of_getElem? hx) c hdamaged
  have hdata' := f.opens_bag.opened.readBack.data x (List.mem_of_getElem? hx) c hc
  simp only [Bag.file, hrecord, hrecord'] at hdata hdata'
  have hstored : c.compression = bytes "none" → c.size = (c.record.toRecord x.position).dataLen := by
    obtain ⟨records', -, hstores⟩ := forall₂_mem_right f.stored.flip (List.mem_of_getElem? hc)
    intro hnone
    exact hstores.size.trans (congrArg List.length (hstores.plain hnone)).symm
  have hsize' : (f.chunk x c).uncompressedSize = c.size := rfl
  have hcompression : (f.chunk x c).compression = c.compression := rfl
  rw [← hdecompress, Chunk.decompress, Chunk.decompress]
  simp only [hrecord, hsize', hcompression, hdata, hdata']
  split_ifs with hlz4 hbz2 hnone
  · rfl
  · rfl
  · rw [hstored hnone, hdata, hdata']
  · rfl

theorem chunkHolds_damage (h : (f.damage noise).Opens bag) (hcodecs : f.Decompresses codecs)
    (hi : i < f.bag.chunks.length) (hwhole : noise (f.chunkOf i) = []) {ms : List CurrentMessage}
    (hms : f.bag.ChunkHolds codecs i ms) : bag.ChunkHolds codecs i ms := by
  have hi' : i < bag.chunks.length := (h.sameRecords f.opens_bag).chunks ▸ hi
  obtain ⟨records, hrecords⟩ : ∃ records, f.contents[f.chunkOf i]? = some records := by
    obtain ⟨x, c, hx, hc, -⟩ := f.opens_bag.exists_chunk hi
    have hlength : f.chunks.length = f.contents.length := f.stored.length_eq
    have hlt := (List.getElem?_eq_some_iff.1 hc).1
    rw [hlength] at hlt
    rw [BagFile.chunkOf, hx]
    exact ⟨_, List.getElem?_eq_getElem hlt⟩
  obtain ⟨chunk, hchunk, hsize, hdecompress⟩ := (keeps_damage h hcodecs hi' hrecords hwhole).chunk
  obtain ⟨chunk', hchunk', hsize', hdecompress'⟩ := (keeps_of_chunkOf f.opens_bag hcodecs hi hrecords).chunk
  obtain ⟨chunk'', buffer, hchunk'', hpos, hdecompress'', hmessages⟩ := hms
  rw [hchunk'] at hchunk''
  cases hchunk''
  rw [hdecompress'] at hdecompress''
  cases hdecompress''
  rw [hsize', ← hsize] at hpos hmessages
  exact ⟨chunk, _, hchunk, hpos, hdecompress, hmessages⟩

theorem chunksHold_damage (h : (f.damage noise).Opens bag) (hcodecs : f.Decompresses codecs) {ps : List ℕ}
    (hwhole : ∀ p ∈ ps, p < f.bag.chunks.length ∧ noise (f.chunkOf p) = []) {mss : List (List CurrentMessage)}
    (hmss : f.bag.ChunksHold codecs ps mss) : bag.ChunksHold codecs ps mss := by
  refine List.forall₂_iff_zip.2 ⟨hmss.length_eq, fun {p ms} hmem => ?_⟩
  obtain ⟨hp, hnoise⟩ := hwhole p (List.of_mem_zip hmem).1
  exact chunkHolds_damage h hcodecs hp hnoise ((List.forall₂_iff_zip.1 hmss).2 hmem)

def messagesBefore (f : StoredBag) (k : ℕ) : ℕ :=
  ((f.contents.take k).flatten.filterMap ChunkRecord.message?).length

theorem Records.take (h : f.Records xs) (k : ℕ) :
    List.Forall₂ f.Writes ((f.contents.take k).flatten.filterMap ChunkRecord.message?)
      (xs.take (f.messagesBefore k)) := by
  have hsplit : f.messageRecords = (f.contents.take k).flatten.filterMap ChunkRecord.message? ++
      (f.contents.drop k).flatten.filterMap ChunkRecord.message? := by
    rw [messageRecords, ← List.filterMap_append, ← List.flatten_append, List.take_append_drop]
  have htake := List.forall₂_take (f.messagesBefore k) h.messages
  rwa [hsplit, messagesBefore, List.take_left] at htake

theorem ReadAs.wanted_iff (hopens : f.Opens bag) {c : CurrentMessage} {x : Published} (h : f.ReadAs c x) {n : ℕ} :
    c.connectionId ∈ (View.wrapper selection n bag).scan.connectionIds ↔ selection.wants x.topic = true := by
  cases selection with
  | all =>
    obtain ⟨r, ⟨buffer, hread⟩, hx⟩ := h
    obtain ⟨d, hd, hid, -⟩ := hx.connection
    have hlt := hopens.length_connections ▸ BagFile.id_lt hd
    simpa [View.wrapper, View.plainWrapper, View.Selection.wants, hread.connectionId, ← hid] using hlt
  | topics topics =>
    rw [h.wants_iff hopens, View.Selection.wants, List.contains_iff_mem]

theorem exists_chunksHold {ps : List ℕ} {contents : List (List ChunkRecord)}
    (hkeeps : List.Forall₂ (f.Keeps codecs bag) ps contents)
    (hend : ∀ records ∈ f.contents, ChunkRecord.EndsInData records) :
    ∃ mss, bag.ChunksHold codecs ps mss ∧
      List.Forall₂ IsRead (contents.flatten.filterMap ChunkRecord.message?) mss.flatten := by
  induction hkeeps with
  | nil => exact ⟨[], .nil, .nil⟩
  | cons hp _ ih =>
    obtain ⟨ms, hms, hread⟩ := hp.exists_chunkHolds (hend _ hp.mem)
    obtain ⟨mss, hmss, hall⟩ := ih
    refine ⟨ms :: mss, .cons hms hmss, ?_⟩
    rw [List.flatten_cons, List.flatten_cons, List.filterMap_append]
    exact List.rel_append (hread.imp fun _ _ hr => ⟨_, hr⟩) hall

theorem filter_eq_nil_of_notMem (hopens : f.Opens bag) (hrecords : f.Records xs) (hcodecs : f.Decompresses codecs)
    (hindexed : ∀ topics, selection = .topics topics → f.Indexed) {n p : ℕ} (hp : p < bag.chunks.length)
    (hnot : p ∉ (View.wrapper selection n bag).scan.chunksToParse) {ms : List CurrentMessage}
    (hms : bag.ChunkHolds codecs p ms) : (View.wrapper selection n bag).scan.wanted ms = [] := by
  cases selection with
  | all => exact absurd (hopens.mem_allChunks.2 hp) hnot
  | topics topics =>
    refine List.filter_eq_nil_iff.2 fun m hm hid => ?_
    rw [decide_eq_true_eq, hopens.mem_connectionIds] at hid
    rw [hopens.mem_topicChunks] at hnot
    obtain ⟨c, hc, hcid, htopic⟩ := hid
    obtain ⟨x, _, hx, -, -⟩ := hopens.exists_chunk hp
    obtain ⟨y, hy, hyid⟩ := hopens.indexed ((hindexed topics rfl).indexesMessages hrecords.allEndInData hcodecs) hx hms hm
      (hcid ▸ BagFile.id_lt hc)
    exact hnot ⟨x, hx, c, hc, htopic, y, hy, hyid.trans hcid.symm⟩

/-- The first of the chunks that are read, up to those of the file's first `k`, give the messages that were
asked for. -/
theorem Records.exists_intact (hrecords : f.Records xs) (h : (f.damage noise).Opens bag)
    (hcodecs : f.Decompresses codecs) (hindexed : ∀ topics, selection = .topics topics → f.Indexed)
    (hwhole : f.WholeUpTo noise selection k) (n : ℕ) :
    ∃ reach ms, Remaining bag codecs ((View.wrapper selection n bag).scan.upTo reach) ms ∧
      (∀ c ∈ ms, bag.Returns c) ∧
      List.Forall₂ f.ReadAs ms ((xs.take (f.messagesBefore k)).filter fun x => selection.wants x.topic) ∧
      (reach < (View.wrapper selection n bag).scan.chunksToParse.length → ∃ j ≥ k, f.Selects selection j) := by
  have hopens := f.opens_bag
  have hsame := h.sameRecords hopens
  rw [hsame.wrapper]
  obtain ⟨-, hbuffer, hbytes, hiter⟩ := View.wrapper_front selection n f.bag
  obtain ⟨front, behind, hsplit, hfilter, hfront, hbehind⟩ := hopens.exists_front selection n k
  have hselects : ∀ p ∈ front ++ behind, p < f.bag.chunks.length ∧ f.Selects selection (f.chunkOf p) :=
    fun p hp => hopens.mem_chunksToParse.1 (hsplit ▸ hp)
  -- the first chunks of the file, and those of them that are read
  obtain ⟨mss, hmss, hreads⟩ := exists_chunksHold (List.forall₂_take k (keeps_contents hopens hcodecs n))
    fun records hmem => endsInData_iff.2 (hrecords.endsInData records hmem)
  obtain ⟨mss', hmss'⟩ : ∃ mss', f.bag.ChunksHold codecs front mss' := by
    refine exists_forall₂ fun p hp => ?_
    obtain ⟨ms, -, hms⟩ := forall₂_mem_right hmss.flip (List.mem_of_mem_filter (hfilter ▸ hp))
    exact ⟨ms, hms⟩
  have hdamaged : bag.ChunksHold codecs front mss' := by
    refine chunksHold_damage h hcodecs (fun p hp => ?_) hmss'
    obtain ⟨hlt, hselect⟩ := hselects p (List.mem_append_left _ hp)
    exact ⟨hlt, hwhole _ (hfront p hp) hselect⟩
  have hflat : (View.wrapper selection n f.bag).scan.wanted mss'.flatten =
      (View.wrapper selection n f.bag).scan.wanted mss.flatten := by
    refine Bag.ChunksHold.filter _ hmss (hfilter ▸ hmss') fun p hp hnot ms hms => ?_
    exact filter_eq_nil_of_notMem hopens hrecords hcodecs hindexed
      (hopens.mem_allChunks.1 (List.mem_of_mem_take hp)) (of_decide_eq_false hnot) hms
  refine ⟨front.length, (View.wrapper selection n f.bag).scan.wanted mss'.flatten, ?_, fun c hc => ?_, ?_,
    fun hreach => ?_⟩
  · refine @Remaining.between bag codecs (Scan.upTo _ _) mss' hbuffer hbytes ?_
    rw [Scan.upTo, hsplit, List.take_left, hiter]
    exact hdamaged
  · rw [hflat] at hc
    obtain ⟨r, hr, hrc⟩ := forall₂_mem_right hreads (List.mem_filter.1 hc).1
    refine hsame.returns (returns_of_isRead hopens ?_ hrc)
    exact List.filterMap_subset _ (List.Sublist.flatten (List.take_sublist k _)).subset hr
  · have hpublished : List.Forall₂ f.ReadAs mss.flatten (xs.take (f.messagesBefore k)) :=
      forall₂_comp hreads.flip (hrecords.take k)
    rw [hflat]
    refine List.rel_filter (fun c x hx => ?_) hpublished
    simpa using hx.wanted_iff hopens
  · rw [hsplit, List.length_append] at hreach
    have hpos : 0 < behind.length := by omega
    obtain ⟨p, hp⟩ := List.exists_mem_of_length_pos hpos
    exact ⟨f.chunkOf p, hbehind p hp, (hselects p (List.mem_append_right _ hp)).2⟩

end StoredBag

end Embag
