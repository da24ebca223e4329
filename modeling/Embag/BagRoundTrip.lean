import Mathlib.Algebra.Order.BigOperators.Group.List
import Embag.BagTurns

/-! Opening a bag undoes writing it. Each loop of `readRecords` keeps an invariant that says
what the records read so far have left in the bag. -/

namespace Embag

open LittleEndian Loops

namespace BagLayout

variable {b : BagLayout}

theorem occursAt_encode : OccursAt b.encode b.encode 0 := ⟨Nat.zero_le _, List.prefix_rfl⟩

theorem occursAt_version : OccursAt (bytes "#ROSBAG V2.0\n") b.encode 0 := occursAt_encode.left.left

theorem occursAt_record : OccursAt b.record.encode b.encode 13 := occursAt_encode.left.right

theorem occursAt_chunks :
    OccursAt (b.chunks.flatMap FileChunk.encode) b.encode b.front.length := by
  have h := occursAt_encode (b := b) |>.right.left
  rwa [Nat.zero_add] at h

theorem occursAt_connections :
    OccursAt (b.connections.flatMap fun c => c.record.encode) b.encode b.indexPos := by
  have h := occursAt_encode (b := b) |>.right.right.right.left
  rwa [Nat.zero_add] at h

theorem occursAt_infos : OccursAt (b.infos.flatMap fun x => x.record.encode) b.encode
    (b.indexPos + (b.connections.flatMap fun c => c.record.encode).length) := by
  have h := occursAt_encode (b := b) |>.right.right.right.right.left
  rwa [Nat.zero_add] at h

theorem occursAt_chunk {i : ℕ} {c : FileChunk} (h : b.chunks[i]? = some c) :
    OccursAt c.encode b.encode (b.chunkPosition i) := by
  obtain ⟨hi, rfl⟩ := List.getElem?_eq_some_iff.1 h
  have hall := b.occursAt_chunks
  rw [← List.take_append_drop i b.chunks, List.drop_eq_getElem_cons hi] at hall
  rw [chunkPosition]
  exact hall.of_flatMap

end BagLayout

/-- The stream stands at a position of the encoded bag. -/
structure BagLayout.Reading (b : BagLayout) (st : Bag × Stream) (position : ℕ) : Prop where
  bagBytes : st.1.bagBytes = b.encode
  stream : st.2 = { bytes := b.encode, pos := position }

def idsOf (cs : List FileConnection) (topic : Bytes) : List ℕ :=
  (cs.filter fun c => c.topic = topic).map FileConnection.id

/-- The map has the connections of each topic, and no topic without any. -/
structure Topics (cs : List FileConnection) (map : AList fun _ : Bytes => List ℕ) : Prop where
  lookup : ∀ topic, (map.lookup topic).getD [] = idsOf cs topic
  mem : ∀ topic, topic ∈ map ↔ ∃ c ∈ cs, c.topic = topic

theorem topics_nil : Topics [] ∅ where
  lookup topic := by simp [idsOf]
  mem topic := by simp

theorem Topics.push {cs : List FileConnection} {map : AList fun _ : Bytes => List ℕ}
    (h : Topics cs map) (c : FileConnection) :
    Topics (cs ++ [c]) (Bag.pushConnection map c.topic c.id) where
  lookup topic := by
    unfold Bag.pushConnection
    by_cases hc : c.topic = topic
    · subst hc
      simp [AList.lookup_insert, h.lookup, idsOf]
    · rw [AList.lookup_insert_ne (Ne.symm hc), h.lookup]
      simp [idsOf, hc]
  mem topic := by
    rw [Bag.pushConnection, AList.mem_insert, h.mem]
    simp [or_comm, eq_comm]

namespace BagFile

variable {b : BagFile}

theorem nodup_ids (b : BagFile) : (b.connections.map FileConnection.id).Nodup :=
  b.ids.nodup_iff.2 List.nodup_range

theorem id_lt {c : FileConnection} (hc : c ∈ b.connections) : c.id < b.connections.length :=
  List.mem_range.1 (b.ids.mem_iff.1 (List.mem_map_of_mem hc))

structure ConnectionsRead (b : BagFile) (done : List FileConnection) (st : Bag × Stream) : Prop where
  reading : b.Reading st (b.indexPos + (done.flatMap fun c => c.record.encode).length)
  length : st.1.connections.length = b.connections.length
  read : ∀ c ∈ done, st.1.connections[c.id]? = some (c.toRecord [] 0)
  unread : ∀ k < b.connections.length, k ∉ done.map FileConnection.id →
    st.1.connections[k]? = some {}
  topics : Topics done st.1.topicConnectionMap
  chunkInfos : st.1.chunkInfos = []
  chunks : st.1.chunks = []
  schemata : st.1.messageSchemata = ∅

theorem ConnectionsRead.step {done rest : List FileConnection} {c : FileConnection}
    {st : Bag × Stream} (hcs : b.connections = done ++ c :: rest) (h : b.ConnectionsRead done st) :
    ∃ st', Bag.readConnection done.length st = .ok st' ∧ b.ConnectionsRead (done ++ [c]) st' := by
  obtain ⟨bag, s⟩ := st
  obtain ⟨hbytes, hstream⟩ := h.reading
  simp only at hbytes hstream
  subst hstream
  have hnew : c.id ∉ done.map FileConnection.id := by
    have hnd := b.nodup_ids
    rw [hcs, List.map_append, List.map_cons] at hnd
    exact fun hmem => List.disjoint_of_nodup_append hnd hmem List.mem_cons_self
  have hlt : c.id < b.connections.length := id_lt (by rw [hcs]; simp)
  have hoccurs := b.occursAt_connections
  rw [hcs] at hoccurs
  have hturn := readConnection_of_occursAt done.length (s := ⟨b.encode, _, false⟩) rfl hbytes
    hoccurs.of_flatMap (h.unread _ hlt hnew)
  refine ⟨_, hturn, ?_⟩
  constructor
  · refine ⟨hbytes, ?_⟩
    simp [Nat.add_assoc]
  · simpa using h.length
  · intro d hd
    rcases List.mem_append.1 hd with hd | hd
    · have hne : c.id ≠ d.id := fun he => hnew (he ▸ List.mem_map_of_mem hd)
      rw [List.getElem?_set_ne hne]
      exact h.read d hd
    · cases List.mem_singleton.1 hd
      rw [List.getElem?_set_self (by rw [h.length]; exact hlt)]
      rfl
  · intro k hk hmem
    rw [List.map_append, List.mem_append, not_or] at hmem
    have hne : c.id ≠ k := fun he => hmem.2 (by simp [he])
    rw [List.getElem?_set_ne hne]
    exact h.unread k hk hmem.1
  · exact h.topics.push c
  · exact h.chunkInfos
  · exact h.chunks
  · exact h.schemata

/-- Every connection is there, with these blocks and this number of messages for its id. -/
structure Holds (b : BagFile) (bag : Bag) (blocks : ℕ → List IndexBlock) (count : ℕ → ℕ) : Prop where
  length : bag.connections.length = b.connections.length
  record : ∀ c ∈ b.connections, bag.connections[c.id]? = some (c.toRecord (blocks c.id) (count c.id))

/-- What the loops behind the one over the connections leave alone. -/
structure Frame (b : BagFile) (bag : Bag) : Prop where
  topics : Topics b.connections bag.topicConnectionMap
  schemata : bag.messageSchemata = ∅

def infosPos (b : BagFile) : ℕ :=
  b.indexPos + (b.connections.flatMap fun c => c.record.encode).length

structure InfosRead (b : BagFile) (done : List FileChunkInfo) (st : Bag × Stream) : Prop where
  reading : b.Reading st (b.infosPos + (done.flatMap fun x => x.record.encode).length)
  holds : b.Holds st.1 (fun _ => []) fun _ => 0
  frame : b.Frame st.1
  chunkInfos : st.1.chunkInfos = done.map fun x => x.toInfo 0
  chunks : st.1.chunks = []

theorem ConnectionsRead.infosRead {st : Bag × Stream} (h : b.ConnectionsRead b.connections st) :
    b.InfosRead [] st where
  reading := by simpa [infosPos] using h.reading
  holds := ⟨h.length, h.read⟩
  frame := ⟨h.topics, h.schemata⟩
  chunkInfos := h.chunkInfos
  chunks := h.chunks

theorem InfosRead.step {done rest : List FileChunkInfo} {x : FileChunkInfo} {st : Bag × Stream}
    (hxs : b.infos = done ++ x :: rest) (h : b.InfosRead done st) :
    ∃ st', Bag.readChunkInfo done.length st = .ok st' ∧ b.InfosRead (done ++ [x]) st' := by
  obtain ⟨bag, s⟩ := st
  obtain ⟨hbytes, hstream⟩ := h.reading
  simp only at hbytes hstream
  subst hstream
  have hoccurs := b.occursAt_infos
  rw [hxs] at hoccurs
  have hturn := readChunkInfo_of_occursAt done.length (s := ⟨b.encode, _, false⟩) rfl hbytes
    hoccurs.of_flatMap
  refine ⟨_, hturn, ?_⟩
  constructor
  · refine ⟨hbytes, ?_⟩
    simp [Nat.add_assoc, infosPos]
  · exact ⟨h.holds.length, h.holds.record⟩
  · exact ⟨h.frame.topics, h.frame.schemata⟩
  · simpa using h.chunkInfos
  · exact h.chunks

theorem modify_length_append {α : Type} (f : α → α) (l : List α) (a : α) (r : List α) :
    (l ++ a :: r).modify l.length f = l ++ f a :: r := by
  induction l with
  | nil => rfl
  | cons b l ih => rw [List.cons_append, List.length_cons, List.modify_succ_cons, ih]; rfl

theorem Holds.addBlock {bag : Bag} {blocks : ℕ → List IndexBlock} {count : ℕ → ℕ}
    (h : b.Holds bag blocks count) (i : ℕ) (x : FileIndex)
    (hcount : count x.connection + x.count < 2 ^ 64) (bag' : Bag)
    (hbag' : bag'.connections =
      bag.connections.modify x.connection (ConnectionRecord.addBlock i x.count)) :
    b.Holds bag' (fun k => blocks k ++ if x.connection = k then [⟨i⟩] else [])
      fun k => count k + if x.connection = k then x.count else 0 where
  length := by rw [hbag', List.length_modify, h.length]
  record c hc := by
    rw [hbag', List.getElem?_modify, h.record c hc]
    by_cases hk : x.connection = c.id
    · rw [hk] at hcount
      simp only [hk, if_true, Option.map_eq_map, Option.map_some, ConnectionRecord.addBlock, FileConnection.toRecord,
        FileConnection.data, Nat.mod_eq_of_lt hcount]
    · simp [hk]

theorem messageCount_append (xs ys : List FileIndex) (k : ℕ) :
    BagLayout.messageCount (xs ++ ys) k =
      BagLayout.messageCount xs k + BagLayout.messageCount ys k := by
  simp [BagLayout.messageCount]

theorem messageCount_le (xs : List FileIndex) (k : ℕ) :
    BagLayout.messageCount xs k ≤ (xs.map FileIndex.count).sum :=
  (List.filter_sublist.map FileIndex.count).sum_le_sum fun _ _ => Nat.zero_le _

theorem sum_indexOf_lt (b : BagFile) (x : FileChunkInfo) :
    ((b.indexOf x).map FileIndex.count).sum < 2 ^ 32 := by
  unfold BagLayout.indexOf
  cases h : b.chunks[x.chunk]? with
  | none => simp
  | some c => exact b.messages c (List.mem_of_getElem? h)

def records (b : BagFile) (infos : List FileChunkInfo) : List FileIndex := infos.flatMap b.indexOf

theorem length_infos (b : BagFile) : b.infos.length = b.chunks.length := by
  simpa using b.infosOf.length_eq

theorem sum_records_le (b : BagFile) (infos : List FileChunkInfo) :
    ((b.records infos).map FileIndex.count).sum ≤ infos.length * (2 ^ 32 - 1) := by
  induction infos with
  | nil => simp [records]
  | cons x infos ih =>
    have hx := b.sum_indexOf_lt x
    have hcons : b.records (x :: infos) = b.indexOf x ++ b.records infos := rfl
    rw [hcons, List.map_append, List.sum_append, List.length_cons]
    omega

theorem messageCount_lt (b : BagFile) {xs : List FileIndex} (h : xs <+: b.records b.infos) (k : ℕ) :
    BagLayout.messageCount xs k < 2 ^ 64 := by
  obtain ⟨t, ht⟩ := h
  have hall := b.sum_records_le b.infos
  have hlt := b.chunksFit
  have hle := messageCount_le xs k
  rw [← ht, List.map_append, List.sum_append] at hall
  rw [← b.length_infos] at hlt
  omega

/-- The loop over the INDEX_DATA records behind the chunk `c` of the CHUNK_INFO `x`, up to
some of them. -/
structure IndexRead (b : BagFile) (before : List FileChunkInfo) (x : FileChunkInfo) (c : FileChunk)
    (after : List FileChunkInfo) (chunks : List Chunk) (done : List FileIndex) (st : Bag × Stream) :
    Prop where
  reading : b.Reading st (x.position + c.record.encode.length +
    (done.flatMap fun y => y.record.encode).length)
  holds : b.Holds st.1
    (fun k => b.blocks before k ++ List.replicate (done.countP fun y => y.connection = k)
      ⟨before.length⟩)
    fun k => BagLayout.messageCount (b.records before ++ done) k
  frame : b.Frame st.1
  chunkInfos : st.1.chunkInfos =
    before.map b.chunkInfo ++ x.toInfo (done.map FileIndex.count).sum :: after.map (·.toInfo 0)
  chunks : st.1.chunks = chunks

theorem IndexRead.step {before after : List FileChunkInfo} {x : FileChunkInfo} {c : FileChunk}
    {chunks : List Chunk} {done rest : List FileIndex} {y : FileIndex} {st : Bag × Stream}
    (hinfos : b.infos = before ++ x :: after) (hc : b.chunks[x.chunk]? = some c)
    (hposition : x.position = b.chunkPosition x.chunk)
    (hindex : c.index = done ++ y :: rest) (h : b.IndexRead before x c after chunks done st) :
    ∃ st', Bag.readIndexData before.length done.length st = .ok st' ∧
      b.IndexRead before x c after chunks (done ++ [y]) st' := by
  obtain ⟨bag, s⟩ := st
  obtain ⟨hbytes, hstream⟩ := h.reading
  simp only at hbytes hstream
  subst hstream
  have hoccurs := (b.occursAt_chunk hc).right
  rw [hindex, ← hposition] at hoccurs
  have hlt : y.connection < b.connections.length :=
    b.indexed c (List.mem_of_getElem? hc) y (by rw [hindex]; simp)
  have hturn := readIndexData_of_occursAt before.length done.length (s := ⟨b.encode, _, false⟩) rfl
    hbytes hoccurs.of_flatMap (by rw [h.holds.length]; exact hlt)
  have hindexOf : b.indexOf x = c.index := by rw [BagLayout.indexOf, hc]; rfl
  have hprefix : b.records before ++ (done ++ [y]) <+: b.records b.infos := by
    refine ⟨rest ++ b.records after, ?_⟩
    rw [hinfos, records, records, records, List.flatMap_append, List.flatMap_cons, hindexOf, hindex]
    simp
  have hsum := b.sum_indexOf_lt x
  rw [hindexOf, hindex] at hsum
  refine ⟨_, hturn, ?_⟩
  constructor
  · refine ⟨hbytes, ?_⟩
    simp [Nat.add_assoc]
  · have hcount := b.messageCount_lt hprefix y.connection
    rw [← List.append_assoc, messageCount_append] at hcount
    have hadd := h.holds.addBlock before.length y (by simpa [BagLayout.messageCount] using hcount)
      { bag with
        chunkInfos := bag.chunkInfos.modify before.length (ChunkInfo.addMessages y.count)
        connections := bag.connections.modify y.connection
          (ConnectionRecord.addBlock before.length y.count) } rfl
    refine ⟨hadd.length, fun d hd => (hadd.record d hd).trans ?_⟩
    have hblocks : ∀ k, List.replicate (done.countP fun y => y.connection = k)
          (IndexBlock.mk before.length) ++ (if y.connection = k then [⟨before.length⟩] else []) =
        List.replicate ((done ++ [y]).countP fun y => y.connection = k) ⟨before.length⟩ := by
      intro k
      by_cases hk : y.connection = k <;>
        simp [hk, List.replicate_add, List.countP_append]
    have hcounts : ∀ k, BagLayout.messageCount (b.records before ++ done) k +
          (if y.connection = k then y.count else 0) =
        BagLayout.messageCount (b.records before ++ (done ++ [y])) k := by
      intro k
      rw [← List.append_assoc, messageCount_append (_ ++ done)]
      by_cases hk : y.connection = k <;> simp [BagLayout.messageCount, hk]
    rw [List.append_assoc, hblocks, hcounts]
  · exact ⟨h.frame.topics, h.frame.schemata⟩
  · have hlen : (before.map b.chunkInfo).length = before.length := List.length_map _
    have hfits : (done.map FileIndex.count).sum + y.count < 2 ^ 32 := by
      simp only [List.map_append, List.map_cons, List.sum_append, List.sum_cons] at hsum
      omega
    rw [h.chunkInfos, ← hlen, modify_length_append]
    simp only [ChunkInfo.addMessages, FileChunkInfo.toInfo, Nat.mod_eq_of_lt hfits, List.map_append,
      List.map_cons, List.map_nil, List.sum_append, List.sum_cons, List.sum_nil, Nat.add_zero]
  · exact h.chunks

def IsChunk (b : BagFile) (x : FileChunkInfo) (chunk : Chunk) : Prop :=
  ∃ c, b.chunks[x.chunk]? = some c ∧ chunk = b.chunk x c

structure ChunksRead (b : BagFile) (done : List FileChunkInfo) (st : Bag × Stream) : Prop where
  reading : ∃ position, b.Reading st position
  holds : b.Holds st.1 (b.blocks done) (BagLayout.messageCount (b.records done))
  frame : b.Frame st.1
  chunkInfos : st.1.chunkInfos =
    done.map b.chunkInfo ++ (b.infos.drop done.length).map (·.toInfo 0)
  chunks : List.Forall₂ b.IsChunk done st.1.chunks

theorem InfosRead.chunksRead {st : Bag × Stream} (h : b.InfosRead b.infos st) :
    b.ChunksRead [] st where
  reading := ⟨_, h.reading⟩
  holds := h.holds
  frame := h.frame
  chunkInfos := h.chunkInfos
  chunks := by
    rw [h.chunks]
    exact .nil

theorem exists_chunk (b : BagFile) {x : FileChunkInfo} (hx : x ∈ b.infos) :
    ∃ c, b.chunks[x.chunk]? = some c := by
  have hmem := b.infosOf.mem_iff.1 (List.mem_map_of_mem hx)
  exact ⟨_, List.getElem?_eq_getElem (List.mem_range.1 hmem)⟩

theorem readChunk_of_indexRead {bag : Bag} {s : Stream} {i : ℕ} {x : FileChunkInfo} {c : FileChunk}
    {info : ChunkInfo} {st : Bag × Stream} (hs : s.failed = false) (hbytes : bag.bagBytes = s.bytes)
    (hinfo : bag.chunkInfos[i]? = some (x.toInfo 0))
    (h : OccursAt c.record.encode s.bytes x.position)
    (hend : x.position + c.record.encode.length < 2 ^ 64)
    (hloop : forLoop (Bag.readIndexData i) 0 x.count
      (bag, { s with pos := x.position + c.record.encode.length }) = .ok st)
    (hinfo' : st.1.chunkInfos[i]? = some info) :
    Bag.readChunk i (bag, s) = .ok ({ st.1 with
      chunks := st.1.chunks ++ [{
        offset := x.position + c.record.encode.length
        info
        compression := c.compression
        uncompressedSize := c.size
        record := c.record.toRecord x.position }] }, st.2) := by
  have hhas := c.has
  simp only [List.cons_subset, List.nil_subset, and_true] at hhas
  obtain ⟨-, hcompression, hsize⟩ := hhas
  have hseek := s.seekBeg_of_le hs (n := x.position) h.1
  have hread := FileRecord.readRecord_of_occursAt (s := { s with pos := x.position }) hs h
  have htell : Stream.tellg { s with pos := x.position + c.record.encode.length } =
      (x.position + c.record.encode.length : ℕ) := Stream.tellg_of_good hs
  have hoffset : Bag.toUInt64 (Stream.tellg { s with pos := x.position + c.record.encode.length }) =
      x.position + c.record.encode.length := by
    rw [htell, Bag.toUInt64]
    omega
  simp only [Bag.readChunk, hinfo, FileChunkInfo.toInfo, hseek, hread, hbytes,
    FileRecord.readHeader_of_occursAt h, ok_bind, hoffset,
    Header.getField_of_lookup (FieldList.lookup_toHeader hcompression),
    Header.getUInt_of_lookup (show c.size < 256 ^ 4 from c.sizeFits) (FieldList.lookup_toHeader hsize),
    if_neg (not_not_intro c.compression_mem), hloop, hinfo']
  rfl

theorem ChunksRead.step {done rest : List FileChunkInfo} {x : FileChunkInfo} {st : Bag × Stream}
    (hxs : b.infos = done ++ x :: rest) (h : b.ChunksRead done st) :
    ∃ st', Bag.readChunk done.length st = .ok st' ∧ b.ChunksRead (done ++ [x]) st' := by
  obtain ⟨bag, s⟩ := st
  obtain ⟨position, hbytes, hstream⟩ := h.reading
  simp only at hbytes hstream
  subst hstream
  have hx : x ∈ b.infos := by rw [hxs]; simp
  obtain ⟨c, hc⟩ := b.exists_chunk hx
  have hposition := b.positions x hx
  have hoccurs := b.occursAt_chunk hc
  rw [← hposition] at hoccurs
  have hindexOf : b.indexOf x = c.index := by rw [BagLayout.indexOf, hc]; rfl
  have hdrop : b.infos.drop done.length = x :: rest := by rw [hxs, List.drop_left]
  have hinfos := h.chunkInfos
  rw [hdrop, List.map_cons] at hinfos
  have hlen : (done.map b.chunkInfo).length = done.length := List.length_map _
  have hstart : b.IndexRead done x c rest bag.chunks []
      (bag, { bytes := b.encode, pos := x.position + c.record.encode.length }) :=
    { reading := ⟨hbytes, by simp⟩
      holds := by simpa using h.holds
      frame := h.frame
      chunkInfos := hinfos
      chunks := rfl }
  obtain ⟨st', hloop, hend⟩ := forLoop_list hstart fun hindex hI =>
    IndexRead.step hxs hc hposition hindex hI
  have hsize := hoccurs.left.add_length_le.trans_lt b.size
  have hcount := b.counts x hx
  rw [hindexOf] at hcount
  rw [← hcount] at hloop
  have hinfo' : st'.1.chunkInfos[done.length]? = some (b.chunkInfo x) := by
    rw [hend.chunkInfos, ← hlen]
    simp [BagLayout.chunkInfo, hindexOf]
  have hturn := readChunk_of_indexRead (s := ⟨b.encode, position, false⟩) rfl hbytes
    (by rw [hinfos, ← hlen]; simp) hoccurs.left (by omega) hloop hinfo'
  refine ⟨_, hturn, ?_⟩
  constructor
  · exact ⟨_, hend.reading.bagBytes, hend.reading.stream⟩
  · refine ⟨hend.holds.length, fun d hd => (hend.holds.record d hd).trans ?_⟩
    have hrecords : b.records (done ++ [x]) = b.records done ++ c.index := by
      rw [records, List.flatMap_append, ← records, List.flatMap_singleton, hindexOf]
    have hblocks : b.blocks (done ++ [x]) d.id = b.blocks done d.id ++
        List.replicate (c.index.countP fun y => y.connection = d.id) ⟨done.length⟩ := by
      simp [BagLayout.blocks, BagLayout.indexCount, hindexOf, List.zipIdx_append]
    rw [hrecords, hblocks]
  · exact ⟨hend.frame.topics, hend.frame.schemata⟩
  · have hrest : b.infos.drop (done ++ [x]).length = rest := by
      rw [List.length_append, ← List.drop_drop, hdrop]
      rfl
    rw [hend.chunkInfos, hrest, ← hindexOf]
    simp [BagLayout.chunkInfo]
  · rw [hend.chunks]
    exact List.rel_append h.chunks (.cons ⟨c, hc, rfl⟩ .nil)

structure Opened (b : BagFile) (bag : Bag) : Prop where
  bagBytes : bag.bagBytes = b.encode
  holds : b.Holds bag (b.blocks b.infos)
    (BagLayout.messageCount (b.chunks.flatMap FileChunk.index))
  topics : Topics b.connections bag.topicConnectionMap
  chunks : List.Forall₂ b.IsChunk b.infos bag.chunks
  schemata : bag.messageSchemata = ∅

/-- The CHUNK_INFOs lead to the INDEX_DATA records of all chunks. -/
theorem records_perm (b : BagFile) :
    (b.records b.infos).Perm (b.chunks.flatMap FileChunk.index) := by
  have hinfos : b.records b.infos = (b.infos.map FileChunkInfo.chunk).flatMap
      fun i => (b.chunks[i]?).elim [] FileChunk.index := by
    rw [List.flatMap_map]
    rfl
  have hchunks : b.chunks.flatMap FileChunk.index = (List.range b.chunks.length).flatMap
      fun i => (b.chunks[i]?).elim [] FileChunk.index := by
    rw [List.flatMap_def, List.flatMap_def]
    congr 1
    refine List.ext_getElem (by simp) fun i hi hi' => ?_
    have hlt : i < b.chunks.length := by simpa using hi
    simp [List.getElem?_eq_getElem hlt]
  rw [hinfos, hchunks]
  exact b.infosOf.flatMap_right _

theorem ChunksRead.opened {st : Bag × Stream} (h : b.ChunksRead b.infos st) : b.Opened st.1 := by
  obtain ⟨position, hreading⟩ := h.reading
  have hcount : BagLayout.messageCount (b.records b.infos) =
      BagLayout.messageCount (b.chunks.flatMap FileChunk.index) := by
    funext k
    exact ((b.records_perm.filter _).map _).sum_eq
  refine ⟨hreading.bagBytes, hcount ▸ h.holds, h.frame.topics, h.chunks, h.frame.schemata⟩

theorem readRecords_encode (b : BagFile) :
    ∃ bag, Bag.readRecords { bagBytes := b.encode } { bytes := b.encode, pos := 13 } = .ok bag ∧
      b.Opened bag := by
  have hhas := b.has
  simp only [List.cons_subset, List.nil_subset, and_true] at hhas
  obtain ⟨-, hindex, hconnections, hchunks⟩ := hhas
  have hpos := b.occursAt_connections.1
  have hfits : b.indexPos < 256 ^ 8 := by
    have := b.size
    omega
  have hread := FileRecord.readRecord_of_occursAt
    (s := { bytes := b.encode, pos := 13 }) rfl b.occursAt_record
  have hseek := Stream.seekBeg_of_le
    (s := { bytes := b.encode, pos := 13 + b.record.encode.length }) rfl hpos
  have hstart : b.ConnectionsRead []
      ({ bagBytes := b.encode
         connections := List.replicate b.connections.length {}
         indexPos := b.indexPos }, { bytes := b.encode, pos := b.indexPos }) :=
    { reading := ⟨rfl, by simp⟩
      length := List.length_replicate
      read := by simp
      unread := fun k hk _ => by simp [hk]
      topics := topics_nil
      chunkInfos := rfl
      chunks := rfl
      schemata := rfl }
  obtain ⟨st₁, hloop₁, hend₁⟩ := forLoop_list hstart fun h hI => ConnectionsRead.step h hI
  obtain ⟨st₂, hloop₂, hend₂⟩ := forLoop_list hend₁.infosRead fun h hI => InfosRead.step h hI
  obtain ⟨st₃, hloop₃, hend₃⟩ := forLoop_list hend₂.chunksRead fun h hI => ChunksRead.step h hI
  rw [b.length_infos] at hloop₂ hloop₃
  refine ⟨st₃.1, ?_, hend₃.opened⟩
  simp only [Bag.readRecords, hread, FileRecord.readHeader_of_occursAt b.occursAt_record, ok_bind,
    Header.getUInt_of_lookup (show b.connections.length < 256 ^ 4 from b.connectionsFit)
      (FieldList.lookup_toHeader hconnections),
    Header.getUInt_of_lookup (show b.chunks.length < 256 ^ 4 from b.chunksFit)
      (FieldList.lookup_toHeader hchunks),
    Header.getUInt_of_lookup hfits (FieldList.lookup_toHeader hindex), hseek, hloop₁, hloop₂, hloop₃]
  rfl

/-- Opening the bytes of a bag yields what the bag holds. -/
theorem exists_opened (b : BagFile) : ∃ bag, Bag.ofBytes b.encode = .ok bag ∧ b.Opened bag := by
  have hversion : OccursAt (Bag.magicString ++ (bytes "2.0" ++ bytes "\n")) b.encode 0 :=
    b.occursAt_version
  have hmagic := Stream.read_of_occursAt (s := { bytes := b.encode }) rfl
    (List.replicate Bag.magicString.length 0) (by simp) hversion.left
  have hnumber := Stream.read_of_occursAt (s := { bytes := b.encode, pos := 9 }) rfl
    (x := bytes "2.0") (Bag.magicString.take 3) rfl hversion.right.left
  have hnewline := Stream.read_of_occursAt (s := { bytes := b.encode, pos := 12 }) rfl
    (x := bytes "\n") ((bytes "2.0").take 1) rfl hversion.right.right
  obtain ⟨bag, hbag, hopened⟩ := b.readRecords_encode
  refine ⟨bag, ?_, hopened⟩
  unfold Bag.ofBytes
  simp only [hmagic, ne_eq, not_true_eq_false, if_false]
  rw [show 0 + Bag.magicString.length = 9 from rfl, hnumber]
  simp only [not_true_eq_false, if_false]
  rw [show 9 + (bytes "2.0").length = 12 from rfl, hnewline]
  simp only [not_true_eq_false, if_false]
  exact hbag

/-! ### What the queries answer -/

def connectionRecord (b : BagFile) (c : FileConnection) : ConnectionRecord :=
  c.toRecord (b.blocks b.infos c.id) (BagLayout.messageCount (b.chunks.flatMap FileChunk.index) c.id)

/-- Blocks for exactly the chunks that have an INDEX_DATA record of the connection, in the
order of the CHUNK_INFOs; one for each record, so each chunk once where it has no two. -/
structure IsBlocks (b : BagFile) (id : ℕ) (blocks : List IndexBlock) : Prop where
  mem : ∀ i, ⟨i⟩ ∈ blocks ↔ ∃ x, b.infos[i]? = some x ∧ ∃ y ∈ b.indexOf x, y.connection = id
  ordered : blocks.Pairwise fun u v => u.intoChunk ≤ v.intoChunk
  once : (∀ x ∈ b.infos, b.indexCount id x ≤ 1) →
    blocks.Pairwise fun u v => u.intoChunk < v.intoChunk

theorem pairwise_zipIdx {α : Type} (l : List α) : l.zipIdx.Pairwise fun x y => x.2 < y.2 := by
  have h : (l.zipIdx.map Prod.snd).Pairwise (· < ·) := by
    rw [List.zipIdx_map_snd]
    exact List.pairwise_lt_range'
  exact List.pairwise_map.1 h

theorem isBlocks_blocks (b : BagFile) (id : ℕ) : b.IsBlocks id (b.blocks b.infos id) where
  mem i := by
    rw [BagLayout.blocks, List.mem_flatMap]
    constructor
    · rintro ⟨⟨x, j⟩, hx, hmem⟩
      rw [List.mem_replicate] at hmem
      cases hmem.2
      refine ⟨x, List.mem_zipIdx_iff_getElem?.1 hx, ?_⟩
      have hpos := List.countP_pos_iff.1 (Nat.pos_of_ne_zero hmem.1)
      simpa using hpos
    · rintro ⟨x, hx, y, hy, hid⟩
      refine ⟨(x, i), List.mem_zipIdx_iff_getElem?.2 hx, List.mem_replicate.2 ⟨?_, rfl⟩⟩
      have hpos : 0 < b.indexCount id x := List.countP_pos_iff.2 ⟨y, hy, by simpa using hid⟩
      exact Nat.ne_of_gt hpos
  ordered := by
    rw [BagLayout.blocks, List.pairwise_flatMap]
    refine ⟨fun x _ => List.pairwise_replicate.2 (Or.inr (Nat.le_refl _)),
      (pairwise_zipIdx b.infos).imp fun hlt u hu v hv => ?_⟩
    rw [List.eq_of_mem_replicate hu, List.eq_of_mem_replicate hv]
    exact Nat.le_of_lt hlt
  once h := by
    rw [BagLayout.blocks, List.pairwise_flatMap]
    refine ⟨fun x hx => List.pairwise_replicate.2 (Or.inl ?_),
      (pairwise_zipIdx b.infos).imp fun hlt u hu v hv => ?_⟩
    · exact h x.1 (List.mem_of_getElem? (List.mem_zipIdx_iff_getElem?.1 hx))
    · rw [List.eq_of_mem_replicate hu, List.eq_of_mem_replicate hv]
      exact hlt

/-- What the queries of an opened bag answer: the topics, the connections of a topic in the
order of their records, with all that was written of them, and for each CHUNK_INFO its chunk. -/
structure ReadBack (b : BagFile) (bag : Bag) : Prop where
  topics : bag.topics.Nodup ∧ ∀ topic, topic ∈ bag.topics ↔ ∃ c ∈ b.connections, c.topic = topic
  connections : ∀ topic, (bag.connectionsForTopic topic).2.map (fun p => bag.connections[p]?) =
    (b.connections.filter fun c => c.topic = topic).map fun c => some (b.connectionRecord c)
  blocks : ∀ c ∈ b.connections, b.IsBlocks c.id (b.connectionRecord c).blocks
  chunks : bag.chunks.length = b.infos.length
  chunk : ∀ (i : ℕ) x c, b.infos[i]? = some x → b.chunks[x.chunk]? = some c →
    bag.chunks[i]? = some (b.chunk x c)
  data : ∀ x ∈ b.infos, ∀ c, b.chunks[x.chunk]? = some c →
    readPointer bag.bagBytes (b.chunk x c).record.data (b.chunk x c).record.dataLen =
      .ok c.record.data

theorem Opened.readBack {bag : Bag} (h : b.Opened bag) : b.ReadBack bag where
  topics := by
    refine ⟨bag.topicConnectionMap.nodupKeys, fun topic => ?_⟩
    exact h.topics.mem topic
  connections topic := by
    have hids : (bag.connectionsForTopic topic).2 = idsOf b.connections topic := by
      have hlookup := h.topics.lookup topic
      unfold Bag.connectionsForTopic
      cases hmap : bag.topicConnectionMap.lookup topic with
      | none => simpa [hmap] using hlookup
      | some ids => simpa [hmap] using hlookup
    rw [hids, idsOf, List.map_map]
    refine List.map_congr_left fun c hc => ?_
    exact h.holds.record c (List.mem_of_mem_filter hc)
  blocks c _ := b.isBlocks_blocks c.id
  chunks := h.chunks.length_eq.symm
  chunk i x c hx hc := by
    obtain ⟨hi, rfl⟩ := List.getElem?_eq_some_iff.1 hx
    have hi' : i < bag.chunks.length := h.chunks.length_eq ▸ hi
    obtain ⟨c', hc', hchunk⟩ := List.forall₂_iff_get.1 h.chunks |>.2 i hi hi'
    rw [List.get_eq_getElem] at hc' hchunk
    rw [hc] at hc'
    cases hc'
    rw [List.getElem?_eq_getElem hi']
    exact congrArg some hchunk
  data x hx c hc := by
    have hoccurs := (b.occursAt_chunk hc).left.right.right.right
    rw [length_le, length_le, ← b.positions x hx] at hoccurs
    have hread := readPointer_of_occursAt hoccurs
    rw [h.bagBytes]
    refine Eq.trans ?_ hread
    congr 1
    simp only [BagLayout.chunk, FileRecord.toRecord]
    push_cast
    ring

theorem ofBytes_encode (b : BagFile) :
    ∃ bag, Bag.ofBytes b.encode = .ok bag ∧ b.ReadBack bag := by
  obtain ⟨bag, hbag, hopened⟩ := b.exists_opened
  exact ⟨bag, hbag, hopened.readBack⟩

end BagFile

end Embag
