import Embag.BagSlices

/-! The subscripts that opening a bag applies to its vectors, whatever the bytes are, and the sizes
that the vectors have. -/

namespace Embag

open LittleEndian Loops

namespace Bag

/-- What a CONNECTION record is read for: the id to store it under, unless its topic is empty. -/
def connectionOf (buffer : Bytes) (record : Record) : Except Fault (Option ℕ) := do
  let header ← readHeader buffer record
  let connectionId ← header.getUInt 4 (bytes "conn")
  let topic ← header.getField (bytes "topic")
  if topic = [] then return none
  let fields ← readFields buffer record.data record.dataLen
  let _data ← connectionData topic fields
  return some connectionId

def chunkInfoOf (buffer : Bytes) (record : Record) : Except Fault ChunkInfo := do
  let header ← readHeader buffer record
  let _ver ← header.getUInt 4 (bytes "ver")
  let chunkPos ← header.getUInt 8 (bytes "chunk_pos")
  let startTime ← header.getTime (bytes "start_time")
  let endTime ← header.getTime (bytes "end_time")
  let connectionCount ← header.getUInt 4 (bytes "count")
  return { chunkPos, startTime, endTime, connectionCount }

def indexDataOf (buffer : Bytes) (record : Record) : Except Fault ℕ := do
  let header ← readHeader buffer record
  let _version ← header.getUInt 4 (bytes "ver")
  let connectionId ← header.getUInt 4 (bytes "conn")
  let _msgCount ← header.getUInt 4 (bytes "count")
  return connectionId

def connOf (buffer : Bytes) (record : Record) : Except Fault ℕ := do
  let header ← readHeader buffer record
  header.getUInt 4 (bytes "conn")

inductive IndexedVector where
  | connections | chunkInfos | chunks

/-- `size()` of a vector: `connections_` is resized and `chunks_` pushed into, but `chunk_infos_`,
whatever is written to its storage, is only ever reserved. -/
def sizeOf (bag : Bag) : IndexedVector → ℕ
  | .connections => bag.connections.length
  | .chunkInfos => 0
  | .chunks => bag.chunks.length

inductive Turn where
  | connection (i : ℕ)
  | chunkInfo (i : ℕ)
  | chunk (i : ℕ)
  | indexData (i j : ℕ)

def Begins (buffer : Bytes) (conns chunks : ℕ) (start : Bag × Stream) : Prop :=
  ∃ stream, preamble buffer = .ok stream ∧ openHeader buffer stream = .ok (conns, chunks, start)

inductive TakesTurn (conns chunks : ℕ) (start : Bag × Stream) : Turn → Bag × Stream → Prop
  | connection {i : ℕ} {st : Bag × Stream} (hi : i < conns)
    (hst : forLoop readConnection 0 i start = .ok st) : TakesTurn conns chunks start (.connection i) st
  | chunkInfo {i : ℕ} {st₁ st : Bag × Stream} (hconnections : forLoop readConnection 0 conns start = .ok st₁)
    (hi : i < chunks) (hst : forLoop readChunkInfo 0 i st₁ = .ok st) :
    TakesTurn conns chunks start (.chunkInfo i) st
  | chunk {i : ℕ} {st₁ st₂ st : Bag × Stream} (hconnections : forLoop readConnection 0 conns start = .ok st₁)
    (hinfos : forLoop readChunkInfo 0 chunks st₁ = .ok st₂) (hi : i < chunks)
    (hst : forLoop readChunk 0 i st₂ = .ok st) : TakesTurn conns chunks start (.chunk i) st
  | indexData {i j : ℕ} {chunk : Chunk} {st₁ st₂ st : Bag × Stream}
    (hchunk : TakesTurn conns chunks start (.chunk i) st₁) (hopen : openChunk i st₁ = .ok (chunk, st₂))
    (hj : j < chunk.info.connectionCount) (hst : forLoop (readIndexData i) 0 j st₂ = .ok st) :
    TakesTurn conns chunks start (.indexData i j) st

/-- The subscripts of `readRecords`, each with the size of its vector when the element is accessed:
that of an index block leads to the element that the `push_back` behind its chunk fills. -/
inductive Subscripts (buffer : Bytes) : IndexedVector → ℕ → ℕ → Prop
  | storeConnection {conns chunks i id : ℕ} {start st : Bag × Stream} (hstart : Begins buffer conns chunks start)
    (h : TakesTurn conns chunks start (.connection i) st)
    (hid : connectionOf buffer (readRecord st.2).1 = .ok (some id)) :
    Subscripts buffer .connections id (st.1.sizeOf .connections)
  | storeChunkInfo {conns chunks i : ℕ} {start st : Bag × Stream} {info : ChunkInfo}
    (hstart : Begins buffer conns chunks start) (h : TakesTurn conns chunks start (.chunkInfo i) st)
    (hinfo : chunkInfoOf buffer (readRecord st.2).1 = .ok info) :
    Subscripts buffer .chunkInfos i (st.1.sizeOf .chunkInfos)
  | chunkInfo {conns chunks i : ℕ} {start st : Bag × Stream} (hstart : Begins buffer conns chunks start)
    (h : TakesTurn conns chunks start (.chunk i) st) :
    Subscripts buffer .chunkInfos i (st.1.sizeOf .chunkInfos)
  | countMessages {conns chunks i j id : ℕ} {start st : Bag × Stream} (hstart : Begins buffer conns chunks start)
    (h : TakesTurn conns chunks start (.indexData i j) st)
    (hid : indexDataOf buffer (readRecord st.2).1 = .ok id) :
    Subscripts buffer .connections id (st.1.sizeOf .connections)
  | indexBlock {conns chunks i j id : ℕ} {start st st₁ st' : Bag × Stream}
    (hstart : Begins buffer conns chunks start) (hchunk : TakesTurn conns chunks start (.chunk i) st₁)
    (h : TakesTurn conns chunks start (.indexData i j) st)
    (hid : indexDataOf buffer (readRecord st.2).1 = .ok id) (hturn : readChunk i st₁ = .ok st') :
    Subscripts buffer .chunks i (st'.1.sizeOf .chunks)

/-- The ids that CONNECTION and INDEX_DATA records name, with the number of connections. -/
inductive NamesConnection (buffer : Bytes) : ℕ → ℕ → Prop
  | connection {conns chunks i id : ℕ} {start st : Bag × Stream} (hstart : Begins buffer conns chunks start)
    (h : TakesTurn conns chunks start (.connection i) st) (hid : connOf buffer (readRecord st.2).1 = .ok id) :
    NamesConnection buffer id (st.1.sizeOf .connections)
  | indexData {conns chunks i j id : ℕ} {start st : Bag × Stream} (hstart : Begins buffer conns chunks start)
    (h : TakesTurn conns chunks start (.indexData i j) st) (hid : connOf buffer (readRecord st.2).1 = .ok id) :
    NamesConnection buffer id (st.1.sizeOf .connections)

/-- Every subscript is in range, and an id that is none of a connection leads to an exception. -/
structure IndexesInRange (buffer : Bytes) : Prop where
  inRange : ∀ vector i size, Subscripts buffer vector i size → i < size
  rejects : ∀ id count, NamesConnection buffer id count → count ≤ id →
    ∃ e, ofBytes buffer = .error e ∧ e.thrown = true

def streamAt (stream : Stream) (i : ℕ) : Stream := (fun s => (readRecord s).2)^[i] stream

def recordAt (stream : Stream) (i : ℕ) : Record := (readRecord (streamAt stream i)).1

def Readable (buffer : Bytes) (stream : Stream) (i : ℕ) : Prop :=
  ∀ j < i, ∃ o, connectionOf buffer (recordAt stream j) = .ok o

def EndsIn (buffer : Bytes) (conns chunks : ℕ) (stream : Stream) (e : Fault) : Prop :=
  (∃ i < conns, Readable buffer stream i ∧ connectionOf buffer (recordAt stream i) = .error e) ∨
    Readable buffer stream conns ∧ 0 < chunks ∧ chunkInfoOf buffer (recordAt stream conns) = .error e

/-- The records from the index on, as far as they are read, have no CHUNK_INFO record to store and
no connection to store under an id from the number of connections on. -/
structure StoresNothingOutside (buffer : Bytes) (conns chunks : ℕ) (stream : Stream) : Prop where
  infos : Readable buffer stream conns → 0 < chunks →
    ∃ e, chunkInfoOf buffer (recordAt stream conns) = .error e
  stored : ∀ i < conns, Readable buffer stream i → ∀ id,
    connectionOf buffer (recordAt stream i) = .ok (some id) → id < conns

/-- Where a record names an id from the number of connections on, reading the records throws. -/
structure Harmless (buffer : Bytes) (conns chunks : ℕ) (stream : Stream) : Prop
    extends StoresNothingOutside buffer conns chunks stream where
  named : ∀ i < conns, Readable buffer stream i → ∀ id, connOf buffer (recordAt stream i) = .ok id →
    conns ≤ id → ∃ e, EndsIn buffer conns chunks stream e ∧ e.thrown = true

section Turns

variable {bag : Bag} {stream : Stream} {i : ℕ}

/-- A turn over the CONNECTION records ends as reading the record does, or puts what it read to a
connection there is. -/
theorem readConnection_cases (bag : Bag) (stream : Stream) (i : ℕ) :
    (∃ e, connectionOf bag.bagBytes (readRecord stream).1 = .error e ∧
      readConnection i (bag, stream) = .error e) ∨
    (∃ o bag', connectionOf bag.bagBytes (readRecord stream).1 = .ok o ∧
      (∀ id, o = some id → id < bag.connections.length) ∧
      readConnection i (bag, stream) = .ok (bag', (readRecord stream).2) ∧
      bag'.bagBytes = bag.bagBytes ∧ bag'.connections.length = bag.connections.length) ∨
    ∃ id, connectionOf bag.bagBytes (readRecord stream).1 = .ok (some id) ∧ bag.connections.length ≤ id ∧
      readConnection i (bag, stream) = .error .undefined := by
  unfold readConnection connectionOf
  rcases hheader : readHeader bag.bagBytes (readRecord stream).1 with e | header
  · exact .inl ⟨e, rfl, by simp [hheader]⟩
  rcases hid : header.getUInt 4 (bytes "conn") with e | id
  · exact .inl ⟨e, by simp [hid], by simp [hheader, hid]⟩
  rcases htopic : header.getField (bytes "topic") with e | topic
  · exact .inl ⟨e, by simp [hid, htopic], by simp [hheader, hid, htopic]⟩
  by_cases hempty : topic = []
  · refine .inr (.inl ⟨none, bag, ?_, nofun, ?_, rfl, rfl⟩)
    · simp only [hid, htopic, ok_bind, if_pos hempty]
      rfl
    · simp only [hheader, hid, htopic, ok_bind, if_pos hempty]
      rfl
  rcases hfields : readFields bag.bagBytes (readRecord stream).1.data (readRecord stream).1.dataLen with e | fields
  · exact .inl ⟨e, by simp [hid, htopic, hempty], by simp [hheader, hid, htopic, hempty, hfields]⟩
  rcases hdata : connectionData topic fields with e | data
  · exact .inl ⟨e, by simp [hid, htopic, hempty, hdata],
      by simp [hheader, hid, htopic, hempty, hfields, hdata]⟩
  rcases hconnection : bag.connections[id]? with _ | connection
  · refine .inr (.inr ⟨id, ?_, List.getElem?_eq_none_iff.1 hconnection, ?_⟩)
    · simp only [hid, htopic, ok_bind, if_neg hempty, hdata]
      rfl
    · simp only [hheader, hid, htopic, ok_bind, if_neg hempty, hfields, hdata, hconnection]
  · refine .inr (.inl ⟨some id, { bag with
      connections := bag.connections.set id { connection with id, topic, data }
      topicConnectionMap := pushConnection bag.topicConnectionMap topic id }, ?_, ?_, ?_, rfl, List.length_set⟩)
    · simp only [hid, htopic, ok_bind, if_neg hempty, hdata]
      rfl
    · rintro _ ⟨⟩
      exact (List.getElem?_eq_some_iff.1 hconnection).1
    · simp only [hheader, hid, htopic, ok_bind, if_neg hempty, hfields, hdata, hconnection]
      rfl

theorem readChunkInfo_eq (bag : Bag) (stream : Stream) (i : ℕ) :
    readChunkInfo i (bag, stream) = (chunkInfoOf bag.bagBytes (readRecord stream).1).map fun info =>
      ({ bag with chunkInfos := bag.chunkInfos ++ [info] }, (readRecord stream).2) := by
  unfold readChunkInfo chunkInfoOf
  rcases hheader : readHeader bag.bagBytes (readRecord stream).1 with e | header
  · simp [hheader, Except.map]
  simp only [hheader, ok_bind]
  rcases header.getUInt 4 (bytes "ver") with e | ver
  · rfl
  rcases header.getUInt 8 (bytes "chunk_pos") with e | chunkPos
  · rfl
  rcases header.getTime (bytes "start_time") with e | startTime
  · rfl
  rcases header.getTime (bytes "end_time") with e | endTime
  · rfl
  rcases header.getUInt 4 (bytes "count") with e | count
  · rfl
  rfl

end Turns

section Connections

variable {buffer : Bytes} {conns chunks i : ℕ} {start st : Bag × Stream}

theorem streamAt_add_one (stream : Stream) (i : ℕ) :
    streamAt stream (i + 1) = (readRecord (streamAt stream i)).2 := by
  rw [streamAt, Function.iterate_succ_apply']
  rfl

/-- The loop before its turn `i`: it stands behind `i` records, and has as many connections as ever. -/
structure Stands (buffer : Bytes) (conns : ℕ) (stream : Stream) (i : ℕ) (st : Bag × Stream) : Prop where
  memory : st.1.bagBytes = buffer
  stream : st.2 = streamAt stream i
  connections : st.1.connections.length = conns

def Stores (buffer : Bytes) (conns : ℕ) (stream : Stream) (i : ℕ) : Prop :=
  ∀ j < i, ∃ o, connectionOf buffer (recordAt stream j) = .ok o ∧ ∀ id, o = some id → id < conns

theorem Stores.readable {stream : Stream} (h : Stores buffer conns stream i) : Readable buffer stream i := by
  intro j hj
  obtain ⟨o, ho, -⟩ := h j hj
  exact ⟨o, ho⟩

theorem Stands.turn {stream : Stream} (h : Stands buffer conns stream i st) :
    (∃ e, connectionOf buffer (recordAt stream i) = .error e ∧ readConnection i st = .error e) ∨
    (∃ o st', connectionOf buffer (recordAt stream i) = .ok o ∧ (∀ id, o = some id → id < conns) ∧
      readConnection i st = .ok st' ∧ Stands buffer conns stream (i + 1) st') ∨
    ∃ id, connectionOf buffer (recordAt stream i) = .ok (some id) ∧ conns ≤ id ∧
      readConnection i st = .error .undefined := by
  obtain ⟨bag, s⟩ := st
  obtain ⟨rfl, rfl, rfl⟩ := h
  rcases readConnection_cases bag (streamAt stream i) i with herror | ⟨o, bag', ho, hid, hr, hmemory, hlength⟩ | hout
  · exact .inl herror
  · exact .inr (.inl ⟨o, _, ho, hid, hr, hmemory, (streamAt_add_one stream i).symm, hlength⟩)
  · exact .inr (.inr hout)

theorem stands_of_forLoop (hstart : Stands buffer conns start.2 0 start)
    (h : forLoop readConnection 0 i start = .ok st) :
    Stands buffer conns start.2 i st ∧ Stores buffer conns start.2 i := by
  induction i generalizing st with
  | zero =>
    cases h
    exact ⟨hstart, nofun⟩
  | succ i ih =>
    rw [forLoop_add_one, Nat.zero_add, bind_eq_ok] at h
    obtain ⟨st₁, hloop, hturn⟩ := h
    obtain ⟨hstands, hstores⟩ := ih hloop
    rcases hstands.turn with ⟨e, -, hr⟩ | ⟨o, st', ho, hid, hr, hnext⟩ | ⟨id, -, -, hr⟩
    · rw [hr] at hturn
      cases hturn
    · rw [hr] at hturn
      cases hturn
      refine ⟨hnext, fun j hj => ?_⟩
      rcases Nat.lt_succ_iff_lt_or_eq.1 hj with hlt | rfl
      · exact hstores j hlt
      · exact ⟨o, ho, hid⟩
    · rw [hr] at hturn
      cases hturn

/-- Where the records before store connections there are, the loop comes to its turn `i`. -/
theorem Stores.forLoop (h : Stores buffer conns start.2 i) (hstart : Stands buffer conns start.2 0 start) :
    ∃ st, Loops.forLoop readConnection 0 i start = .ok st ∧ Stands buffer conns start.2 i st := by
  induction i with
  | zero => exact ⟨start, rfl, hstart⟩
  | succ i ih =>
    obtain ⟨st, hloop, hstands⟩ := ih fun j hj => h j (Nat.lt_succ_of_lt hj)
    obtain ⟨o, ho, hid⟩ := h i (Nat.lt_succ_self i)
    rw [forLoop_add_one, Nat.zero_add, hloop, ok_bind]
    rcases hstands.turn with ⟨e, he, -⟩ | ⟨o', st', -, -, hr, hnext⟩ | ⟨id, hsome, hle, -⟩
    · rw [ho] at he
      cases he
    · exact ⟨st', hr, hnext⟩
    · rw [ho, Except.ok.injEq] at hsome
      exact absurd (hid id hsome) (not_lt.2 hle)

theorem Stores.forLoop_error (h : Stores buffer conns start.2 i) (hstart : Stands buffer conns start.2 0 start)
    (hi : i < conns) {e : Fault} (he : connectionOf buffer (recordAt start.2 i) = .error e) :
    Loops.forLoop readConnection 0 conns start = .error e := by
  obtain ⟨st, hloop, hstands⟩ := h.forLoop hstart
  rw [forLoop_of_lt hi hloop]
  rcases hstands.turn with ⟨e', he', hr⟩ | ⟨o, _, ho, -⟩ | ⟨id, hsome, -⟩
  · rw [he] at he'
    cases he'
    rw [hr, error_bind]
  · rw [he] at ho
    cases ho
  · rw [he] at hsome
    cases hsome

end Connections

section Open

variable {buffer : Bytes} {stream : Stream} {conns chunks : ℕ} {start : Bag × Stream} {e : Fault}

theorem Begins.stands (h : Begins buffer conns chunks start) : Stands buffer conns start.2 0 start := by
  obtain ⟨stream, -, hheader⟩ := h
  simp only [openHeader, bind_eq_ok] at hheader
  obtain ⟨_, -, _, -, _, -, _, -, h⟩ := hheader
  cases h
  exact ⟨rfl, rfl, List.length_replicate⟩

theorem Begins.ofBytes_eq (h : Begins buffer conns chunks start) :
    ofBytes buffer = (forLoop readConnection 0 conns start >>= fun st =>
      forLoop readChunkInfo 0 chunks st >>= fun st => forLoop readChunk 0 chunks st >>= fun st => .ok st.1) := by
  obtain ⟨stream, hpreamble, hheader⟩ := h
  rw [Bag.ofBytes_eq, hpreamble, ok_bind, hheader, ok_bind]

theorem Begins.unique {conns' chunks' : ℕ} {start' : Bag × Stream} (h : Begins buffer conns chunks start)
    (h' : Begins buffer conns' chunks' start') : conns' = conns ∧ chunks' = chunks ∧ start' = start := by
  obtain ⟨stream, hpreamble, hheader⟩ := h
  obtain ⟨stream', hpreamble', hheader'⟩ := h'
  rw [hpreamble] at hpreamble'
  cases hpreamble'
  rw [hheader] at hheader'
  cases hheader'
  exact ⟨rfl, rfl, rfl⟩

theorem StoresNothingOutside.stores (h : StoresNothingOutside buffer conns chunks stream) {i : ℕ}
    (hi : i ≤ conns) (hreadable : Readable buffer stream i) : Stores buffer conns stream i := by
  intro j hj
  obtain ⟨o, ho⟩ := hreadable j hj
  refine ⟨o, ho, fun id hid => ?_⟩
  rw [hid] at ho
  exact h.stored j (by omega) (fun k hk => hreadable k (by omega)) id ho

theorem readChunkInfo_of_error {st : Bag × Stream} {i : ℕ} (hstands : Stands buffer conns stream conns st)
    (he : chunkInfoOf buffer (recordAt stream conns) = .error e) : readChunkInfo i st = .error e := by
  obtain ⟨bag, s⟩ := st
  obtain ⟨rfl, rfl, -⟩ := hstands
  rw [readChunkInfo_eq]
  exact map_eq_error.2 he

theorem StoresNothingOutside.not_infos (h : StoresNothingOutside buffer conns chunks start.2)
    (hstart : Begins buffer conns chunks start) {i : ℕ} {st₁ st : Bag × Stream}
    (hconnections : forLoop readConnection 0 conns start = .ok st₁) (hchunks : 0 < chunks)
    (hst : forLoop readChunkInfo 0 i st₁ = .ok st) : i = 0 := by
  obtain ⟨hstands, hstores⟩ := stands_of_forLoop hstart.stands hconnections
  obtain ⟨e, he⟩ := h.infos hstores.readable hchunks
  cases i with
  | zero => rfl
  | succ i =>
    rw [forLoop, readChunkInfo_of_error hstands he] at hst
    cases hst

theorem StoresNothingOutside.ofBytes_error (h : StoresNothingOutside buffer conns chunks start.2)
    (hstart : Begins buffer conns chunks start) (hends : EndsIn buffer conns chunks start.2 e) :
    ofBytes buffer = .error e := by
  rw [hstart.ofBytes_eq]
  rcases hends with ⟨i, hi, hreadable, he⟩ | ⟨hreadable, hchunks, he⟩
  · rw [(h.stores hi.le hreadable).forLoop_error hstart.stands hi he, error_bind]
  · obtain ⟨st, hloop, hstands⟩ := (h.stores le_rfl hreadable).forLoop hstart.stands
    obtain ⟨n, rfl⟩ : ∃ n, chunks = n + 1 := ⟨chunks - 1, by omega⟩
    simp only [hloop, ok_bind, Loops.forLoop, readChunkInfo_of_error hstands he, error_bind]

/-- Opening comes to an end, at a record or behind all of them. -/
theorem StoresNothingOutside.ends_or_opens (h : StoresNothingOutside buffer conns chunks start.2)
    (hstart : Begins buffer conns chunks start) :
    (∃ e, EndsIn buffer conns chunks start.2 e) ∨ ∃ bag, ofBytes buffer = .ok bag := by
  by_cases hreadable : Readable buffer start.2 conns
  · by_cases hchunks : 0 < chunks
    · obtain ⟨e, he⟩ := h.infos hreadable hchunks
      exact .inl ⟨e, .inr ⟨hreadable, hchunks, he⟩⟩
    · obtain ⟨st, hloop, -⟩ := (h.stores le_rfl hreadable).forLoop hstart.stands
      obtain rfl : chunks = 0 := by omega
      exact .inr ⟨st.1, by rw [hstart.ofBytes_eq, hloop]; rfl⟩
  · -- the first of the records that cannot be read
    classical
    have hex : ∃ i, i < conns ∧ ¬ ∃ o, connectionOf buffer (recordAt start.2 i) = .ok o := by
      simpa only [Readable, not_forall, exists_prop] using hreadable
    obtain ⟨hlt, hnot⟩ := Nat.find_spec hex
    rcases herror : connectionOf buffer (recordAt start.2 (Nat.find hex)) with e | o
    · refine .inl ⟨e, .inl ⟨Nat.find hex, hlt, fun j hj => ?_, herror⟩⟩
      by_contra hj'
      exact Nat.find_min hex hj ⟨hj.trans hlt, hj'⟩
    · exact absurd ⟨o, herror⟩ hnot

theorem TakesTurn.stands {i : ℕ} {st : Bag × Stream} (hstart : Begins buffer conns chunks start)
    (h : TakesTurn conns chunks start (.connection i) st) :
    i < conns ∧ Stands buffer conns start.2 i st ∧ Stores buffer conns start.2 i := by
  cases h with
  | connection hi hst => exact ⟨hi, stands_of_forLoop hstart.stands hst⟩

theorem Stores.takesTurn {i : ℕ} (h : Stores buffer conns start.2 i) (hstart : Begins buffer conns chunks start)
    (hi : i < conns) : ∃ st, TakesTurn conns chunks start (.connection i) st ∧ Stands buffer conns start.2 i st := by
  obtain ⟨st, hloop, hstands⟩ := h.forLoop hstart.stands
  exact ⟨st, .connection hi hloop, hstands⟩

theorem StoresNothingOutside.not_takesTurn (h : StoresNothingOutside buffer conns chunks start.2)
    (hstart : Begins buffer conns chunks start) {i : ℕ} {st : Bag × Stream} :
    ¬ TakesTurn conns chunks start (.chunk i) st := by
  intro hturn
  cases hturn with
  | chunk hconnections hinfos hi hst =>
    have hzero := h.not_infos hstart hconnections (by omega) hinfos
    omega

theorem StoresNothingOutside.inRange (h : StoresNothingOutside buffer conns chunks start.2)
    (hstart : Begins buffer conns chunks start) {vector : IndexedVector} {i size : ℕ}
    (hsub : Subscripts buffer vector i size) : i < size := by
  cases hsub with
  | storeConnection hstart' hturn hid =>
    obtain ⟨rfl, rfl, rfl⟩ := hstart.unique hstart'
    obtain ⟨hi, hstands, hstores⟩ := hturn.stands hstart
    rw [hstands.stream] at hid
    rw [sizeOf, hstands.connections]
    exact h.stored _ hi hstores.readable _ hid
  | storeChunkInfo hstart' hturn hinfo =>
    obtain ⟨rfl, rfl, rfl⟩ := hstart.unique hstart'
    cases hturn with
    | chunkInfo hconnections hi hst =>
      obtain ⟨hstands, hstores⟩ := stands_of_forLoop hstart.stands hconnections
      obtain rfl := h.not_infos hstart hconnections (by omega) hst
      obtain ⟨e, he⟩ := h.infos hstores.readable (by omega)
      cases hst
      rw [hstands.stream] at hinfo
      exact absurd (he.symm.trans hinfo) nofun
  | chunkInfo hstart' hturn =>
    obtain ⟨rfl, rfl, rfl⟩ := hstart.unique hstart'
    exact absurd hturn (h.not_takesTurn hstart)
  | countMessages hstart' hturn hid =>
    obtain ⟨rfl, rfl, rfl⟩ := hstart.unique hstart'
    cases hturn with
    | indexData hchunk => exact absurd hchunk (h.not_takesTurn hstart)
  | indexBlock hstart' hchunk =>
    obtain ⟨rfl, rfl, rfl⟩ := hstart.unique hstart'
    exact absurd hchunk (h.not_takesTurn hstart)

theorem IndexesInRange.storesNothingOutside (h : IndexesInRange buffer)
    (hstart : Begins buffer conns chunks start) : StoresNothingOutside buffer conns chunks start.2 := by
  have hstored : ∀ i < conns, Readable buffer start.2 i → ∀ id,
      connectionOf buffer (recordAt start.2 i) = .ok (some id) → id < conns := by
    intro i
    induction i using Nat.strongRecOn with
    | ind i ih =>
      intro hi hreadable id hid
      have hstores : Stores buffer conns start.2 i := by
        intro j hj
        obtain ⟨o, ho⟩ := hreadable j hj
        refine ⟨o, ho, fun id hid => ?_⟩
        rw [hid] at ho
        exact ih j hj (hj.trans hi) (fun k hk => hreadable k (hk.trans hj)) id ho
      obtain ⟨st, hturn, hstands⟩ := hstores.takesTurn hstart hi
      have hlt := h.inRange _ _ _ (.storeConnection hstart hturn (by rw [hstands.stream]; exact hid))
      rwa [sizeOf, hstands.connections] at hlt
  refine ⟨fun hreadable hchunks => ?_, hstored⟩
  have hstores : Stores buffer conns start.2 conns := by
    intro j hj
    obtain ⟨o, ho⟩ := hreadable j hj
    refine ⟨o, ho, fun id hid => ?_⟩
    rw [hid] at ho
    exact hstored j hj (fun k hk => hreadable k (hk.trans hj)) id ho
  obtain ⟨st, hloop, hstands⟩ := hstores.forLoop hstart.stands
  rcases hinfo : chunkInfoOf buffer (recordAt start.2 conns) with e | info
  · exact ⟨e, rfl⟩
  · have hlt := h.inRange _ _ _ (.storeChunkInfo hstart (.chunkInfo hloop hchunks rfl)
      (by rw [hstands.stream]; exact hinfo))
    exact absurd hlt (Nat.not_lt_zero 0)

/-- Opening subscripts its vectors only in range exactly if the bytes have nothing to store in
`chunk_infos_` and no connection to store, or to pass over, under an id from the number of
connections on, but for what an exception comes before. -/
theorem indexesInRange_iff (buffer : Bytes) :
    IndexesInRange buffer ↔ ∀ conns chunks start, Begins buffer conns chunks start →
      Harmless buffer conns chunks start.2 := by
  constructor
  · intro h conns chunks start hstart
    have hstores := h.storesNothingOutside hstart
    refine ⟨hstores, fun i hi hreadable id hid hle => ?_⟩
    obtain ⟨st, hturn, hstands⟩ := (hstores.stores hi.le hreadable).takesTurn hstart hi
    obtain ⟨e, he, hthrown⟩ := h.rejects id _ (.connection hstart hturn (by rw [hstands.stream]; exact hid))
      (by rw [sizeOf, hstands.connections]; exact hle)
    rcases hstores.ends_or_opens hstart with ⟨e', hends⟩ | ⟨bag, hbag⟩
    · rw [hstores.ofBytes_error hstart hends] at he
      cases he
      exact ⟨e, hends, hthrown⟩
    · rw [hbag] at he
      cases he
  · intro h
    constructor
    · intro vector i size hsub
      obtain ⟨conns, chunks, start, hstart⟩ : ∃ conns chunks start, Begins buffer conns chunks start := by
        cases hsub <;> exact ⟨_, _, _, by assumption⟩
      exact (h conns chunks start hstart).inRange hstart hsub
    · intro id count hnames hle
      cases hnames with
      | @connection conns chunks i _ start st hstart hturn hid =>
        have hharmless := h conns chunks start hstart
        obtain ⟨hi, hstands, hstores⟩ := hturn.stands hstart
        rw [hstands.stream] at hid
        rw [sizeOf, hstands.connections] at hle
        obtain ⟨e, hends, hthrown⟩ := hharmless.named i hi hstores.readable id hid hle
        exact ⟨e, hharmless.ofBytes_error hstart hends, hthrown⟩
      | indexData hstart hturn hid =>
        cases hturn with
        | indexData hchunk => exact absurd hchunk ((h _ _ _ hstart).not_takesTurn hstart)

end Open

/-- A file of one connection, whose record has the id 1. -/
def strayConnection : Bytes :=
  bytes "#ROSBAG V2.0\n" ++
    (le 4 69 ++ encodeFields [(bytes "op", [3]), (bytes "index_pos", le 8 90), (bytes "conn_count", le 4 1),
      (bytes "chunk_count", le 4 0)] ++ le 4 0) ++
    (le 4 33 ++ encodeFields [(bytes "op", [7]), (bytes "conn", le 4 1), (bytes "topic", bytes "/a")] ++
      le 4 53 ++ encodeFields [(bytes "type", bytes "a/A"), (bytes "md5sum", bytes "1"),
        (bytes "message_definition", bytes "int8 x")])

theorem not_indexesInRange_strayConnection : ¬ IndexesInRange strayConnection := by
  have hpreamble : preamble strayConnection = .ok { bytes := strayConnection, pos := 13 } := by decide +kernel
  have hcounts : (openHeader strayConnection { bytes := strayConnection, pos := 13 }).toOption.map
      (fun opened => (opened.1, opened.2.1, opened.2.2.2)) =
        some (1, 0, { bytes := strayConnection, pos := 90 }) := by decide +kernel
  have hid : connectionOf strayConnection (readRecord { bytes := strayConnection, pos := 90 }).1 =
      .ok (some 1) := by decide +kernel
  rcases hopened : openHeader strayConnection { bytes := strayConnection, pos := 13 } with e | ⟨conns, chunks, start⟩
  · rw [hopened] at hcounts
    cases hcounts
  rw [hopened] at hcounts
  simp only [Except.toOption, Option.map_some, Option.some.injEq, Prod.mk.injEq] at hcounts
  obtain ⟨rfl, rfl, hstream⟩ := hcounts
  have hstart : Begins strayConnection 1 0 start := ⟨_, hpreamble, hopened⟩
  intro h
  have hlt := h.inRange _ _ _ (.storeConnection hstart (.connection Nat.one_pos rfl) (by rw [hstream]; exact hid))
  rw [sizeOf, hstart.stands.connections] at hlt
  exact absurd hlt (Nat.lt_irrefl 1)

end Bag

end Embag
