import Embag.BagRecords

/-! The slices of the bytes that opening a bag reads, whatever the bytes are: every record the
constructor comes to, and when reading one stays inside. -/

namespace Embag

open LittleEndian Loops

namespace Bag

/-- `readStream` up to the records -/
def preamble (buffer : Bytes) : Except Fault Stream := do
  let stream : Stream := { bytes := buffer }
  let (temp, stream) := stream.read (List.replicate magicString.length 0)
  if temp ≠ magicString then
    .error (.runtimeError (bytes "This file doesn't appear to be a bag file..."))
  else
    let (temp, stream) := stream.read (temp.take 3)
    if bytes "2.0" ≠ temp then
      .error (.runtimeError (bytes "Unsupported bag file version: " ++ temp))
    else
      let (temp, stream) := stream.read (temp.take 1)
      if bytes "\n" ≠ temp then
        .error (.runtimeError (bytes "Unable to find newline after version string, " ++
          bytes "perhaps this bag file is corrupted?"))
      else .ok stream

/-- `readRecords` up to its loops: the numbers of connections and chunks, and where it is. -/
def openHeader (buffer : Bytes) (stream : Stream) : Except Fault (ℕ × ℕ × Bag × Stream) := do
  let (record, stream) := readRecord stream
  let header ← readHeader buffer record
  let connectionCount ← header.getUInt 4 (bytes "conn_count")
  let chunkCount ← header.getUInt 4 (bytes "chunk_count")
  let indexPos ← header.getUInt 8 (bytes "index_pos")
  return (connectionCount, chunkCount,
    { bagBytes := buffer, connections := List.replicate connectionCount {}, indexPos },
    stream.seekBeg indexPos)

/-- A turn of the loop over the chunks up to the loop over its INDEX_DATA records, and how
many of these there are. -/
def openChunk (i : ℕ) : Bag × Stream → Except Fault (Chunk × Bag × Stream)
  | (bag, stream) => do
    match bag.chunkInfos[i]? with
    | none => .error .undefined
    | some info =>
      let stream := stream.seekBeg info.chunkPos
      let (record, stream) := readRecord stream
      let header ← readHeader bag.bagBytes record
      let offset := toUInt64 stream.tellg
      let compression ← header.getField (bytes "compression")
      let uncompressedSize ← header.getUInt 4 (bytes "size")
      if compressions.contains compression then
        return ({ offset, info, compression, uncompressedSize, record }, bag, stream)
      else .error (.runtimeError (bytes "Unsupported compression type: " ++ compression))

/-- Where the constructor stands before a turn of one of its loops. -/
inductive Comes (buffer : Bytes) : (Bag × Stream → Except Fault (Bag × Stream)) → Bag × Stream → Prop
  | connection {stream : Stream} {conns chunks i : ℕ} {start st : Bag × Stream}
    (hpreamble : preamble buffer = .ok stream)
    (hheader : openHeader buffer stream = .ok (conns, chunks, start)) (hi : i < conns)
    (hst : forLoop readConnection 0 i start = .ok st) : Comes buffer (readConnection i) st
  | chunkInfo {stream : Stream} {conns chunks i : ℕ} {start st₁ st : Bag × Stream}
    (hpreamble : preamble buffer = .ok stream)
    (hheader : openHeader buffer stream = .ok (conns, chunks, start))
    (hconnections : forLoop readConnection 0 conns start = .ok st₁) (hi : i < chunks)
    (hst : forLoop readChunkInfo 0 i st₁ = .ok st) : Comes buffer (readChunkInfo i) st
  | chunk {stream : Stream} {conns chunks i : ℕ} {start st₁ st₂ st : Bag × Stream}
    (hpreamble : preamble buffer = .ok stream)
    (hheader : openHeader buffer stream = .ok (conns, chunks, start))
    (hconnections : forLoop readConnection 0 conns start = .ok st₁)
    (hinfos : forLoop readChunkInfo 0 chunks st₁ = .ok st₂) (hi : i < chunks)
    (hst : forLoop readChunk 0 i st₂ = .ok st) : Comes buffer (readChunk i) st
  | indexData {i j : ℕ} {chunk : Chunk} {st₁ st₂ st : Bag × Stream}
    (hchunk : Comes buffer (readChunk i) st₁) (hopen : openChunk i st₁ = .ok (chunk, st₂))
    (hj : j < chunk.info.connectionCount) (hst : forLoop (readIndexData i) 0 j st₂ = .ok st) :
    Comes buffer (readIndexData i j) st

/-- The slices that `readHeader`, and `readRecords` for the data of a connection, read. -/
inductive Reads (buffer : Bytes) : ℤ → ℕ → Prop
  | bagHeader {stream : Stream} (hpreamble : preamble buffer = .ok stream) :
    Reads buffer (readRecord stream).1.header (readRecord stream).1.headerLen
  | connection {i : ℕ} {st : Bag × Stream} (h : Comes buffer (readConnection i) st) :
    Reads buffer (readRecord st.2).1.header (readRecord st.2).1.headerLen
  | connectionData {i connectionId : ℕ} {st : Bag × Stream} {header : Header} {topic : Bytes}
    (h : Comes buffer (readConnection i) st)
    (hheader : readHeader buffer (readRecord st.2).1 = .ok header)
    (hconn : header.getUInt 4 (bytes "conn") = .ok connectionId)
    (htopic : header.getField (bytes "topic") = .ok topic) (hne : topic ≠ []) :
    Reads buffer (readRecord st.2).1.data (readRecord st.2).1.dataLen
  | chunkInfo {i : ℕ} {st : Bag × Stream} (h : Comes buffer (readChunkInfo i) st) :
    Reads buffer (readRecord st.2).1.header (readRecord st.2).1.headerLen
  | chunk {i : ℕ} {st : Bag × Stream} {info : ChunkInfo} (h : Comes buffer (readChunk i) st)
    (hinfo : st.1.chunkInfos[i]? = some info) :
    Reads buffer (readRecord (st.2.seekBeg info.chunkPos)).1.header
      (readRecord (st.2.seekBeg info.chunkPos)).1.headerLen
  | indexData {i j : ℕ} {st : Bag × Stream} (h : Comes buffer (readIndexData i j) st) :
    Reads buffer (readRecord st.2).1.header (readRecord st.2).1.headerLen

/-- Opening the bytes throws, or reads only slices that lie inside them. -/
def StaysInside (buffer : Bytes) : Prop :=
  (∃ e, ofBytes buffer = .error e ∧ e.thrown = true) ∨
    ∀ p n, Reads buffer p n → 0 ≤ p ∧ p + n ≤ buffer.length

/-- The fields from a position on lead out of the bytes before one of them has no `=`. -/
inductive LeadsOut (buffer : Bytes) (finish : ℤ) : ℤ → Prop
  | before {p : ℤ} (hp : p < finish) (h : p < 0) : LeadsOut buffer finish p
  | fieldLen {p : ℕ} (hp : p < finish) (h : buffer.length < p + 4) : LeadsOut buffer finish p
  | field {p fieldLen : ℕ} (hp : p < finish) (hlen : readWord 4 buffer p = .ok fieldLen)
    (h : buffer.length < p + 4 + fieldLen) : LeadsOut buffer finish p
  | next {p fieldLen : ℕ} {field : Bytes} (hp : p < finish)
    (hlen : readWord 4 buffer p = .ok fieldLen) (hfield : readRaw buffer (p + 4) fieldLen = .ok field)
    (hequals : '='.toUInt8 ∈ field) (rest : LeadsOut buffer finish ↑(p + 4 + fieldLen)) :
    LeadsOut buffer finish p

section Fields

variable {buffer : Bytes} {finish p : ℤ}

theorem LeadsOut.inv {p : ℕ} (h : LeadsOut buffer finish p) :
    p < finish ∧ (buffer.length < p + 4 ∨ ∃ fieldLen, readWord 4 buffer p = .ok fieldLen ∧
      (buffer.length < p + 4 + fieldLen ∨ ∃ field, readRaw buffer (p + 4) fieldLen = .ok field ∧
        '='.toUInt8 ∈ field ∧ LeadsOut buffer finish ↑(p + 4 + fieldLen))) := by
  generalize hq : (p : ℤ) = q at h
  cases h with
  | before hp h => omega
  | fieldLen hp h =>
    cases Int.ofNat_inj.1 hq
    exact ⟨hp, .inl h⟩
  | field hp hlen h =>
    cases Int.ofNat_inj.1 hq
    exact ⟨hp, .inr ⟨_, hlen, .inl h⟩⟩
  | next hp hlen hfield hequals rest =>
    cases Int.ofNat_inj.1 hq
    exact ⟨hp, .inr ⟨_, hlen, .inr ⟨_, hfield, hequals, rest⟩⟩⟩

theorem fieldsLoop_of_le {fuel : ℕ} {fields : Header} (hp : finish ≤ p) :
    fieldsLoop buffer finish fuel p fields = .ok fields := by
  unfold fieldsLoop
  rw [if_neg (by omega)]

theorem fieldsLoop_of_neg {fuel : ℕ} {fields : Header} (hp : p < finish) (h : p < 0) :
    fieldsLoop buffer finish (fuel + 1) p fields = .error .undefined := by
  unfold fieldsLoop
  rw [if_pos hp]
  simp only [readPointer, if_pos h, error_bind]

theorem fieldsLoop_succ {fuel p : ℕ} {fields : Header} (hp : p < finish) :
    fieldsLoop buffer finish (fuel + 1) p fields =
      (readWord 4 buffer p >>= fun fieldLen => readRaw buffer (p + 4) fieldLen >>= fun field =>
        if '='.toUInt8 ∈ field then
          fieldsLoop buffer finish fuel ↑(p + 4 + fieldLen)
            (fields.insert (field.takeWhile (· != '='.toUInt8)) (field.dropWhile (· != '='.toUInt8)).tail)
        else .error (.runtimeError
          (bytes "Unable to find '=' in header field - perhaps this bag is corrupt..."))) := by
  have hpointer : ∀ q n : ℕ, readPointer buffer ↑q n = readRaw buffer q n := by
    intro q n
    unfold readPointer
    rw [if_neg (by omega), Int.toNat_natCast]
  rw [fieldsLoop, if_pos hp]
  simp only [hpointer, readWord, map_bind]
  rcases readRaw buffer p 4 with e | word
  · rfl
  simp only [ok_bind]
  rw [show ((p : ℤ) + 4) = ↑(p + 4) by omega, hpointer]
  rcases readRaw buffer (p + 4) (ofLE word) with e | field
  · rfl
  simp only [ok_bind]
  rcases hdrop : field.dropWhile (· != '='.toUInt8) with _ | ⟨c, value⟩
  · have hnot : '='.toUInt8 ∉ field := by
      intro hmem
      rw [List.dropWhile_eq_nil_iff] at hdrop
      simpa using hdrop _ hmem
    rw [if_neg hnot]
  · have hmem : '='.toUInt8 ∈ field := by
      by_contra hnot
      have hnil : field.dropWhile (· != '='.toUInt8) = [] := by
        rw [List.dropWhile_eq_nil_iff]
        intro x hx
        simp only [bne_iff_ne]
        rintro rfl
        exact hnot hx
      rw [hnil] at hdrop
      cases hdrop
    rw [if_pos hmem, Nat.cast_add (p + 4) (ofLE word)]
    rfl

theorem inside_of_fieldsLoop {fuel : ℕ} {fields fields' : Header}
    (h : fieldsLoop buffer finish fuel p fields = .ok fields') (hp : p < finish) :
    0 ≤ p ∧ finish ≤ buffer.length := by
  induction fuel generalizing p fields with
  | zero =>
    unfold fieldsLoop at h
    rw [if_pos hp] at h
    cases h
  | succ fuel ih =>
    have hnonneg : 0 ≤ p := by
      by_contra hneg
      rw [fieldsLoop_of_neg hp (by omega)] at h
      cases h
    obtain ⟨p, rfl⟩ := Int.eq_ofNat_of_zero_le hnonneg
    rw [fieldsLoop_succ hp] at h
    rcases hlen : readWord 4 buffer p with e | fieldLen
    · simp [hlen] at h
    rcases hfield : readRaw buffer (p + 4) fieldLen with e | field
    · simp [hlen, hfield] at h
    simp only [hlen, hfield, ok_bind] at h
    split_ifs at h
    refine ⟨hnonneg, ?_⟩
    by_cases hnext : ((p + 4 + fieldLen : ℕ) : ℤ) < finish
    · exact (ih h hnext).2
    · have hle := readRaw_ok_iff.1 ⟨_, hfield⟩
      omega

theorem fieldsLoop_undefined_iff {fuel : ℕ} {fields : Header} (hfuel : finish - p ≤ fuel) :
    fieldsLoop buffer finish fuel p fields = .error .undefined ↔ LeadsOut buffer finish p := by
  induction fuel generalizing p fields with
  | zero =>
    rw [fieldsLoop_of_le (by omega)]
    refine ⟨nofun, fun h => ?_⟩
    cases h <;> omega
  | succ fuel ih =>
    by_cases hp : p < finish
    swap
    · rw [fieldsLoop_of_le (by omega)]
      refine ⟨nofun, fun h => ?_⟩
      cases h <;> omega
    by_cases hneg : p < 0
    · rw [fieldsLoop_of_neg hp hneg]
      exact ⟨fun _ => .before hp hneg, fun _ => rfl⟩
    obtain ⟨p, rfl⟩ := Int.eq_ofNat_of_zero_le (Int.not_lt.1 hneg)
    rw [fieldsLoop_succ hp]
    rcases hlen : readWord 4 buffer p with e | fieldLen
    · rw [readWord_error hlen]
      have hlt : ¬ p + 4 ≤ buffer.length := by
        rw [← readWord_ok_iff, hlen]
        exact nofun
      exact ⟨fun _ => .fieldLen hp (by omega), fun _ => rfl⟩
    rcases hfield : readRaw buffer (p + 4) fieldLen with e | field
    · have hlt : ¬ p + 4 + fieldLen ≤ buffer.length := by
        rw [← readRaw_ok_iff, hfield]
        exact nofun
      refine ⟨fun _ => .field hp hlen (by omega), fun _ => ?_⟩
      simp only [ok_bind, hfield, error_bind, readRaw_error hfield]
    simp only [ok_bind, hfield]
    have hword := readWord_ok_iff.1 ⟨_, hlen⟩
    have hend := readRaw_ok_iff.1 ⟨_, hfield⟩
    have hinv : LeadsOut buffer finish p →
        '='.toUInt8 ∈ field ∧ LeadsOut buffer finish ↑(p + 4 + fieldLen) := by
      intro h
      obtain ⟨-, hlt | ⟨n, hn, hrest⟩⟩ := h.inv
      · omega
      rw [hlen] at hn
      cases hn
      obtain hlt | ⟨field', hfield', hequals, rest⟩ := hrest
      · omega
      rw [hfield] at hfield'
      cases hfield'
      exact ⟨hequals, rest⟩
    split_ifs with hequals
    · rw [ih (by omega)]
      exact ⟨fun h => .next hp hlen hfield hequals h, fun h => (hinv h).2⟩
    · exact ⟨nofun, fun h => absurd (hinv h).1 hequals⟩

theorem fieldsLoop_thrown {fuel : ℕ} {fields : Header} {e : Fault} (hfuel : finish - p ≤ fuel)
    (h : fieldsLoop buffer finish fuel p fields = .error e) (he : e ≠ .undefined) :
    e.thrown = true := by
  induction fuel generalizing p fields with
  | zero =>
    rw [fieldsLoop_of_le (by omega)] at h
    cases h
  | succ fuel ih =>
    by_cases hp : p < finish
    swap
    · rw [fieldsLoop_of_le (by omega)] at h
      cases h
    by_cases hneg : p < 0
    · rw [fieldsLoop_of_neg hp hneg] at h
      cases h
      exact absurd rfl he
    obtain ⟨p, rfl⟩ := Int.eq_ofNat_of_zero_le (Int.not_lt.1 hneg)
    rw [fieldsLoop_succ hp] at h
    rcases hlen : readWord 4 buffer p with e' | fieldLen
    · rw [hlen, readWord_error hlen] at h
      cases h
      exact absurd rfl he
    rcases hfield : readRaw buffer (p + 4) fieldLen with e' | field
    · simp only [hlen, ok_bind, hfield, readRaw_error hfield, error_bind, Except.error.injEq] at h
      exact absurd h.symm he
    simp only [hlen, ok_bind, hfield] at h
    split_ifs at h
    · exact ih (by omega) h
    · cases h
      rfl

end Fields

section Streams

variable {s : Stream}

theorem bytes_read (target : Bytes) (s : Stream) : (s.read target).2.bytes = s.bytes := by
  unfold Stream.read
  dsimp only
  split_ifs <;> rfl

theorem bytes_seekBeg (n : ℕ) (s : Stream) : (s.seekBeg n).bytes = s.bytes := by
  unfold Stream.seekBeg
  split_ifs <;> rfl

theorem bytes_readRecord (s : Stream) : (readRecord s).2.bytes = s.bytes := by
  simp only [readRecord, Stream.readUInt32, Stream.seekCur, Prod.map, id, bytes_read, bytes_seekBeg]

/-- A pointer to one of the bytes, or to their end, or one before them. -/
def Points (buffer : Bytes) (p : ℤ) : Prop := p = -1 ∨ 0 ≤ p ∧ p ≤ buffer.length

theorem points_readUInt32 (s : Stream) : Points s.bytes s.readUInt32.2.tellg := by
  unfold Points Stream.readUInt32
  by_cases hfailed : s.failed
  · simp [Stream.read, Stream.tellg, hfailed]
  by_cases hlen : s.pos + 4 ≤ s.bytes.length
  · have hgot : ((s.bytes.drop s.pos).take 4).length = 4 := by
      rw [List.length_take, List.length_drop]
      omega
    simp only [Stream.read, if_neg hfailed, length_le, if_pos hgot, Prod.map, id, Stream.tellg]
    exact .inr ⟨by omega, by omega⟩
  · have hgot : ((s.bytes.drop s.pos).take 4).length ≠ 4 := by
      rw [List.length_take, List.length_drop]
      omega
    simp only [Stream.read, if_neg hfailed, length_le, if_neg hgot, Prod.map, id, Stream.tellg]
    exact .inl rfl

theorem points_readRecord {buffer : Bytes} (hs : s.bytes = buffer) :
    Points buffer (readRecord s).1.header ∧ Points buffer (readRecord s).1.data := by
  subst hs
  refine ⟨points_readUInt32 s, ?_⟩
  have hdata := points_readUInt32 (s.readUInt32.2.seekCur s.readUInt32.1)
  rwa [Stream.seekCur, bytes_seekBeg, Stream.readUInt32, Prod.map, id, bytes_read] at hdata

structure Over (buffer : Bytes) (st : Bag × Stream) : Prop where
  memory : st.1.bagBytes = buffer
  stream : st.2.bytes = buffer

variable {buffer : Bytes} {st st' : Bag × Stream} {i j : ℕ}

theorem Over.readConnection (h : Over buffer st) (hturn : readConnection i st = .ok st') :
    Over buffer st' := by
  obtain ⟨bag, stream⟩ := st
  simp only [Bag.readConnection, bind_eq_ok] at hturn
  obtain ⟨header, -, connectionId, -, topic, -, hturn⟩ := hturn
  split_ifs at hturn
  · cases hturn
    exact ⟨h.memory, (bytes_readRecord stream).trans h.stream⟩
  · simp only [bind_eq_ok] at hturn
    obtain ⟨fields, -, data, -, hturn⟩ := hturn
    split at hturn
    · cases hturn
    · cases hturn
      exact ⟨h.memory, (bytes_readRecord stream).trans h.stream⟩

theorem Over.readChunkInfo (h : Over buffer st) (hturn : readChunkInfo i st = .ok st') :
    Over buffer st' := by
  obtain ⟨bag, stream⟩ := st
  simp only [Bag.readChunkInfo, bind_eq_ok] at hturn
  obtain ⟨_, -, _, -, _, -, _, -, _, -, _, -, hturn⟩ := hturn
  cases hturn
  exact ⟨h.memory, (bytes_readRecord stream).trans h.stream⟩

theorem Over.readIndexData (h : Over buffer st) (hturn : readIndexData i j st = .ok st') :
    Over buffer st' := by
  obtain ⟨bag, stream⟩ := st
  simp only [Bag.readIndexData, bind_eq_ok] at hturn
  obtain ⟨_, -, _, -, _, -, _, -, hturn⟩ := hturn
  split_ifs at hturn
  cases hturn
  exact ⟨h.memory, (bytes_readRecord stream).trans h.stream⟩

theorem Over.openChunk {chunk : Chunk} (h : Over buffer st)
    (hopen : openChunk i st = .ok (chunk, st')) : Over buffer st' := by
  obtain ⟨bag, stream⟩ := st
  unfold Bag.openChunk at hopen
  dsimp only at hopen
  split at hopen
  · cases hopen
  · simp only [bind_eq_ok] at hopen
    obtain ⟨_, -, _, -, _, -, hopen⟩ := hopen
    split_ifs at hopen
    cases hopen
    exact ⟨h.memory, ((bytes_readRecord _).trans (bytes_seekBeg _ stream)).trans h.stream⟩

def closeChunk (i : ℕ) (chunk : Chunk) : Bag × Stream → Except Fault (Bag × Stream)
  | (bag, stream) =>
    match bag.chunkInfos[i]? with
    | none => .error .undefined
    | some info => .ok ({ bag with chunks := bag.chunks ++ [{ chunk with info }] }, stream)

theorem readChunk_eq (i : ℕ) (st : Bag × Stream) :
    readChunk i st = (openChunk i st >>= fun opened =>
      forLoop (Bag.readIndexData i) 0 opened.1.info.connectionCount opened.2 >>=
        closeChunk i opened.1) := by
  obtain ⟨bag, stream⟩ := st
  unfold readChunk Bag.openChunk
  dsimp only
  rcases bag.chunkInfos[i]? with _ | info
  · rfl
  · simp only [bind_assoc]
    congr 1
    funext header
    congr 1
    funext compression
    congr 1
    funext size
    by_cases hcompression : compression ∈ compressions
    · rw [if_neg (not_not.2 hcompression), if_pos (List.contains_iff_mem.2 hcompression)]
      rfl
    · rw [if_pos hcompression, if_neg (mt List.contains_iff_mem.1 hcompression)]
      rfl

theorem Over.readChunk (h : Over buffer st) (hturn : readChunk i st = .ok st') :
    Over buffer st' := by
  simp only [readChunk_eq, bind_eq_ok] at hturn
  obtain ⟨⟨chunk, st₁⟩, hopen, st₂, hloop, hclose⟩ := hturn
  have hover := forLoop_rule (P := Over buffer) (fun h hturn => h.readIndexData hturn)
    (h.openChunk hopen) hloop
  unfold closeChunk at hclose
  dsimp only at hclose
  split at hclose
  · cases hclose
  · cases hclose
    exact ⟨hover.memory, hover.stream⟩

theorem over_openHeader {stream : Stream} {conns chunks : ℕ} (hstream : stream.bytes = buffer)
    (h : openHeader buffer stream = .ok (conns, chunks, st)) : Over buffer st := by
  simp only [openHeader, bind_eq_ok] at h
  obtain ⟨_, -, _, -, _, -, _, -, h⟩ := h
  cases h
  exact ⟨rfl, ((bytes_seekBeg _ _).trans (bytes_readRecord stream)).trans hstream⟩

theorem bytes_preamble {stream : Stream} (h : preamble buffer = .ok stream) :
    stream.bytes = buffer := by
  simp only [preamble] at h
  split_ifs at h
  cases h
  simp only [bytes_read]

end Streams

theorem ofBytes_eq (buffer : Bytes) :
    ofBytes buffer = (preamble buffer >>= fun stream => openHeader buffer stream >>= fun opened =>
      forLoop readConnection 0 opened.1 opened.2.2 >>= fun st =>
      forLoop readChunkInfo 0 opened.2.1 st >>= fun st =>
      forLoop readChunk 0 opened.2.1 st >>= fun st => .ok st.1) := by
  simp only [ofBytes, preamble]
  split_ifs
  · rfl
  · rfl
  · rfl
  · simp only [readRecords, openHeader, ok_bind, bind_assoc]
    rfl

section Comes

variable {buffer : Bytes} {turn : Bag × Stream → Except Fault (Bag × Stream)} {st : Bag × Stream}

/-- Where the constructor comes to a turn, it takes the turn and goes on. -/
theorem Comes.spec (h : Comes buffer turn st) :
    Over buffer st ∧ ∃ rest, ofBytes buffer = (turn st >>= rest) := by
  induction h with
  | connection hpreamble hheader hi hst =>
    have hstart := over_openHeader (bytes_preamble hpreamble) hheader
    refine ⟨forLoop_rule Over.readConnection hstart hst, ?_⟩
    rw [ofBytes_eq, hpreamble, ok_bind, hheader, ok_bind, forLoop_of_lt hi hst, bind_assoc]
    exact ⟨_, rfl⟩
  | chunkInfo hpreamble hheader hconnections hi hst =>
    have hstart := over_openHeader (bytes_preamble hpreamble) hheader
    have hinfos := forLoop_rule Over.readConnection hstart hconnections
    refine ⟨forLoop_rule Over.readChunkInfo hinfos hst, ?_⟩
    rw [ofBytes_eq, hpreamble, ok_bind, hheader, ok_bind, hconnections, ok_bind,
      forLoop_of_lt hi hst, bind_assoc]
    exact ⟨_, rfl⟩
  | chunk hpreamble hheader hconnections hinfos hi hst =>
    have hstart := over_openHeader (bytes_preamble hpreamble) hheader
    have hchunks := forLoop_rule Over.readChunkInfo
      (forLoop_rule Over.readConnection hstart hconnections) hinfos
    refine ⟨forLoop_rule Over.readChunk hchunks hst, ?_⟩
    rw [ofBytes_eq, hpreamble, ok_bind, hheader, ok_bind, hconnections, ok_bind, hinfos, ok_bind,
      forLoop_of_lt hi hst, bind_assoc]
    exact ⟨_, rfl⟩
  | indexData hchunk hopen hj hst ih =>
    obtain ⟨hover, rest, hrest⟩ := ih
    refine ⟨forLoop_rule Over.readIndexData (hover.openChunk hopen) hst, ?_⟩
    rw [hrest, readChunk_eq, hopen, ok_bind, forLoop_of_lt hj hst, bind_assoc, bind_assoc]
    exact ⟨_, rfl⟩

def ReadsFirst {α : Type} (buffer : Bytes) (p : ℤ) (n : ℕ) (x : Except Fault α) : Prop :=
  ∃ k : Header → Except Fault α, x = (readFields buffer p n >>= k) ∧
    ∃ e, k ∅ = .error e ∧ e.thrown = true

theorem ReadsFirst.bind {α β : Type} {p : ℤ} {n : ℕ} {x : Except Fault α}
    (h : ReadsFirst buffer p n x) (f : α → Except Fault β) : ReadsFirst buffer p n (x >>= f) := by
  obtain ⟨k, rfl, e, he, hthrown⟩ := h
  refine ⟨fun fields => k fields >>= f, bind_assoc _ _ _, e, ?_, hthrown⟩
  simp only [he, error_bind]

theorem Comes.readsFirst {p : ℤ} {n : ℕ} (h : Comes buffer turn st)
    (hturn : ReadsFirst buffer p n (turn st)) : ReadsFirst buffer p n (ofBytes buffer) := by
  obtain ⟨-, rest, hrest⟩ := h.spec
  rw [hrest]
  exact hturn.bind rest

/-- A slice that is read has its pointer, and what it holds decides how the constructor goes on. -/
theorem Reads.spec {p : ℤ} {n : ℕ} (h : Reads buffer p n) :
    Points buffer p ∧ ReadsFirst buffer p n (ofBytes buffer) := by
  cases h with
  | bagHeader hpreamble =>
    refine ⟨(points_readRecord (bytes_preamble hpreamble)).1, ?_⟩
    rw [ofBytes_eq, hpreamble, ok_bind]
    exact ReadsFirst.bind ⟨_, rfl, _, rfl, rfl⟩ _
  | connection h =>
    obtain ⟨hover, -⟩ := h.spec
    refine ⟨(points_readRecord hover.stream).1, h.readsFirst ?_⟩
    rw [← hover.memory]
    exact ⟨_, rfl, _, rfl, rfl⟩
  | connectionData h hheader hconn htopic hne =>
    obtain ⟨hover, -⟩ := h.spec
    refine ⟨(points_readRecord hover.stream).2, h.readsFirst ?_⟩
    rw [← hover.memory] at hheader ⊢
    simp only [readConnection, hheader, hconn, htopic, ok_bind, if_neg hne]
    exact ⟨_, rfl, _, rfl, rfl⟩
  | chunkInfo h =>
    obtain ⟨hover, -⟩ := h.spec
    refine ⟨(points_readRecord hover.stream).1, h.readsFirst ?_⟩
    rw [← hover.memory]
    exact ⟨_, rfl, _, rfl, rfl⟩
  | chunk h hinfo =>
    obtain ⟨hover, -⟩ := h.spec
    refine ⟨(points_readRecord ((bytes_seekBeg _ _).trans hover.stream)).1, h.readsFirst ?_⟩
    rw [← hover.memory]
    simp only [readChunk, hinfo]
    exact ⟨_, rfl, _, rfl, rfl⟩
  | indexData h =>
    obtain ⟨hover, -⟩ := h.spec
    refine ⟨(points_readRecord hover.stream).1, h.readsFirst ?_⟩
    rw [← hover.memory]
    exact ⟨_, rfl, _, rfl, rfl⟩

end Comes

def Overruns (buffer : Bytes) (p : ℤ) (n : ℕ) : Prop :=
  (p < 0 ∨ buffer.length < p + n) ∧ LeadsOut buffer (p + n) p

theorem not_staysInside {buffer : Bytes} {p : ℤ} {n : ℕ} (h : Reads buffer p n)
    (hover : Overruns buffer p n) : ¬ StaysInside buffer := by
  obtain ⟨houtside, hout⟩ := hover
  rintro (⟨e, he, hthrown⟩ | hinside)
  · obtain ⟨-, k, hk, -⟩ := h.spec
    rw [readFields, (fieldsLoop_undefined_iff (by omega)).2 hout, error_bind, he] at hk
    cases hk
    cases hthrown
  · have hslice := hinside p n h
    omega

theorem thrown_of_not_leadsOut {buffer : Bytes} {p : ℤ} {n : ℕ} (h : Reads buffer p n)
    (houtside : p < 0 ∨ buffer.length < p + n) (hnot : ¬ LeadsOut buffer (p + n) p) :
    ∃ e, ofBytes buffer = .error e ∧ e.thrown = true := by
  obtain ⟨hpoints, k, hk, e, he, hthrown⟩ := h.spec
  rcases hfields : readFields buffer p n with e' | fields
  · rw [hk, hfields]
    refine ⟨e', rfl, fieldsLoop_thrown (by omega) hfields fun hundefined => hnot ?_⟩
    rw [hundefined] at hfields
    exact (fieldsLoop_undefined_iff (by omega)).1 hfields
  · have hn : n = 0 := by
      by_contra hn
      have hinside := inside_of_fieldsLoop hfields (by omega)
      omega
    subst hn
    rw [readFields, fieldsLoop_of_le (by omega)] at hfields
    cases hfields
    exact ⟨e, by rw [hk, readFields, fieldsLoop_of_le (by omega), ok_bind, he], hthrown⟩

/-- Opening throws or stays inside the bytes, unless it comes to a slice that overruns them. -/
theorem staysInside_iff (buffer : Bytes) :
    StaysInside buffer ↔ ∀ p n, Reads buffer p n → ¬ Overruns buffer p n := by
  constructor
  · exact fun h p n hreads hover => not_staysInside hreads hover h
  · intro h
    by_cases hinside : ∀ p n, Reads buffer p n → 0 ≤ p ∧ p + n ≤ buffer.length
    · exact .inr hinside
    push Not at hinside
    obtain ⟨p, n, hreads, hgt⟩ := hinside
    have houtside : p < 0 ∨ buffer.length < p + n := by
      by_cases hp : 0 ≤ p
      · exact .inr (hgt hp)
      · exact .inl (by omega)
    exact .inl (thrown_of_not_leadsOut hreads houtside fun hout => h p n hreads ⟨houtside, hout⟩)

/-- A file that is cut off within the header of its first record. -/
def cutOff : Bytes := bytes "#ROSBAG V2.0\n" ++ le 4 16 ++ (le 4 4 ++ bytes "op=" ++ [3])

theorem not_staysInside_cutOff : ¬ StaysInside cutOff := by
  have hpreamble : preamble cutOff = .ok { bytes := cutOff, pos := 13 } := by decide +kernel
  refine not_staysInside (.bagHeader hpreamble) ⟨.inr (by decide +kernel), ?_⟩
  have hheader : (readRecord { bytes := cutOff, pos := 13 }).1.header = ((17 : ℕ) : ℤ) := by
    decide +kernel
  have hlen : (readRecord { bytes := cutOff, pos := 13 }).1.headerLen = 16 := by decide +kernel
  rw [hheader, hlen]
  exact @LeadsOut.next cutOff _ 17 4 (bytes "op=" ++ [3]) (by decide) (by decide +kernel)
    (by decide +kernel) (by decide +kernel) (.fieldLen (p := 25) (by decide) (by decide +kernel))

end Bag

end Embag
