import Embag.BagRoundTrip
import Embag.View

/-! The records inside the chunks of a bag, and bags whose chunks are made of them. -/

namespace Embag

open LittleEndian

structure MessageRecord where
  connection : ℕ
  time : TimeValue
  header : FieldList
  data : Bytes
  connectionFits : connection < 2 ^ 32
  dataFits : data.length < 2 ^ 32
  headerHas : header.fields.Perm [(bytes "op", [2]), (bytes "conn", le 4 connection),
    (bytes "time", le 4 time.secs.toNat ++ le 4 time.nsecs.toNat)]

def MessageRecord.record (r : MessageRecord) : FileRecord where
  header := r.header
  data := r.data
  fits := r.dataFits

/-- A record of a chunk; a CONNECTION record has the fields of its header and no others. -/
inductive ChunkRecord where
  | message (r : MessageRecord)
  | connection (c : FileConnection)
    (headerHas : c.header.fields.Perm
      [(bytes "op", [7]), (bytes "conn", le 4 c.id), (bytes "topic", c.topic)])

namespace ChunkRecord

def record : ChunkRecord → FileRecord
  | message r => r.record
  | connection c _ => c.record

def connectionId : ChunkRecord → ℕ
  | message r => r.connection
  | connection c _ => c.id

def message? : ChunkRecord → Option MessageRecord
  | message r => some r
  | connection _ _ => none

def encode (r : ChunkRecord) : Bytes := r.record.encode

def encodeAll (rs : List ChunkRecord) : Bytes := rs.flatMap encode

end ChunkRecord

structure FileChunk.Stores (chunk : FileChunk) (records : List ChunkRecord) : Prop where
  ne_nil : records ≠ []
  size : chunk.size = (ChunkRecord.encodeAll records).length
  plain : chunk.compression = bytes "none" → chunk.record.data = ChunkRecord.encodeAll records

/-- A bag, with the records of its chunks and definitions that are accepted. -/
structure StoredBag extends BagFile where
  contents : List (List ChunkRecord)
  stored : List.Forall₂ FileChunk.Stores chunks contents
  known : ∀ records ∈ contents, ∀ r ∈ records, r.connectionId < connections.length
  accepted : ∀ c ∈ connections, ∃ d, parseMsgDef c.messageDefinition c.type = .ok d

namespace StoredBag

def Decompresses (codecs : Codecs) (b : StoredBag) : Prop :=
  List.Forall₂ (fun chunk records =>
    (chunk.compression = bytes "lz4" →
      codecs.lz4 chunk.record.data chunk.size = (ChunkRecord.encodeAll records, .ok ())) ∧
    (chunk.compression = bytes "bz2" →
      codecs.bz2 chunk.record.data chunk.size = (ChunkRecord.encodeAll records, .ok ())))
    b.chunks b.contents

/-- The MESSAGE_DATA records, in the order of the chunks and then of the records. -/
def messageRecords (b : StoredBag) : List MessageRecord :=
  b.contents.flatten.filterMap ChunkRecord.message?

structure IsMessage (b : StoredBag) (r : MessageRecord) (m : RosMessage) : Prop where
  connection : ∃ c ∈ b.connections, c.id = r.connection ∧ m.topic = c.topic ∧ m.md5 = c.md5sum
  timestamp : m.timestamp = r.time
  data : ∃ buffer, m.rawBuffer = some buffer ∧
    sliceAt buffer m.rawBufferOffset m.rawDataLen = some r.data

end StoredBag

section Header

variable {memory : Bytes} {p : ℕ} {header : MessageHeader}

theorem strstrEquals_of_occursAt {name value : Bytes} (hequals : 61 ∉ name) (hzero : 0 ∉ name)
    (h : OccursAt (name ++ 61 :: value) memory p) :
    strstrEquals memory p = .ok (some (p + name.length)) := by
  obtain ⟨t, ht⟩ := h.2
  have hname : ∀ c ∈ name, (c != '='.toUInt8 && c != 0) = true := by
    intro c hc
    rw [Bool.and_eq_true, bne_iff_ne, bne_iff_ne]
    refine ⟨fun he => hequals ?_, fun he => hzero (he ▸ hc)⟩
    rw [← show c = 61 from he]
    exact hc
  have hdrop : (memory.drop p).dropWhile (fun c => c != '='.toUInt8 && c != 0) = 61 :: (value ++ t) := by
    rw [← ht, List.append_assoc, List.dropWhile_append_of_pos hname, List.cons_append,
      List.dropWhile_cons_of_neg (by decide)]
  have htake : (memory.drop p).takeWhile (fun c => c != '='.toUInt8 && c != 0) = name := by
    rw [← ht, List.append_assoc, List.takeWhile_append_of_pos hname, List.cons_append,
      List.takeWhile_cons_of_neg (by decide), List.append_nil]
  rw [strstrEquals, hdrop, htake]
  rfl

theorem readRaw_first {c : UInt8} {rest : Bytes} (h : OccursAt (c :: rest) memory p) :
    readRaw memory p 1 = .ok [c] :=
  readRaw_of_occursAt (x := [c]) (OccursAt.left (y := rest) h)

theorem setField_op {k : UInt8} (h : OccursAt (bytes "op" ++ 61 :: [k]) memory p) :
    setField memory p (some (p + 3)) header = .ok { header with op := Int.bmod k.toNat 256 } := by
  have hvalue : readRaw memory (p + 3) 1 = .ok [k] :=
    readRaw_of_occursAt (x := [k]) (OccursAt.right (x := bytes "op" ++ [61]) h)
  rw [setField, readRaw_first (c := 111) h, ok_bind, if_pos (show [111] = bytes "o" from rfl),
    readValue, hvalue]
  simp [ofLE]

theorem setField_conn {id : ℕ} (hid : id < 2 ^ 32)
    (h : OccursAt (bytes "conn" ++ 61 :: le 4 id) memory p) :
    setField memory p (some (p + 5)) header = .ok { header with connectionId := id } := by
  have hvalue : readRaw memory (p + 5) 4 = .ok (le 4 id) := by
    have hread := readRaw_of_occursAt (OccursAt.right (x := bytes "conn" ++ [61]) (y := le 4 id) h)
    rwa [length_le] at hread
  rw [setField, readRaw_first (c := 99) h, ok_bind, if_neg (show [99] ≠ bytes "o" by decide),
    if_pos (show [99] = bytes "c" from rfl), readValue, hvalue]
  simp [ofLE_le (show id < 256 ^ 4 from hid)]

theorem setField_time {t : TimeValue}
    (h : OccursAt (bytes "time" ++ 61 :: (le 4 t.secs.toNat ++ le 4 t.nsecs.toNat)) memory p) :
    setField memory p (some (p + 5)) header = .ok { header with timestamp := t } := by
  have hvalue : readRaw memory (p + 5) 8 = .ok (le 4 t.secs.toNat ++ le 4 t.nsecs.toNat) := by
    have hread := readRaw_of_occursAt (OccursAt.right (x := bytes "time" ++ [61])
      (y := le 4 t.secs.toNat ++ le 4 t.nsecs.toNat) h)
    rwa [show (le 4 t.secs.toNat ++ le 4 t.nsecs.toNat).length = 8 by simp] at hread
  rw [setField, readRaw_first (c := 116) h, ok_bind, if_neg (show [116] ≠ bytes "o" by decide),
    if_neg (show [116] ≠ bytes "c" by decide), if_pos (show [116] = bytes "t" from rfl), readValue,
    hvalue]
  simp [TimeValue.ofBytes_le]

/-- A topic passes for a time, of bytes that may lie behind the header. -/
theorem setField_topic (header : MessageHeader) {topic : Bytes} (h : OccursAt (bytes "topic" ++ 61 :: topic) memory p)
    (hroom : p + 6 + 8 ≤ memory.length) :
    ∃ t, setField memory p (some (p + 6)) header = .ok { header with timestamp := t } := by
  rw [setField, readRaw_first (c := 116) h, ok_bind, if_neg (show [116] ≠ bytes "o" by decide),
    if_neg (show [116] ≠ bytes "c" by decide), if_pos (show [116] = bytes "t" from rfl), readValue,
    readRaw, sliceAt, if_pos hroom]
  exact ⟨_, rfl⟩

theorem messageHeaderLoop_of_occursAt {name value : Bytes} {finish fuel : ℕ} {header' : MessageHeader}
    (hfinish : p < finish) (hequals : 61 ∉ name) (hzero : 0 ∉ name)
    (hfits : (encodeField (name, value)).length < 2 ^ 32)
    (h : OccursAt (encodeField (name, value)) memory p)
    (hset : setField memory (p + 4) (some (p + 4 + (name.length + 1))) header = .ok header') :
    messageHeaderLoop memory finish (fuel + 1) p header =
      messageHeaderLoop memory finish fuel (p + (encodeField (name, value)).length) header' := by
  simp only [length_encodeField] at hfits ⊢
  have hlen : readWord 4 memory p = .ok (name.length + 1 + value.length) :=
    readWord_of_occursAt (by norm_num; omega) h.left
  have hright := h.right
  rw [length_le] at hright
  have hequal := strstrEquals_of_occursAt hequals hzero hright
  rw [messageHeaderLoop, if_pos hfinish]
  simp only [hlen, ok_bind, hequal, Option.map_some, Nat.add_assoc (p + 4), hset]
  congr 1
  omega

end Header

/-- What the fields set, with the ones of the header before them. -/
structure Sets (k : UInt8) (id : ℕ) (third : Field) (t : TimeValue) (fs : List Field)
    (header header' : MessageHeader) : Prop where
  op : header'.op = if (bytes "op", [k]) ∈ fs then Int.bmod k.toNat 256 else header.op
  conn : header'.connectionId = if (bytes "conn", le 4 id) ∈ fs then id else header.connectionId
  time : third.1 = bytes "time" →
    header'.timestamp = if third ∈ fs then t else header.timestamp

theorem Sets.cons {k : UInt8} {id : ℕ} {third : Field} {t : TimeValue} {f : Field} {fs : List Field}
    {header header₁ header' : MessageHeader} (h : Sets k id third t [f] header header₁)
    (h' : Sets k id third t fs header₁ header') : Sets k id third t (f :: fs) header header' where
  op := by
    rw [h'.op, h.op]
    simp only [List.mem_cons, List.not_mem_nil, or_false]
    split_ifs <;> simp_all
  conn := by
    rw [h'.conn, h.conn]
    simp only [List.mem_cons, List.not_mem_nil, or_false]
    split_ifs <;> simp_all
  time hname := by
    rw [h'.time hname, h.time hname]
    simp only [List.mem_cons, List.not_mem_nil, or_false]
    split_ifs <;> simp_all

/-- The third field of a header: the time of a message, or the topic of a connection. -/
inductive IsThird (t : TimeValue) : Field → Prop
  | time : IsThird t (bytes "time", le 4 t.secs.toNat ++ le 4 t.nsecs.toNat)
  | topic (topic : Bytes) : IsThird t (bytes "topic", topic)

theorem exists_sets (header : MessageHeader) (finish fuel : ℕ) {k : UInt8} {id : ℕ} {third : Field}
    {t : TimeValue} {f : Field} {memory : Bytes} {p : ℕ} (hid : id < 2 ^ 32) (hthird : IsThird t third)
    (hf : f ∈ [(bytes "op", [k]), (bytes "conn", le 4 id), third])
    (hfits : (encodeField f).length < 2 ^ 32) (h : OccursAt (encodeField f) memory p)
    (hroom : p + (encodeField f).length + 8 ≤ memory.length ∨ f.1 ≠ bytes "topic")
    (hfinish : p < finish) :
    ∃ header', Sets k id third t [f] header header' ∧
      messageHeaderLoop memory finish (fuel + 1) p header =
        messageHeaderLoop memory finish fuel (p + (encodeField f).length) header' := by
  have hthird' : third.1 ≠ bytes "op" ∧ third.1 ≠ bytes "conn" := by
    cases hthird with
    | time => exact ⟨show bytes "time" ≠ bytes "op" by decide, show bytes "time" ≠ bytes "conn" by decide⟩
    | topic => exact ⟨show bytes "topic" ≠ bytes "op" by decide, show bytes "topic" ≠ bytes "conn" by decide⟩
  have hright := h.right
  rw [length_le] at hright
  simp only [List.mem_cons, List.not_mem_nil, or_false] at hf
  rcases hf with rfl | rfl | rfl
  · refine ⟨_, ?_, messageHeaderLoop_of_occursAt hfinish (by decide) (by decide) hfits h
      (setField_op hright)⟩
    refine ⟨by simp, ?_, fun _ => ?_⟩
    · rw [if_neg (by simp [show bytes "conn" ≠ bytes "op" by decide])]
    · rw [if_neg (by rw [List.mem_singleton]; rintro rfl; exact hthird'.1 rfl)]
  · refine ⟨_, ?_, messageHeaderLoop_of_occursAt hfinish (by decide) (by decide) hfits h
      (setField_conn hid hright)⟩
    refine ⟨?_, by simp, fun _ => ?_⟩
    · rw [if_neg (by simp [show bytes "op" ≠ bytes "conn" by decide])]
    · rw [if_neg (by rw [List.mem_singleton]; rintro rfl; exact hthird'.2 rfl)]
  · have hother : ∀ t', Sets k id f t' [f] header { header with timestamp := t' } := by
      intro t'
      refine ⟨?_, ?_, fun _ => by simp⟩
      · rw [if_neg (by rw [List.mem_singleton]; rintro rfl; exact hthird'.1 rfl)]
      · rw [if_neg (by rw [List.mem_singleton]; rintro rfl; exact hthird'.2 rfl)]
    cases hthird with
    | time =>
      exact ⟨_, hother t, messageHeaderLoop_of_occursAt hfinish (by decide) (by decide) hfits h
        (setField_time hright)⟩
    | topic topic =>
      have hroom' := hroom.resolve_right (by simp)
      rw [length_encodeField] at hroom'
      obtain ⟨t', hset⟩ := setField_topic header hright (by
        simp only [bytes, List.length_map] at hroom'
        have : "topic".toList.length = 5 := rfl
        omega)
      refine ⟨_, ?_, messageHeaderLoop_of_occursAt hfinish (by decide) (by decide) hfits h hset⟩
      have hsets := hother t'
      exact ⟨hsets.op, hsets.conn,
        fun hname => absurd hname (show bytes "topic" ≠ bytes "time" by decide)⟩

theorem exists_messageHeaderLoop (header : MessageHeader) {k : UInt8} {id : ℕ} {third : Field}
    {t : TimeValue} {fs : List Field} {memory : Bytes} {p fuel : ℕ} (hid : id < 2 ^ 32)
    (hthird : IsThird t third) (hfs : ∀ f ∈ fs, f ∈ [(bytes "op", [k]), (bytes "conn", le 4 id), third])
    (hfits : (encodeFields fs).length < 2 ^ 32) (hfuel : fs.length ≤ fuel)
    (h : OccursAt (encodeFields fs) memory p)
    (hroom : p + (encodeFields fs).length + 8 ≤ memory.length ∨ third.1 ≠ bytes "topic") :
    ∃ header', Sets k id third t fs header header' ∧
      messageHeaderLoop memory (p + (encodeFields fs).length) fuel p header = .ok header' := by
  induction fs generalizing header p fuel with
  | nil =>
    refine ⟨header, ⟨by simp, by simp, fun _ => by simp⟩, ?_⟩
    cases fuel <;> rw [messageHeaderLoop, if_neg (by simp [encodeFields])]
  | cons f fs ih =>
    rw [List.forall_mem_cons] at hfs
    have henc : encodeFields (f :: fs) = encodeField f ++ encodeFields fs := rfl
    rw [henc, List.length_append] at hfits hroom ⊢
    rw [henc] at h
    have hpos := length_encodeField f
    obtain ⟨fuel, rfl⟩ : ∃ j, fuel = j + 1 := ⟨fuel - 1, by rw [List.length_cons] at hfuel; omega⟩
    have hroomf : p + (encodeField f).length + 8 ≤ memory.length ∨ f.1 ≠ bytes "topic" := by
      rcases hroom with hroom | hroom
      · exact .inl (by omega)
      · have hf := hfs.1
        simp only [List.mem_cons, List.not_mem_nil, or_false] at hf
        rcases hf with rfl | rfl | rfl
        · exact .inr (show bytes "op" ≠ bytes "topic" by decide)
        · exact .inr (show bytes "conn" ≠ bytes "topic" by decide)
        · exact .inr hroom
    obtain ⟨header₁, hsets₁, hturn⟩ := exists_sets header
      (p + ((encodeField f).length + (encodeFields fs).length)) fuel hid hthird hfs.1 (by omega)
      h.left hroomf (by omega)
    obtain ⟨header', hsets', hloop⟩ := @ih header₁ (p + (encodeField f).length) fuel hfs.2 (by omega)
      (by rw [List.length_cons] at hfuel; omega) h.right
      (hroom.imp_left fun hroom => by omega)
    rw [Nat.add_assoc] at hloop
    exact ⟨header', hsets₁.cons hsets', hturn.trans hloop⟩

/-- Fields whose names are distinct and free of `=`. -/
def FieldList.of (fields : List Field) (h : (fields.map Prod.fst).Nodup ∧ (∀ f ∈ fields, 61 ∉ f.1) ∧
    (encodeFields fields).length < 2 ^ 32) : FieldList :=
  ⟨fields, h.1, h.2.1, h.2.2⟩

theorem nil_fits : ([] : Bytes).length < 2 ^ 32 := by decide

theorem zero_fits : 0 < 2 ^ 32 := by decide

theorem one_fits : 1 < 2 ^ 32 := by decide

theorem two_fits : 2 < 2 ^ 32 := by decide

theorem cond_fits (second : Bool) : cond second 1 0 < 2 ^ 32 := by cases second <;> decide

theorem none_mem_compressions : bytes "none" ∈ Bag.compressions := by decide

theorem lz4_mem_compressions : bytes "lz4" ∈ Bag.compressions := by decide

theorem lz4_ne_none : bytes "lz4" ≠ bytes "none" := by decide

theorem a_ne_nil : bytes "/a" ≠ [] := by decide

def sampleConnection (second : Bool) : FileConnection where
  id := cond second 1 0
  topic := bytes "/a"
  type := cond second (bytes "a/B") (bytes "a/A")
  md5sum := cond second (bytes "2") (bytes "1")
  messageDefinition := cond second (bytes "int16 y") (bytes "int8 x")
  callerid := none
  latching := none
  header := .of [(bytes "op", [7]), (bytes "conn", le 4 (cond second 1 0)), (bytes "topic", bytes "/a")]
    (by cases second <;> decide)
  fields := .of [(bytes "type", cond second (bytes "a/B") (bytes "a/A")),
    (bytes "md5sum", cond second (bytes "2") (bytes "1")),
    (bytes "message_definition", cond second (bytes "int16 y") (bytes "int8 x"))]
    (by cases second <;> decide)
  idFits := cond_fits second
  topic_ne := a_ne_nil
  headerHas := List.Subset.refl _
  fieldsHas := List.Subset.refl _
  hasCallerid := by cases second <;> (show _ ∉ _) <;> decide
  hasLatching := by cases second <;> (show _ ∉ _) <;> decide

theorem accepted_sampleConnection : ∀ c ∈ [sampleConnection false, sampleConnection true],
    ∃ d, parseMsgDef c.messageDefinition c.type = .ok d := by
  simp only [List.forall_mem_cons, List.not_mem_nil, false_imp_iff, implies_true, and_true]
  exact ⟨⟨_, rfl⟩, ⟨_, rfl⟩⟩

/-- The only message, of the second connection; without data, or the number 7. -/
def sampleMessage (empty : Bool) : MessageRecord where
  connection := 1
  time := ⟨5, 0⟩
  header := .of [(bytes "op", [2]), (bytes "conn", le 4 1),
    (bytes "time", le 4 (5 : UInt32).toNat ++ le 4 (0 : UInt32).toNat)] (by decide)
  data := cond empty [] [7, 0]
  connectionFits := by decide
  dataFits := by cases empty <;> decide
  headerHas := List.Perm.refl _

def sampleRecords (empty : Bool) : List ChunkRecord := [.message (sampleMessage empty)]

theorem sampleRecords_fit (empty : Bool) : (ChunkRecord.encodeAll (sampleRecords empty)).length < 2 ^ 32 := by
  cases empty <;> decide

def sampleChunk (empty : Bool) : FileChunk where
  compression := bytes "none"
  size := (ChunkRecord.encodeAll (sampleRecords empty)).length
  record := {
    header := .of [(bytes "op", [5]), (bytes "compression", bytes "none"),
      (bytes "size", le 4 (ChunkRecord.encodeAll (sampleRecords empty)).length)]
      (by cases empty <;> decide)
    data := ChunkRecord.encodeAll (sampleRecords empty)
    fits := sampleRecords_fit empty }
  index := [{
    connection := 1
    count := 1
    record := {
      header := .of [(bytes "op", [4]), (bytes "ver", le 4 1), (bytes "conn", le 4 1),
        (bytes "count", le 4 1)] (by decide)
      data := []
      fits := nil_fits }
    connectionFits := by decide
    countFits := one_fits
    has := List.Subset.refl _ }]
  compression_mem := none_mem_compressions
  sizeFits := sampleRecords_fit empty
  has := List.Subset.refl _

def sampleInfo : FileChunkInfo where
  chunk := 0
  position := 90
  startTime := ⟨5, 0⟩
  endTime := ⟨5, 0⟩
  count := 1
  record := {
    header := .of [(bytes "op", [6]), (bytes "ver", le 4 1), (bytes "chunk_pos", le 8 90),
      (bytes "start_time", le 4 (5 : UInt32).toNat ++ le 4 (0 : UInt32).toNat),
      (bytes "end_time", le 4 (5 : UInt32).toNat ++ le 4 (0 : UInt32).toNat),
      (bytes "count", le 4 1)] (by decide)
    data := []
    fits := nil_fits }
  positionFits := by decide
  countFits := one_fits
  has := List.Subset.refl _

def sampleLayout (empty : Bool) : BagLayout where
  record := {
    header := .of [(bytes "op", [3]), (bytes "index_pos", le 8 (cond empty 240 242)),
      (bytes "conn_count", le 4 2), (bytes "chunk_count", le 4 1)] (by cases empty <;> decide)
    data := []
    fits := nil_fits }
  chunks := [sampleChunk empty]
  padding := []
  connections := [sampleConnection false, sampleConnection true]
  infos := [sampleInfo]
  trailer := []

def sampleBag (empty : Bool) : StoredBag where
  toBagLayout := sampleLayout empty
  has := by cases empty <;> decide +kernel
  ids := List.Perm.refl _
  infosOf := List.Perm.refl _
  positions := by cases empty <;> decide
  counts := by cases empty <;> decide
  indexed := by cases empty <;> decide
  messages := by cases empty <;> decide
  connectionsFit := two_fits
  chunksFit := one_fits
  size := by cases empty <;> decide +kernel
  contents := [sampleRecords empty]
  stored := .cons ⟨by simp [sampleRecords], rfl, fun _ => rfl⟩ .nil
  known := by
    cases empty <;> simp [sampleRecords, ChunkRecord.connectionId, sampleMessage, sampleLayout]
  accepted := accepted_sampleConnection

theorem decompresses_sampleBag (codecs : Codecs) (empty : Bool) :
    (sampleBag empty).Decompresses codecs := by
  have hlz4 : bytes "none" ≠ bytes "lz4" := by decide
  have hbz2 : bytes "none" ≠ bytes "bz2" := by decide
  exact .cons ⟨fun h => absurd h hlz4, fun h => absurd h hbz2⟩ .nil

def sampleOpened (empty : Bool) : Bag :=
  match Bag.ofBytes (sampleBag empty).encode with
  | .ok bag => bag
  | .error _ => { bagBytes := [] }

theorem ofBytes_sampleBag (empty : Bool) :
    Bag.ofBytes (sampleBag empty).encode = .ok (sampleOpened empty) := by
  obtain ⟨bag, hbag, -⟩ := (sampleBag empty).exists_opened
  rw [sampleOpened, hbag]

/-- Surroundings for it, in which nothing is compressed. -/
def sampleEnv : Env where
  codecs := {
    lz4 := fun _ size => (List.replicate size 0, .error (.runtimeError []))
    bz2 := fun _ size => (List.replicate size 0, .error (.runtimeError []))
    length_lz4 := by simp
    length_bz2 := by simp }
  heap := Heap.sortOps
  leftFirst := true

def pairConnection (second : Bool) : FileConnection where
  id := cond second 1 0
  topic := cond second (bytes "/b") (bytes "/a")
  type := cond second (bytes "a/B") (bytes "a/A")
  md5sum := cond second (bytes "2") (bytes "1")
  messageDefinition := cond second (bytes "int16 y") (bytes "int8 x")
  callerid := none
  latching := none
  header := .of [(bytes "op", [7]), (bytes "conn", le 4 (cond second 1 0)),
    (bytes "topic", cond second (bytes "/b") (bytes "/a"))] (by cases second <;> decide)
  fields := .of [(bytes "type", cond second (bytes "a/B") (bytes "a/A")),
    (bytes "md5sum", cond second (bytes "2") (bytes "1")),
    (bytes "message_definition", cond second (bytes "int16 y") (bytes "int8 x"))]
    (by cases second <;> decide)
  idFits := cond_fits second
  topic_ne := by cases second <;> decide
  headerHas := List.Subset.refl _
  fieldsHas := List.Subset.refl _
  hasCallerid := by cases second <;> (show _ ∉ _) <;> decide
  hasLatching := by cases second <;> (show _ ∉ _) <;> decide

def pairMessage (i : Fin 3) : MessageRecord where
  connection := cond (i = 0) 0 1
  time := ⟨5 + UInt32.ofNat i, 0⟩
  header := .of [(bytes "op", [2]), (bytes "conn", le 4 (cond (i = 0) 0 1)),
    (bytes "time", le 4 (5 + UInt32.ofNat i).toNat ++ le 4 (0 : UInt32).toNat)] (by revert i; decide)
  data := cond (i = 0) [7] [i.val.toUInt8, 0]
  connectionFits := by revert i; decide
  dataFits := by revert i; decide
  headerHas := List.Perm.refl _

def pairRecords (second : Bool) : List ChunkRecord :=
  cond second [.message (pairMessage 2)] [.message (pairMessage 0), .message (pairMessage 1)]

def pairIndex (second : Bool) : FileIndex where
  connection := cond second 1 0
  count := 1
  record := {
    header := .of [(bytes "op", [4]), (bytes "ver", le 4 1), (bytes "conn", le 4 (cond second 1 0)),
      (bytes "count", le 4 1)] (by cases second <;> decide)
    data := []
    fits := nil_fits }
  connectionFits := cond_fits second
  countFits := one_fits
  has := List.Subset.refl _

def pairChunk (second : Bool) : FileChunk where
  compression := bytes "none"
  size := (ChunkRecord.encodeAll (pairRecords second)).length
  record := {
    header := .of [(bytes "op", [5]), (bytes "compression", bytes "none"),
      (bytes "size", le 4 (ChunkRecord.encodeAll (pairRecords second)).length)]
      (by cases second <;> decide)
    data := ChunkRecord.encodeAll (pairRecords second)
    fits := by cases second <;> decide }
  index := cond second [pairIndex true] [pairIndex false, pairIndex true]
  compression_mem := none_mem_compressions
  sizeFits := by cases second <;> decide
  has := List.Subset.refl _

def pairInfo (second : Bool) : FileChunkInfo where
  chunk := cond second 1 0
  position := cond second 344 90
  startTime := ⟨cond second 7 5, 0⟩
  endTime := ⟨cond second 7 6, 0⟩
  count := cond second 1 2
  record := {
    header := .of [(bytes "op", [6]), (bytes "ver", le 4 1), (bytes "chunk_pos", le 8 (cond second 344 90)),
      (bytes "start_time", le 4 (cond second 7 5 : UInt32).toNat ++ le 4 (0 : UInt32).toNat),
      (bytes "end_time", le 4 (cond second 7 6 : UInt32).toNat ++ le 4 (0 : UInt32).toNat),
      (bytes "count", le 4 (cond second 1 2))] (by cases second <;> decide)
    data := []
    fits := nil_fits }
  positionFits := by cases second <;> decide
  countFits := by cases second <;> decide
  has := List.Subset.refl _

def pairLayout : BagLayout where
  record := {
    header := .of [(bytes "op", [3]), (bytes "index_pos", le 8 496),
      (bytes "conn_count", le 4 2), (bytes "chunk_count", le 4 2)] (by decide)
    data := []
    fits := nil_fits }
  chunks := [pairChunk false, pairChunk true]
  padding := []
  connections := [pairConnection false, pairConnection true]
  infos := [pairInfo false, pairInfo true]
  trailer := []

/-- Two chunks: a message on each of the topics, and another on the second. -/
def pairBag : StoredBag where
  toBagLayout := pairLayout
  has := by decide +kernel
  ids := List.Perm.refl _
  infosOf := List.Perm.refl _
  positions := by decide +kernel
  counts := by decide
  indexed := by decide
  messages := by decide
  connectionsFit := two_fits
  chunksFit := two_fits
  size := by decide +kernel
  contents := [pairRecords false, pairRecords true]
  stored := .cons ⟨by simp [pairRecords], rfl, fun _ => rfl⟩ (.cons ⟨by simp [pairRecords], rfl, fun _ => rfl⟩ .nil)
  known := by simp [pairRecords, ChunkRecord.connectionId, pairMessage, pairLayout]
  accepted := by
    simp only [pairLayout, List.forall_mem_cons, List.not_mem_nil, false_imp_iff, implies_true, and_true]
    exact ⟨⟨_, rfl⟩, ⟨_, rfl⟩⟩

theorem decompresses_pairBag (codecs : Codecs) : pairBag.Decompresses codecs := by
  have hlz4 : bytes "none" ≠ bytes "lz4" := by decide
  have hbz2 : bytes "none" ≠ bytes "bz2" := by decide
  exact .cons ⟨fun h => absurd h hlz4, fun h => absurd h hbz2⟩
    (.cons ⟨fun h => absurd h hlz4, fun h => absurd h hbz2⟩ .nil)

end Embag
