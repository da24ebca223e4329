import Embag.Bag

/-! What a bag of version 2.0 says, and the bytes that say it. Records carry the proof that
their fields say what the record means, in any order and among any others; the positions
stored in a bag are those of its own encoding. -/

namespace Embag

open LittleEndian

abbrev Field := Bytes × Bytes

def encodeField (f : Field) : Bytes := le 4 (f.1.length + 1 + f.2.length) ++ (f.1 ++ 61 :: f.2)

def encodeFields (fs : List Field) : Bytes := fs.flatMap encodeField

/-- The fields of a header, or of the data of a CONNECTION record. -/
structure FieldList where
  fields : List Field
  distinct : (fields.map Prod.fst).Nodup
  plain : ∀ f ∈ fields, 61 ∉ f.1
  fits : (encodeFields fields).length < 2 ^ 32

namespace FieldList

def encode (l : FieldList) : Bytes := encodeFields l.fields

def toHeader (l : FieldList) : Header := l.fields.foldl (fun map f => map.insert f.1 f.2) ∅

/-- The field has this value, or there is none of the name. -/
def Optional (l : FieldList) (name : Bytes) : Option Bytes → Prop
  | some value => (name, value) ∈ l.fields
  | none => name ∉ l.fields.map Prod.fst

end FieldList

structure FileRecord where
  header : FieldList
  data : Bytes
  fits : data.length < 2 ^ 32

def FileRecord.encode (r : FileRecord) : Bytes :=
  le 4 r.header.encode.length ++ (r.header.encode ++ (le 4 r.data.length ++ r.data))

structure FileConnection where
  id : ℕ
  topic : Bytes
  type : Bytes
  md5sum : Bytes
  messageDefinition : Bytes
  callerid : Option Bytes
  latching : Option Bool
  header : FieldList
  fields : FieldList
  idFits : id < 2 ^ 32
  topic_ne : topic ≠ []
  headerHas : [(bytes "op", [7]), (bytes "conn", le 4 id), (bytes "topic", topic)] ⊆ header.fields
  fieldsHas : [(bytes "type", type), (bytes "md5sum", md5sum),
    (bytes "message_definition", messageDefinition)] ⊆ fields.fields
  hasCallerid : fields.Optional (bytes "callerid") callerid
  hasLatching : fields.Optional (bytes "latching")
    (latching.map fun l => if l then bytes "1" else bytes "0")

def FileConnection.record (c : FileConnection) : FileRecord where
  header := c.header
  data := c.fields.encode
  fits := c.fields.fits

structure FileIndex where
  connection : ℕ
  count : ℕ
  record : FileRecord
  connectionFits : connection < 2 ^ 32
  countFits : count < 2 ^ 32
  has : [(bytes "op", [4]), (bytes "ver", le 4 1), (bytes "conn", le 4 connection),
    (bytes "count", le 4 count)] ⊆ record.header.fields

/-- A CHUNK record and the INDEX_DATA records behind it -/
structure FileChunk where
  compression : Bytes
  size : ℕ
  record : FileRecord
  index : List FileIndex
  compression_mem : compression ∈ Bag.compressions
  sizeFits : size < 2 ^ 32
  has : [(bytes "op", [5]), (bytes "compression", compression), (bytes "size", le 4 size)] ⊆
    record.header.fields

def FileChunk.encode (c : FileChunk) : Bytes :=
  c.record.encode ++ c.index.flatMap fun x => x.record.encode

/-- A CHUNK_INFO record, of the chunk of this number -/
structure FileChunkInfo where
  chunk : ℕ
  position : ℕ
  startTime : TimeValue
  endTime : TimeValue
  count : ℕ
  record : FileRecord
  positionFits : position < 2 ^ 64
  countFits : count < 2 ^ 32
  has : [(bytes "op", [6]), (bytes "ver", le 4 1), (bytes "chunk_pos", le 8 position),
    (bytes "start_time", le 4 startTime.secs.toNat ++ le 4 startTime.nsecs.toNat),
    (bytes "end_time", le 4 endTime.secs.toNat ++ le 4 endTime.nsecs.toNat),
    (bytes "count", le 4 count)] ⊆ record.header.fields

structure BagLayout where
  record : FileRecord
  chunks : List FileChunk
  padding : Bytes
  connections : List FileConnection
  infos : List FileChunkInfo
  trailer : Bytes

namespace BagLayout

def front (b : BagLayout) : Bytes := bytes "#ROSBAG V2.0\n" ++ b.record.encode

def chunkPosition (b : BagLayout) (i : ℕ) : ℕ :=
  b.front.length + ((b.chunks.take i).flatMap FileChunk.encode).length

def indexPos (b : BagLayout) : ℕ :=
  b.front.length + (b.chunks.flatMap FileChunk.encode).length + b.padding.length

def encode (b : BagLayout) : Bytes :=
  b.front ++ (b.chunks.flatMap FileChunk.encode ++ (b.padding ++
    (b.connections.flatMap (fun c => c.record.encode) ++
      (b.infos.flatMap (fun x => x.record.encode) ++ b.trailer))))

/-- The INDEX_DATA records of the chunk a CHUNK_INFO is about. -/
def indexOf (b : BagLayout) (info : FileChunkInfo) : List FileIndex :=
  (b.chunks[info.chunk]?).elim [] FileChunk.index

end BagLayout

/-- A bag: the layout is one its own header, CHUNK_INFO and INDEX_DATA records are right about. -/
structure BagFile extends BagLayout where
  has : [(bytes "op", [3]), (bytes "index_pos", le 8 toBagLayout.indexPos),
    (bytes "conn_count", le 4 connections.length),
    (bytes "chunk_count", le 4 chunks.length)] ⊆ record.header.fields
  ids : (connections.map FileConnection.id).Perm (List.range connections.length)
  infosOf : (infos.map FileChunkInfo.chunk).Perm (List.range chunks.length)
  positions : ∀ info ∈ infos, info.position = toBagLayout.chunkPosition info.chunk
  counts : ∀ info ∈ infos, info.count = (toBagLayout.indexOf info).length
  indexed : ∀ c ∈ chunks, ∀ x ∈ c.index, x.connection < connections.length
  messages : ∀ c ∈ chunks, (c.index.map FileIndex.count).sum < 2 ^ 32
  connectionsFit : connections.length < 2 ^ 32
  chunksFit : chunks.length < 2 ^ 32
  size : toBagLayout.encode.length < 2 ^ 63

/-! ### What opening is to yield -/

/-- What stands in front of the first slash, if there is one. -/
def beforeSlash : Bytes → Option Bytes
  | [] => none
  | c :: cs => if c = '/'.toUInt8 then some [] else (beforeSlash cs).map (c :: ·)

theorem beforeSlash_eq_some_iff {type scope : Bytes} : beforeSlash type = some scope ↔
    '/'.toUInt8 ∉ scope ∧ ∃ rest, type = scope ++ '/'.toUInt8 :: rest := by
  induction type generalizing scope with
  | nil => simp [beforeSlash]
  | cons c cs ih =>
    rw [beforeSlash]
    by_cases hc : c = '/'.toUInt8
    · subst hc
      rw [if_pos rfl, Option.some.injEq]
      constructor
      · rintro rfl
        exact ⟨List.not_mem_nil, cs, rfl⟩
      · rintro ⟨hscope, rest, hrest⟩
        cases scope with
        | nil => rfl
        | cons d ds =>
          rw [List.cons_append, List.cons.injEq] at hrest
          exact absurd (hrest.1 ▸ List.mem_cons_self) hscope
    · rw [if_neg hc, Option.map_eq_some_iff]
      constructor
      · rintro ⟨scope, hscope, rfl⟩
        obtain ⟨hnot, rest, rfl⟩ := ih.1 hscope
        exact ⟨by simp [hnot, Ne.symm hc], rest, rfl⟩
      · rintro ⟨hscope, rest, hrest⟩
        cases scope with
        | nil =>
          rw [List.nil_append, List.cons.injEq] at hrest
          exact absurd hrest.1 hc
        | cons d ds =>
          rw [List.cons_append, List.cons.injEq] at hrest
          rw [List.mem_cons, not_or] at hscope
          exact ⟨ds, ih.2 ⟨hscope.2, rest, hrest.2⟩, by rw [hrest.1]⟩

theorem beforeSlash_eq_none_iff {type : Bytes} : beforeSlash type = none ↔ '/'.toUInt8 ∉ type := by
  induction type with
  | nil => simp [beforeSlash]
  | cons c cs ih =>
    rw [beforeSlash, List.mem_cons, not_or]
    split_ifs with hc
    · simp [hc]
    · rw [Option.map_eq_none_iff, ih]
      exact ⟨fun h => ⟨Ne.symm hc, h⟩, And.right⟩

namespace FileConnection

/-- The package the type is in; nothing where it names none. -/
def scope (c : FileConnection) : Bytes := (beforeSlash c.type).getD []

/-- The data of the connection, with the messages counted so far. -/
def data (c : FileConnection) (messageCount : ℕ) : ConnectionData where
  topic := c.topic
  type := c.type
  scope := c.scope
  md5sum := c.md5sum
  messageDefinition := c.messageDefinition
  callerid := c.callerid.getD []
  latching := c.latching.getD false
  messageCount := messageCount

def toRecord (c : FileConnection) (blocks : List IndexBlock) (messageCount : ℕ) :
    ConnectionRecord where
  id := c.id
  blocks := blocks
  topic := c.topic
  data := c.data messageCount

end FileConnection

def FileChunkInfo.toInfo (x : FileChunkInfo) (messageCount : ℕ) : ChunkInfo where
  chunkPos := x.position
  startTime := x.startTime
  endTime := x.endTime
  messageCount := messageCount
  connectionCount := x.count

def FileRecord.toRecord (r : FileRecord) (position : ℕ) : Record where
  headerLen := r.header.encode.length
  header := position + 4
  dataLen := r.data.length
  data := position + 8 + r.header.encode.length

namespace BagLayout

def indexCount (b : BagLayout) (id : ℕ) (info : FileChunkInfo) : ℕ :=
  (b.indexOf info).countP fun x => x.connection = id

/-- A block for each INDEX_DATA record of the connection, in the order of the CHUNK_INFOs. -/
def blocks (b : BagLayout) (infos : List FileChunkInfo) (id : ℕ) : List IndexBlock :=
  infos.zipIdx.flatMap fun x => List.replicate (b.indexCount id x.1) ⟨x.2⟩

def messageCount (records : List FileIndex) (id : ℕ) : ℕ :=
  ((records.filter fun x => x.connection = id).map FileIndex.count).sum

/-- A CHUNK_INFO with the messages of all INDEX_DATA records of its chunk. -/
def chunkInfo (b : BagLayout) (info : FileChunkInfo) : ChunkInfo :=
  info.toInfo ((b.indexOf info).map FileIndex.count).sum

def chunk (b : BagLayout) (info : FileChunkInfo) (c : FileChunk) : Chunk where
  offset := info.position + c.record.encode.length
  info := b.chunkInfo info
  compression := c.compression
  uncompressedSize := c.size
  record := c.record.toRecord info.position

end BagLayout

end Embag
