import Embag.Library.Loops
import Embag.MessageDefParser
import Embag.RosBagTypes
import Embag.Stream

/-! Opening a bag: the records are read through a stream, their headers and the fields of a
connection through pointers into the same bytes. -/

namespace Embag

open LittleEndian Loops

/-- `Bag`. `chunk_infos_` is only reserved by the code; here it holds the elements that are
written to its storage. A null pointer in `message_schemata_` is `none`. -/
structure Bag where
  bagBytes : Bytes
  connections : List ConnectionRecord := []
  topicConnectionMap : AList fun _ : Bytes => List ℕ := ∅
  chunkInfos : List ChunkInfo := []
  chunks : List Chunk := []
  indexPos : ℕ := 0
  messageSchemata : AList fun _ : Bytes => Option MsgDef := ∅

/-- Copying `n` bytes from behind a pointer into `memory`. -/
def readPointer (memory : Bytes) (p : ℤ) (n : ℕ) : Except Fault Bytes :=
  if p < 0 then .error .undefined else readRaw memory p.toNat n

theorem readPointer_error {memory : Bytes} {p : ℤ} {n : ℕ} {e : Fault} (h : readPointer memory p n = .error e) :
    e = .undefined := by
  unfold readPointer at h
  split_ifs at h
  · cases h
    rfl
  · exact readRaw_error h

namespace Bag

def readRecord (stream : Stream) : Record × Stream :=
  -- Read header length
  let (headerLen, stream) := stream.readUInt32
  -- Set the header data pointer and skip to the next section
  let header := stream.tellg
  let stream := stream.seekCur headerLen
  -- Read data length
  let (dataLen, stream) := stream.readUInt32
  -- Set the data pointer and skip to the next record
  let data := stream.tellg
  let stream := stream.seekCur dataLen
  ({ headerLen, header, dataLen, data }, stream)

/-- The loop of `readFields`; each turn takes at least four of the `len` bytes. -/
def fieldsLoop (memory : Bytes) (finish : ℤ) : ℕ → ℤ → Header → Except Fault Header
  | fuel, p, fields =>
    if p < finish then
      match fuel with
      | 0 => .error .outOfFuel
      | fuel + 1 => do
        let fieldLen := ofLE (← readPointer memory p 4)
        let p := p + 4
        let buffer ← readPointer memory p fieldLen
        match buffer.dropWhile (· != '='.toUInt8) with
        | [] => .error (.runtimeError
            (bytes "Unable to find '=' in header field - perhaps this bag is corrupt..."))
        | _ :: value =>
          let name := buffer.takeWhile (· != '='.toUInt8)
          fieldsLoop memory finish fuel (p + fieldLen) (fields.insert name value)
    else .ok fields

def readFields (memory : Bytes) (p : ℤ) (len : ℕ) : Except Fault Header :=
  fieldsLoop memory (p + len) len p ∅

def readHeader (memory : Bytes) (record : Record) : Except Fault Header :=
  readFields memory record.header record.headerLen

/-- `type.substr(0, slash_pos)`, or nothing where there is no slash -/
def scopeOf (type : Bytes) : Bytes :=
  if '/'.toUInt8 ∈ type then type.takeWhile (· != '/'.toUInt8) else []

def connectionData (topic : Bytes) (fields : Header) : Except Fault ConnectionData := do
  let type ← fields.getField (bytes "type")
  let md5sum ← fields.getField (bytes "md5sum")
  let messageDefinition ← fields.getField (bytes "message_definition")
  return {
    topic
    type
    scope := scopeOf type
    md5sum
    messageDefinition
    callerid := (fields.lookup (bytes "callerid")).getD []
    latching := fields.lookup (bytes "latching") = some (bytes "1") }

/-- `topic_connection_map_[topic].push_back(&connections_[id])` -/
def pushConnection (map : AList fun _ : Bytes => List ℕ) (topic : Bytes) (id : ℕ) :
    AList fun _ : Bytes => List ℕ :=
  map.insert topic ((map.lookup topic).getD [] ++ [id])

def readConnection (_i : ℕ) : Bag × Stream → Except Fault (Bag × Stream)
  | (bag, stream) => do
    let (record, stream) := readRecord stream
    let header ← readHeader bag.bagBytes record
    let connectionId ← header.getUInt 4 (bytes "conn")
    let topic ← header.getField (bytes "topic")
    if topic = [] then return (bag, stream)
    let fields ← readFields bag.bagBytes record.data record.dataLen
    let data ← connectionData topic fields
    match bag.connections[connectionId]? with
    | none => .error .undefined
    | some connection =>
      return ({ bag with
        connections := bag.connections.set connectionId
          { connection with id := connectionId, topic, data }
        topicConnectionMap := pushConnection bag.topicConnectionMap topic connectionId }, stream)

def readChunkInfo (_i : ℕ) : Bag × Stream → Except Fault (Bag × Stream)
  | (bag, stream) => do
    let (record, stream) := readRecord stream
    let header ← readHeader bag.bagBytes record
    let _ver ← header.getUInt 4 (bytes "ver")
    let chunkPos ← header.getUInt 8 (bytes "chunk_pos")
    let startTime ← header.getTime (bytes "start_time")
    let endTime ← header.getTime (bytes "end_time")
    let connectionCount ← header.getUInt 4 (bytes "count")
    let info := { chunkPos, startTime, endTime, connectionCount }
    return ({ bag with chunkInfos := bag.chunkInfos ++ [info] }, stream)

/-- A turn of the loop over the INDEX_DATA records behind chunk `i`. -/
def readIndexData (i _j : ℕ) : Bag × Stream → Except Fault (Bag × Stream)
  | (bag, stream) => do
    let (record, stream) := readRecord stream
    let header ← readHeader bag.bagBytes record
    let _version ← header.getUInt 4 (bytes "ver")
    let connectionId ← header.getUInt 4 (bytes "conn")
    let msgCount ← header.getUInt 4 (bytes "count")
    if connectionId < bag.connections.length then
      return ({ bag with
        chunkInfos := bag.chunkInfos.modify i (ChunkInfo.addMessages msgCount)
        connections := bag.connections.modify connectionId (ConnectionRecord.addBlock i msgCount) },
        stream)
    else .error .undefined

def toUInt64 (position : ℤ) : ℕ := (position % 2 ^ 64).toNat

def compressions : List Bytes := [bytes "lz4", bytes "bz2", bytes "none"]

/-- A turn of the loop over the chunks, for the `i`-th CHUNK_INFO. -/
def readChunk (i : ℕ) : Bag × Stream → Except Fault (Bag × Stream)
  | (bag, stream) => do
    match bag.chunkInfos[i]? with
    | none => .error .undefined
    | some info =>
      let stream := stream.seekBeg info.chunkPos
      let (record, stream) := readRecord stream
      let header ← readHeader bag.bagBytes record
      let offset := toUInt64 stream.tellg
      let compression ← header.getField (bytes "compression")
      let uncompressedSize ← header.getUInt 4 (bytes "size")
      if compression ∉ compressions then
        .error (.runtimeError (bytes "Unsupported compression type: " ++ compression))
      else
        let (bag, stream) ← forLoop (readIndexData i) 0 info.connectionCount (bag, stream)
        match bag.chunkInfos[i]? with
        | none => .error .undefined
        | some info =>
          let chunk := { offset, info, compression, uncompressedSize, record }
          return ({ bag with chunks := bag.chunks ++ [chunk] }, stream)

def readRecords (bag : Bag) (stream : Stream) : Except Fault Bag := do
  let (record, stream) := readRecord stream
  let header ← readHeader bag.bagBytes record
  let connectionCount ← header.getUInt 4 (bytes "conn_count")
  let chunkCount ← header.getUInt 4 (bytes "chunk_count")
  let indexPos ← header.getUInt 8 (bytes "index_pos")
  let bag := { bag with connections := List.replicate connectionCount {}, indexPos }
  let stream := stream.seekBeg indexPos
  let st ← forLoop readConnection 0 connectionCount (bag, stream)
  let st ← forLoop readChunkInfo 0 chunkCount st
  let st ← forLoop readChunk 0 chunkCount st
  return st.1

def magicString : Bytes := bytes "#ROSBAG V"

/-- `Bag::Bag`, by way of `readStream` -/
def ofBytes (buffer : Bytes) : Except Fault Bag := do
  let stream : Stream := { bytes := buffer }
  -- First, check for the magic string indicating this is indeed a bag file
  let (temp, stream) := stream.read (List.replicate magicString.length 0)
  if temp ≠ magicString then
    .error (.runtimeError (bytes "This file doesn't appear to be a bag file..."))
  else
    -- Only version 2.0 is supported at the moment
    let (temp, stream) := stream.read (temp.take 3)
    if bytes "2.0" ≠ temp then
      .error (.runtimeError (bytes "Unsupported bag file version: " ++ temp))
    else
      let (temp, stream) := stream.read (temp.take 1)
      if bytes "\n" ≠ temp then
        .error (.runtimeError (bytes "Unable to find newline after version string, " ++
          bytes "perhaps this bag file is corrupted?"))
      else readRecords { bagBytes := buffer } stream

def topics (bag : Bag) : List Bytes := bag.topicConnectionMap.keys

def topicInBag (bag : Bag) (topic : Bytes) : Bool := topic ∈ bag.topicConnectionMap

/-- `connectionsForTopic` returns pointers to connections; the `operator[]` it uses makes an
entry for a topic that has none. -/
def connectionsForTopic (topic : Bytes) (bag : Bag) : Bag × List ℕ :=
  match bag.topicConnectionMap.lookup topic with
  | some ids => (bag, ids)
  | none => ({ bag with topicConnectionMap := bag.topicConnectionMap.insert topic [] }, [])

def connectionDataOf (bag : Bag) (ids : List ℕ) : List ConnectionData :=
  ids.filterMap fun id => (bag.connections[id]?).map ConnectionRecord.data

def connectionsByTopicMap (bag : Bag) : AList fun _ : Bytes => List ConnectionData :=
  bag.topicConnectionMap.entries.foldl
    (fun map item => map.insert item.1 (bag.connectionDataOf item.2)) ∅

end Bag

end Embag
