import Embag.Library.Heap
import Embag.Library.OrderedSet
import Embag.Bag

/-! Iterating over the messages of several bags. Bags and their wrappers are shared, so they
live in a `World` and everything else holds pointers to them, which are indices. -/

namespace Embag

open LittleEndian Loops

/-- The codecs of a compressed chunk: for its stored bytes and a size, what they leave in a
buffer of that size and how the call ends. -/
structure Codecs where
  lz4 : Bytes → ℕ → Bytes × Except Fault Unit
  bz2 : Bytes → ℕ → Bytes × Except Fault Unit
  length_lz4 : ∀ stored size, (lz4 stored size).1.length = size
  length_bz2 : ∀ stored size, (bz2 stored size).1.length = size

/-- `chunk_t::decompress` into a new buffer of `uncompressed_size` bytes -/
def Chunk.decompress (codecs : Codecs) (memory : Bytes) (chunk : Chunk) : Bytes × Except Fault Unit :=
  let blank := List.replicate chunk.uncompressedSize 0
  let stored := readPointer memory chunk.record.data chunk.record.dataLen
  if chunk.compression = bytes "lz4" then
    match stored with
    | .ok stored => codecs.lz4 stored chunk.uncompressedSize
    | .error e => (blank, .error e)
  else if chunk.compression = bytes "bz2" then
    match stored with
    | .ok stored => codecs.bz2 stored chunk.uncompressedSize
    | .error e => (blank, .error e)
  else if chunk.compression = bytes "none" then
    match readPointer memory chunk.record.data chunk.uncompressedSize with
    | .ok copied => (copied, .ok ())
    | .error e => (blank, .error e)
  else (blank, .ok ())

def Bag.chunkOffset (bag : Bag) (p : ℕ) : ℕ := (bag.chunks[p]?).elim 0 Chunk.offset

/-- The set of chunks that is ordered by `bag_offset_compare_t`, after these were emplaced. -/
def Bag.chunkSet (bag : Bag) (ps : List ℕ) : List ℕ := OrderedSet.ofList bag.chunkOffset ps

/-- The part of `readMessage` that finds the next record; the position it has reached is
kept also when it throws. -/
def scanRecord (buffer : Bytes) (p : ℕ) : ℕ × Except Fault Record :=
  match atIndex buffer p >>= fun _ => readWord 4 buffer p with
  | .error e => (p, .error e)
  | .ok headerLen =>
    let header := p + 4
    match atIndex buffer header with
    | .error e => (header, .error e)
    | .ok _ =>
      let p := header + headerLen
      match atIndex buffer p >>= fun _ => readWord 4 buffer p with
      | .error e => (p, .error e)
      | .ok dataLen =>
        let data := p + 4
        match atIndex buffer data with
        | .error e => (data, .error e)
        | .ok _ => (data + dataLen, .ok { headerLen, header, dataLen, data })

/-- `View::iterator::header_t`; the operation is a `char` widened to an `int`. -/
structure MessageHeader where
  op : ℤ := 255
  connectionId : ℕ := 0
  timestamp : TimeValue := {}
  deriving DecidableEq, Repr

/-- `strstr(p, "=")`, which stops at a 0 and knows no other end. -/
def strstrEquals (memory : Bytes) (p : ℕ) : Except Fault (Option ℕ) :=
  match (memory.drop p).dropWhile fun c => c != '='.toUInt8 && c != 0 with
  | [] => .error .undefined
  | c :: _ =>
    let length := ((memory.drop p).takeWhile fun c => c != '='.toUInt8 && c != 0).length
    .ok (if c = '='.toUInt8 then some (p + length) else none)

/-- `*value_p` as a `char`, `uint32_t` or `ros_time_t`; one behind a null pointer is no
object, and not null either, so that the test for a missing `=` never fails. -/
def readValue (memory : Bytes) (valueP : Option ℕ) (n : ℕ) : Except Fault Bytes :=
  match valueP with
  | some p => readRaw memory p n
  | none => .error .undefined

/-- What a field of the header sets, by the first character of its name. -/
def setField (memory : Bytes) (p : ℕ) (valueP : Option ℕ) (header : MessageHeader) :
    Except Fault MessageHeader := do
  let first ← readRaw memory p 1
  if first = bytes "o" then
    let op ← readValue memory valueP 1
    return { header with op := Int.bmod (ofLE op) 256 }
  else if first = bytes "c" then
    let connectionId ← readValue memory valueP 4
    return { header with connectionId := ofLE connectionId }
  else if first = bytes "t" then
    let timestamp ← readValue memory valueP 8
    return { header with timestamp := .ofBytes timestamp }
  else return header

/-- The loop of `View::iterator::readHeader`; each turn takes at least four bytes. -/
def messageHeaderLoop (memory : Bytes) (finish : ℕ) : ℕ → ℕ → MessageHeader →
    Except Fault MessageHeader
  | fuel, p, header =>
    if p < finish then
      match fuel with
      | 0 => .error .outOfFuel
      | fuel + 1 => do
        let fieldLen ← readWord 4 memory p
        let p := p + 4
        let equals ← strstrEquals memory p
        let header ← setField memory p (equals.map (· + 1)) header
        messageHeaderLoop memory finish fuel (p + fieldLen) header
    else .ok header

def readMessageHeader (memory : Bytes) (record : Record) : Except Fault MessageHeader :=
  messageHeaderLoop memory (record.header.toNat + record.headerLen) record.headerLen
    record.header.toNat {}

/-- Where the scan of a bag stands: the members of `bag_wrapper_t` that `readMessage` resumes
from. `chunk_iter` is the number of chunks in front of it. -/
structure Scan where
  bag : ℕ
  processedBytes : ℕ := 0
  uncompressedSize : ℕ := 0
  currentBuffer : Option Bytes := none
  chunksToParse : List ℕ := []
  chunkIter : ℕ := 0
  connectionIds : List ℕ := []
  deriving DecidableEq, Repr

/-- The members of `bag_wrapper_t` about the message that was read last. -/
structure CurrentMessage where
  connectionId : ℕ := 0
  messageBuffer : Option Bytes := none
  messageDataOffset : ℕ := 0
  messageLen : ℕ := 0
  timestamp : TimeValue := {}
  deriving DecidableEq, Repr

structure BagWrapper where
  scan : Scan
  current : CurrentMessage := {}
  deriving DecidableEq, Repr

namespace Scan

/-- What is read of a record: a message, if it is one of a connection asked for. -/
def readRecord (buffer : Bytes) (s : Scan) : Scan × Option (Except Fault (Option CurrentMessage)) :=
  match scanRecord buffer s.processedBytes with
  | (p, .error e) => ({ s with processedBytes := p }, some (.error e))
  | (p, .ok record) =>
    let s := { s with processedBytes := p }
    match readMessageHeader buffer record with
    | .error e => (s, some (.error e))
    | .ok header =>
      if header.op = 2 then
        -- Check if this is a topic we're interested in
        if header.connectionId ∈ s.connectionIds then
          (s, some (.ok (some {
            connectionId := header.connectionId
            messageBuffer := some buffer
            messageDataOffset := record.data.toNat
            messageLen := record.dataLen
            timestamp := header.timestamp })))
        else (s, none)
      else if header.op = 7 then (s, none)
      else (s, some (.error (.runtimeError
        (bytes "Found unknown record type: " ++ bytes (toString header.op)))))

/-- One turn of the loops of `readMessage`: a chunk is opened, or a record of it read, or the
chunk left. There is no result as long as the loops go on. -/
def turn (bag : Bag) (codecs : Codecs) (s : Scan) :
    Scan × Option (Except Fault (Option CurrentMessage)) :=
  match s.chunksToParse[s.chunkIter]? with
  | none => (s, some (.ok none))
  | some p =>
    match s.currentBuffer with
    | none =>
      match bag.chunks[p]? with
      | none => (s, some (.error .undefined))
      | some chunk =>
        match atIndex (List.replicate chunk.uncompressedSize 0) 0 with
        | .error e => ({ s with currentBuffer := some [] }, some (.error e))
        | .ok _ =>
          match chunk.decompress codecs bag.bagBytes with
          | (buffer, .error e) => ({ s with currentBuffer := some buffer }, some (.error e))
          | (buffer, .ok _) =>
            ({ s with currentBuffer := some buffer, uncompressedSize := chunk.uncompressedSize }, none)
    | some buffer =>
      if s.processedBytes < s.uncompressedSize then s.readRecord buffer
      else
        ({ s with chunkIter := s.chunkIter + 1, currentBuffer := none, processedBytes := 0 }, none)

def turnsLeft (bag : Bag) (s : Scan) : ℕ :=
  let turnsOf := fun ps : List ℕ =>
    (ps.map fun p => (bag.chunks[p]?).elim 0 Chunk.uncompressedSize + 2).sum
  match s.currentBuffer with
  | none => turnsOf (s.chunksToParse.drop s.chunkIter)
  | some _ =>
    s.uncompressedSize - s.processedBytes + 1 + turnsOf (s.chunksToParse.drop (s.chunkIter + 1))

/-- `readMessage` up to the message it finds, or the end of the chunks -/
def readMessage (bag : Bag) (codecs : Codecs) (s : Scan) :
    Scan × Except Fault (Option CurrentMessage) :=
  match iterate (turn bag codecs) (s.turnsLeft bag + 1) s with
  | (s, some result) => (s, result)
  | (s, none) => (s, .error .outOfFuel)

end Scan

namespace Bag

/-- `parseMsgDefForTopic`. Before C++17 the left side of its assignment may be evaluated first
(`leftFirst`), and then leaves a null pointer for the topic when parsing throws. -/
def parseMsgDefForTopic (leftFirst : Bool) (topic : Bytes) (bag : Bag) : Bag × Except Fault Unit :=
  match bag.topicConnectionMap.lookup topic with
  | none => (bag, .error (.runtimeError (bytes "Unable to find topic in bag: " ++ topic)))
  | some [] => (bag, .error (.runtimeError (bytes "No connection data for topic: " ++ topic)))
  | some (p :: _) =>
    match bag.connections[p]? with
    | none => (bag, .error .undefined)
    | some connection =>
      match parseMsgDef connection.data.messageDefinition connection.data.type with
      | .ok m => ({ bag with messageSchemata := bag.messageSchemata.insert topic (some m) }, .ok ())
      | .error e =>
        if leftFirst then
          ({ bag with messageSchemata := emplace bag.messageSchemata topic none }, .error e)
        else (bag, .error e)

def msgDefForTopic (leftFirst : Bool) (topic : Bytes) (bag : Bag) :
    Bag × Except Fault (Option MsgDef) :=
  match bag.messageSchemata.lookup topic with
  | some schema => (bag, .ok schema)
  | none =>
    match bag.parseMsgDefForTopic leftFirst topic with
    | (bag, .error e) => (bag, .error e)
    | (bag, .ok _) => (bag, .ok ((bag.messageSchemata.lookup topic).getD none))

end Bag

/-! ### Views and iterators -/

/-- What the code leaves to its libraries and its compiler. -/
structure Env where
  codecs : Codecs
  heap : Heap.Ops ℕ
  leftFirst : Bool

structure World where
  bags : List Bag
  wrappers : List BagWrapper := []

/-- `View`; the wrappers are kept under the pointers of their bags. -/
structure View where
  bags : List ℕ
  bagWrappers : AList fun _ : ℕ => ℕ := ∅

/-- `View::iterator`; the queue is a heap with the wrapper at its front that is next. -/
structure Iterator where
  msgQueue : List ℕ
  deriving DecidableEq, Repr

structure RosMessage where
  topic : Bytes
  timestamp : TimeValue
  md5 : Bytes
  rawBuffer : Option Bytes
  rawBufferOffset : ℕ
  rawDataLen : ℕ
  msgDef : Option MsgDef

def timestampCompare (left right : TimeValue) : Bool :=
  if left.secs > right.secs then true
  else if left.secs = right.secs ∧ left.nsecs > right.nsecs then true
  else false

namespace World

def timestamp (world : World) (p : ℕ) : TimeValue :=
  (world.wrappers[p]?).elim {} fun w => w.current.timestamp

def compare (world : World) (left right : ℕ) : Bool :=
  timestampCompare (world.timestamp left) (world.timestamp right)

/-- `readMessage` of a wrapper, which is pushed on the queue when a message is found. -/
def readMessage (env : Env) (p : ℕ) (queue : List ℕ) (world : World) :
    World × Except Fault (List ℕ) :=
  match world.wrappers[p]? with
  | none => (world, .error .undefined)
  | some wrapper =>
    match world.bags[wrapper.scan.bag]? with
    | none => (world, .error .undefined)
    | some bag =>
      match wrapper.scan.readMessage bag env.codecs with
      | (scan, .error e) =>
        ({ world with wrappers := world.wrappers.set p { wrapper with scan } }, .error e)
      | (scan, .ok none) =>
        ({ world with wrappers := world.wrappers.set p { wrapper with scan } }, .ok queue)
      | (scan, .ok (some current)) =>
        let world := { world with wrappers := world.wrappers.set p { scan, current } }
        (world, .ok (env.heap.push world.compare queue p))

/-- `wrapper->chunk_iter = wrapper->chunks_to_parse.begin()` -/
def resetIter (p : ℕ) (world : World) : World :=
  { world with wrappers := world.wrappers.modify p fun w => { w with scan.chunkIter := 0 } }

/-- The loop of `begin` over the wrappers of the view, in some order. -/
def beginLoop (env : Env) : List ℕ → List ℕ → World → World × Except Fault (List ℕ)
  | [], queue, world => (world, .ok queue)
  | p :: ps, queue, world =>
    match (world.resetIter p).readMessage env p queue with
    | (world, .error e) => (world, .error e)
    | (world, .ok queue) => world.beginLoop env ps queue

/-- `begin()`. The order of `bag_wrappers_` is up to its hash map. -/
def begin (env : Env) (order : List ℕ) (world : World) : World × Except Fault Iterator :=
  match world.beginLoop env order [] with
  | (world, .error e) => (world, .error e)
  | (world, .ok msgQueue) => (world, .ok { msgQueue })

end World

namespace Iterator

/-- Comparison with `end()`, whose queue is empty -/
def atEnd (it : Iterator) : Bool := it.msgQueue.length = 0

def deref (env : Env) (it : Iterator) (world : World) : World × Except Fault RosMessage :=
  match it.msgQueue with
  | [] => (world, .error .undefined)
  | p :: _ =>
    match world.wrappers[p]? with
    | none => (world, .error .undefined)
    | some wrapper =>
      match world.bags[wrapper.scan.bag]? with
      | none => (world, .error .undefined)
      | some bag =>
        match bag.connections[wrapper.current.connectionId]? with
        | none => (world, .error .undefined)
        | some connection =>
          match bag.msgDefForTopic env.leftFirst connection.topic with
          | (bag, .error e) =>
            ({ world with bags := world.bags.set wrapper.scan.bag bag }, .error e)
          | (bag, .ok msgDef) =>
            ({ world with bags := world.bags.set wrapper.scan.bag bag }, .ok {
              topic := connection.topic
              timestamp := wrapper.current.timestamp
              md5 := connection.data.md5sum
              rawBuffer := wrapper.current.messageBuffer
              rawBufferOffset := wrapper.current.messageDataOffset
              rawDataLen := wrapper.current.messageLen
              msgDef })

/-- `operator++`; the queue has lost its front also when reading on throws. -/
def advance (env : Env) (it : Iterator) (world : World) : (World × Iterator) × Except Fault Unit :=
  match it.msgQueue with
  | [] => ((world, it), .error .undefined)
  | p :: _ =>
    let queue := env.heap.pop world.compare it.msgQueue
    match world.readMessage env p queue with
    | (world, .error e) => ((world, { msgQueue := queue }), .error e)
    | (world, .ok queue) => ((world, { msgQueue := queue }), .ok ())

end Iterator

namespace View

/-- The wrapper `getMessages()` makes: all chunks, all connections. -/
def plainWrapper (p : ℕ) (bag : Bag) : BagWrapper where
  scan := {
    bag := p
    chunksToParse := bag.chunkSet (List.range bag.chunks.length)
    connectionIds := List.range bag.connections.length }

def selectedConnections (topics : List Bytes) (bag : Bag) : List ConnectionRecord :=
  topics.flatMap fun topic =>
    ((bag.topicConnectionMap.lookup topic).getD []).filterMap fun p => bag.connections[p]?

/-- The wrapper `getMessages(topics)` makes: the connections of the topics, and the chunks
their blocks lead to. -/
def topicsWrapper (topics : List Bytes) (p : ℕ) (bag : Bag) : BagWrapper where
  scan := {
    bag := p
    chunksToParse := bag.chunkSet
      ((selectedConnections topics bag).flatMap fun c => c.blocks.map IndexBlock.intoChunk)
    connectionIds := (selectedConnections topics bag).map ConnectionRecord.id }

/-- The overloads of `getMessages`: all messages, or those of some topics. -/
inductive Selection where
  | all
  | topics (topics : List Bytes)

def wrapper : Selection → ℕ → Bag → BagWrapper
  | .all => plainWrapper
  | .topics topics => topicsWrapper topics

def addWrapper (selection : Selection) (st : World × View) (p : ℕ) : World × View :=
  ({ st.1 with wrappers := st.1.wrappers ++ ((st.1.bags[p]?).map (wrapper selection p)).toList },
    { st.2 with bagWrappers := st.2.bagWrappers.insert p st.1.wrappers.length })

def getMessages (selection : Selection) (view : View) (world : World) : World × View :=
  view.bags.foldl (addWrapper selection) (world, { view with bagWrappers := ∅ })

def wrappers (view : View) : List ℕ := view.bagWrappers.entries.map Sigma.snd

def topics (view : View) (world : World) : List Bytes :=
  view.bags.foldl (fun topics b => topics ∪ (world.bags[b]?).elim [] Bag.topics) []

/-- What `connectionsByTopicMap` does with a connection of a bag: the count goes to the first
connection equal to it, and is a `size_t`. -/
def addConnection (new : ConnectionData) : List ConnectionData → List ConnectionData
  | [] => [new]
  | existing :: rest =>
    if existing.equal new then
      { existing with messageCount := (existing.messageCount + new.messageCount) % 2 ^ 64 } :: rest
    else existing :: addConnection new rest

/-- The turn of `connectionsByTopicMap` for a topic of a bag. -/
def addConnections (map : AList fun _ : Bytes => List ConnectionData) (topic : Bytes)
    (new : List ConnectionData) : AList fun _ : Bytes => List ConnectionData :=
  map.insert topic (new.foldl (fun conns c => addConnection c conns) ((map.lookup topic).getD []))

def connectionsByTopicMap (view : View) (world : World) : AList fun _ : Bytes => List ConnectionData :=
  view.bags.foldl
    (fun map b => ((world.bags[b]?).elim ∅ Bag.connectionsByTopicMap).entries.foldl
      (fun map item => addConnections map item.1 item.2) map) ∅

/-- The loop of `getStartTime` and of `getEndTime`, over a chunk of each bag. An empty vector has
neither a `front` nor a `back`. -/
def timeOverBags (view : View) (world : World) (pick : List Chunk → Option Chunk)
    (turn : TimeValue → Chunk → TimeValue) (time : TimeValue) : Except Fault TimeValue :=
  view.bags.foldlM (fun time b =>
    match (world.bags[b]?).bind fun bag => pick bag.chunks with
    | none => .error .undefined
    | some chunk => .ok (turn time chunk)) time

def earlier (startTime bagStart : TimeValue) : TimeValue :=
  if bagStart.secs < startTime.secs then bagStart
  else if bagStart.secs = startTime.secs ∧ bagStart.nsecs < startTime.nsecs then bagStart
  else startTime

def getStartTime (view : View) (world : World) : Except Fault TimeValue :=
  view.timeOverBags world List.head? (fun startTime chunk => earlier startTime chunk.info.startTime)
    ⟨4294967295, 4294967295⟩

def later (endTime bagEnd : TimeValue) : TimeValue :=
  if bagEnd.secs > endTime.secs then bagEnd
  else if bagEnd.secs = endTime.secs ∧ bagEnd.nsecs > endTime.nsecs then bagEnd
  else endTime

def getEndTime (view : View) (world : World) : Except Fault TimeValue :=
  view.timeOverBags world List.getLast? (fun endTime chunk => later endTime chunk.info.endTime) ⟨0, 0⟩

end View

end Embag
