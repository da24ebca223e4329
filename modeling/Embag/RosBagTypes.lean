import Embag.RosMsgTypes

/-! The records of a bag and what is kept of them. A pointer into the bytes of the bag is
an offset from their start, one to a connection or a chunk an index. -/

namespace Embag

open LittleEndian

structure Record where
  headerLen : ℕ
  header : ℤ
  dataLen : ℕ
  data : ℤ
  deriving DecidableEq, Repr

structure ConnectionData where
  topic : Bytes := []
  type : Bytes := []
  scope : Bytes := []
  md5sum : Bytes := []
  messageDefinition : Bytes := []
  callerid : Bytes := []
  latching : Bool := false
  messageCount : ℕ := 0
  deriving DecidableEq, Repr

/-- `connection_data_t::operator==`, which looks at neither the definition nor the count -/
def ConnectionData.equal (left right : ConnectionData) : Bool :=
  right.topic = left.topic && right.type = left.type && right.md5sum = left.md5sum &&
    right.callerid = left.callerid && right.latching = left.latching

structure ChunkInfo where
  chunkPos : ℕ
  startTime : TimeValue
  endTime : TimeValue
  messageCount : ℕ := 0
  connectionCount : ℕ := 0
  deriving DecidableEq, Repr

structure Chunk where
  offset : ℕ := 0
  info : ChunkInfo
  compression : Bytes
  uncompressedSize : ℕ := 0
  record : Record
  deriving DecidableEq, Repr

structure IndexBlock where
  intoChunk : ℕ
  deriving DecidableEq, Repr

structure ConnectionRecord where
  id : ℕ := 0
  blocks : List IndexBlock := []
  topic : Bytes := []
  data : ConnectionData := {}
  deriving DecidableEq, Repr

/-- `message_count += msg_count` in a `uint32_t` -/
def ChunkInfo.addMessages (n : ℕ) (info : ChunkInfo) : ChunkInfo :=
  { info with messageCount := (info.messageCount + n) % 2 ^ 32 }

/-- What an INDEX_DATA record adds to its connection; the count is a `size_t`. -/
def ConnectionRecord.addBlock (chunk n : ℕ) (connection : ConnectionRecord) : ConnectionRecord :=
  { connection with
    blocks := connection.blocks ++ [⟨chunk⟩]
    data.messageCount := (connection.data.messageCount + n) % 2 ^ 64 }

/-- `header_t`: the fields of a record's header by name -/
abbrev Header := AList fun _ : Bytes => Bytes

namespace Header

/-- `fields->at(name)`, which is also `getField` into a string -/
def getField (header : Header) (name : Bytes) : Except Fault Bytes :=
  match header.lookup name with
  | some value => .ok value
  | none => .error (.outOfRange (bytes "unordered_map::at"))

/-- `header_t::op` of the first character of `op`, which is the 0 behind an empty value. -/
def getOp (header : Header) : Except Fault ℤ := do
  let value ← header.getField (bytes "op")
  let op ← readRaw (value ++ [0]) 0 1
  return Int.bmod (ofLE op) 256

/-- `getField` into an unsigned number of `w` bytes, which is read from the characters of
the value and the 0 behind them. -/
def getUInt (header : Header) (w : ℕ) (name : Bytes) : Except Fault ℕ := do
  let value ← header.getField name
  readWord w (value ++ [0]) 0

def getTime (header : Header) (name : Bytes) : Except Fault TimeValue := do
  let value ← header.getField name
  return .ofBytes (← readRaw (value ++ [0]) 0 8)

section Get

variable {header : Header} {name value : Bytes}

theorem getField_of_lookup (h : header.lookup name = some value) : header.getField name = .ok value := by
  rw [getField, h]

theorem occursAt_terminated (value : Bytes) : OccursAt value (value ++ [0]) 0 :=
  occursAt_of_append [] value [0]

theorem getUInt_of_lookup {w n : ℕ} (hn : n < 256 ^ w) (h : header.lookup name = some (le w n)) :
    header.getUInt w name = .ok n := by
  rw [getUInt, getField_of_lookup h, ok_bind]
  exact readWord_of_occursAt hn (occursAt_terminated _)

theorem getTime_of_lookup {t : TimeValue}
    (h : header.lookup name = some (le 4 t.secs.toNat ++ le 4 t.nsecs.toNat)) :
    header.getTime name = .ok t := by
  have hread := readRaw_of_occursAt (occursAt_terminated (le 4 t.secs.toNat ++ le 4 t.nsecs.toNat))
  rw [List.length_append, length_le, length_le] at hread
  rw [getTime, getField_of_lookup h, ok_bind, hread, ok_bind, TimeValue.ofBytes_le]
  rfl

end Get

end Header

end Embag
