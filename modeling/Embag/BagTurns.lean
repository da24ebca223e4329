import Embag.BagRecords

/-! What one turn of each loop of `readRecords` does where the record it reads was written. -/

namespace Embag

open LittleEndian

section Turns

variable {bag : Bag} {s : Stream} (i : ℕ)

/-- `find_first_of` and `substr` cut the type at its first slash. -/
theorem scopeOf_eq (type : Bytes) : Bag.scopeOf type = (beforeSlash type).getD [] := by
  rw [Bag.scopeOf]
  split_ifs with hslash
  · rcases hbefore : beforeSlash type with _ | scope
    · exact absurd hslash (beforeSlash_eq_none_iff.1 hbefore)
    · obtain ⟨hscope, rest, rfl⟩ := beforeSlash_eq_some_iff.1 hbefore
      rw [Option.getD_some, List.takeWhile_append_of_pos]
      · simp
      · intro c hc
        rw [bne_iff_ne]
        rintro rfl
        exact hscope hc
  · rw [beforeSlash_eq_none_iff.2 hslash, Option.getD_none]

theorem FileConnection.connectionData_toHeader (c : FileConnection) :
    Bag.connectionData c.topic c.fields.toHeader = .ok (c.data 0) := by
  have hhas := c.fieldsHas
  simp only [List.cons_subset, List.nil_subset, and_true] at hhas
  obtain ⟨htype, hmd5, hdefinition⟩ := hhas
  have hlatching : decide ((c.latching.map fun l => if l then bytes "1" else bytes "0") =
      some (bytes "1")) = c.latching.getD false := by
    cases c.latching with
    | none => rfl
    | some l => cases l <;> rfl
  simp only [Bag.connectionData, Header.getField_of_lookup (FieldList.lookup_toHeader htype),
    Header.getField_of_lookup (FieldList.lookup_toHeader hmd5),
    Header.getField_of_lookup (FieldList.lookup_toHeader hdefinition), ok_bind,
    FieldList.lookup_toHeader_optional c.hasCallerid,
    FieldList.lookup_toHeader_optional c.hasLatching, hlatching, scopeOf_eq]
  rfl

theorem readConnection_of_occursAt {c : FileConnection} (hs : s.failed = false)
    (hbytes : bag.bagBytes = s.bytes) (h : OccursAt c.record.encode s.bytes s.pos)
    {old : ConnectionRecord} (hold : bag.connections[c.id]? = some old) :
    Bag.readConnection i (bag, s) = .ok ({ bag with
      connections := bag.connections.set c.id
        { old with id := c.id, topic := c.topic, data := c.data 0 }
      topicConnectionMap := Bag.pushConnection bag.topicConnectionMap c.topic c.id },
      { s with pos := s.pos + c.record.encode.length }) := by
  have hhas := c.headerHas
  simp only [List.cons_subset, List.nil_subset, and_true] at hhas
  obtain ⟨-, hconn, htopic⟩ := hhas
  have hheader : Bag.readHeader s.bytes (c.record.toRecord s.pos) = .ok c.header.toHeader :=
    FileRecord.readHeader_of_occursAt h
  simp only [Bag.readConnection, FileRecord.readRecord_of_occursAt hs h, hbytes,
    hheader, ok_bind,
    Header.getUInt_of_lookup (show c.id < 256 ^ 4 from c.idFits) (FieldList.lookup_toHeader hconn),
    Header.getField_of_lookup (FieldList.lookup_toHeader htopic), if_neg c.topic_ne,
    FileRecord.readData_of_occursAt rfl h,
    c.connectionData_toHeader, hold]
  rfl

theorem readChunkInfo_of_occursAt {x : FileChunkInfo} (hs : s.failed = false)
    (hbytes : bag.bagBytes = s.bytes) (h : OccursAt x.record.encode s.bytes s.pos) :
    Bag.readChunkInfo i (bag, s) = .ok ({ bag with chunkInfos := bag.chunkInfos ++ [x.toInfo 0] },
      { s with pos := s.pos + x.record.encode.length }) := by
  have hhas := x.has
  simp only [List.cons_subset, List.nil_subset, and_true] at hhas
  obtain ⟨-, hver, hpos, hstart, hend, hcount⟩ := hhas
  simp only [Bag.readChunkInfo, FileRecord.readRecord_of_occursAt hs h, hbytes,
    FileRecord.readHeader_of_occursAt h, ok_bind,
    Header.getUInt_of_lookup (show 1 < 256 ^ 4 by norm_num) (FieldList.lookup_toHeader hver),
    Header.getUInt_of_lookup (show x.position < 256 ^ 8 from x.positionFits)
      (FieldList.lookup_toHeader hpos),
    Header.getTime_of_lookup (FieldList.lookup_toHeader hstart),
    Header.getTime_of_lookup (FieldList.lookup_toHeader hend),
    Header.getUInt_of_lookup (show x.count < 256 ^ 4 from x.countFits)
      (FieldList.lookup_toHeader hcount)]
  rfl

theorem readIndexData_of_occursAt (j : ℕ) {x : FileIndex} (hs : s.failed = false)
    (hbytes : bag.bagBytes = s.bytes) (h : OccursAt x.record.encode s.bytes s.pos)
    (hid : x.connection < bag.connections.length) :
    Bag.readIndexData i j (bag, s) = .ok ({ bag with
      chunkInfos := bag.chunkInfos.modify i (ChunkInfo.addMessages x.count)
      connections := bag.connections.modify x.connection
        (ConnectionRecord.addBlock i x.count) },
      { s with pos := s.pos + x.record.encode.length }) := by
  have hhas := x.has
  simp only [List.cons_subset, List.nil_subset, and_true] at hhas
  obtain ⟨-, hver, hconn, hcount⟩ := hhas
  simp only [Bag.readIndexData, FileRecord.readRecord_of_occursAt hs h, hbytes,
    FileRecord.readHeader_of_occursAt h, ok_bind,
    Header.getUInt_of_lookup (show 1 < 256 ^ 4 by norm_num) (FieldList.lookup_toHeader hver),
    Header.getUInt_of_lookup (show x.connection < 256 ^ 4 from x.connectionFits)
      (FieldList.lookup_toHeader hconn),
    Header.getUInt_of_lookup (show x.count < 256 ^ 4 from x.countFits)
      (FieldList.lookup_toHeader hcount), if_pos hid]
  rfl

end Turns

end Embag
