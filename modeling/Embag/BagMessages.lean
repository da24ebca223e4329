import Embag.BagContents
import Embag.ViewScan

/-! Reading the records of a chunk: it gives the messages one after the other, unless the last
record has no data, whose address is then asked for behind the end of the chunk. -/

namespace Embag

open LittleEndian

section Record

variable {buffer : Bytes} {p : ℕ}

theorem scanRecord_of_occursAt {r : FileRecord} (hne : r.header.encode ≠ [])
    (h : OccursAt r.encode buffer p) :
    scanRecord buffer p = if p + 8 + r.header.encode.length < buffer.length
      then (p + r.encode.length, .ok (r.toRecord p))
      else (p + 8 + r.header.encode.length, .error (.outOfRange (bytes "vector::at"))) := by
  have hlen := h.left
  have hheader := h.right.left
  have hdataLen := h.right.right.left
  rw [length_le] at hheader hdataLen
  have hword : readWord 4 buffer p = .ok r.header.encode.length := readWord_of_occursAt r.header.fits hlen
  have hword' : readWord 4 buffer (p + 4 + r.header.encode.length) = .ok r.data.length :=
    readWord_of_occursAt r.fits hdataLen
  have hnil : ∀ n, le 4 n ≠ [] := le_ne_nil (by decide)
  rw [scanRecord]
  simp only [atIndex_of_occursAt (hnil _) hlen, ok_bind, hword, atIndex_of_occursAt hne hheader,
    atIndex_of_occursAt (hnil _) hdataLen, hword']
  rw [show p + 4 + r.header.encode.length + 4 = p + 8 + r.header.encode.length by omega, atIndex]
  split_ifs
  · simp only [FileRecord.toRecord, FileRecord.length_encode, Prod.mk.injEq, Except.ok.injEq,
      Record.mk.injEq, true_and]
    refine ⟨by omega, by push_cast; rfl, by push_cast; rfl⟩
  · rfl

theorem encode_ne_nil {l : FieldList} (h : l.fields ≠ []) : l.encode ≠ [] := by
  obtain ⟨f, fs, hfs⟩ := List.exists_cons_of_ne_nil h
  intro hnil
  have hlen := congrArg List.length hnil
  have hf := length_encodeField f
  rw [FieldList.encode, hfs, encodeFields, List.flatMap_cons, List.length_append, List.length_nil] at hlen
  omega

theorem FileConnection.eight_le_data (c : FileConnection) : 8 ≤ c.fields.encode.length := by
  have hhas := c.fieldsHas
  simp only [List.cons_subset, List.nil_subset, and_true] at hhas
  obtain ⟨hs, ht, heq⟩ := List.append_of_mem hhas.1
  have hf := length_encodeField (bytes "type", c.type)
  have htype : (bytes "type").length = 4 := rfl
  rw [FieldList.encode, heq, encodeFields, List.flatMap_append, List.flatMap_cons, List.length_append,
    List.length_append]
  simp only at hf
  omega

namespace ChunkRecord

theorem header_ne_nil (r : ChunkRecord) : r.record.header.encode ≠ [] := by
  apply encode_ne_nil
  cases r with
  | message r =>
    intro hnil
    have hperm := r.headerHas.length_eq
    rw [show r.header.fields = [] from hnil] at hperm
    simp at hperm
  | connection c h =>
    intro hnil
    have hperm := h.length_eq
    rw [show c.header.fields = [] from hnil] at hperm
    simp at hperm

theorem length_encode (r : ChunkRecord) :
    r.encode.length = 8 + r.record.header.encode.length + r.record.data.length :=
  r.record.length_encode

structure HeaderRead (r : ChunkRecord) (header : MessageHeader) : Prop where
  connectionId : header.connectionId = r.connectionId
  kind : (∃ m, r = .message m ∧ header.op = 2 ∧ header.timestamp = m.time) ∨
    (∃ c h, r = .connection c h) ∧ header.op = 7

theorem exists_header (r : ChunkRecord) (h : OccursAt r.encode buffer p) :
    ∃ header, readMessageHeader buffer (r.record.toRecord p) = .ok header ∧ r.HeaderRead header := by
  have hheader := h.right.left
  rw [length_le] at hheader
  have hroom := h.add_length_le
  rw [r.length_encode] at hroom
  have hfits := r.record.header.fits
  have hfuel : r.record.header.fields.length ≤ r.record.header.encode.length := length_le_encodeFields _
  have hread : ∀ k third t, IsThird t third → r.connectionId < 2 ^ 32 →
      r.record.header.fields.Perm [(bytes "op", [k]), (bytes "conn", le 4 r.connectionId), third] →
      (8 ≤ r.record.data.length ∨ third.1 ≠ bytes "topic") →
      ∃ header, readMessageHeader buffer (r.record.toRecord p) = .ok header ∧
        header.connectionId = r.connectionId ∧ header.op = Int.bmod (UInt8.toNat k) 256 ∧
        (third.1 = bytes "time" → header.timestamp = t) := by
    intro k third t hthird hid hperm hdata
    obtain ⟨header, hsets, hloop⟩ := exists_messageHeaderLoop {} hid hthird
      (fun f hf => hperm.mem_iff.1 hf) hfits hfuel hheader (hdata.imp_left fun hdata => by
        have hlen : (encodeFields r.record.header.fields).length = r.record.header.encode.length := rfl
        omega)
    refine ⟨header, hloop, ?_, ?_, fun hname => ?_⟩
    · rw [hsets.conn, if_pos (hperm.mem_iff.2 (by simp))]
    · rw [hsets.op, if_pos (hperm.mem_iff.2 (by simp))]
    · rw [hsets.time hname, if_pos (hperm.mem_iff.2 (by simp))]
  cases r with
  | message m =>
    obtain ⟨header, hok, hid, hop, htime⟩ := hread 2 _ m.time .time m.connectionFits m.headerHas
      (.inr (show bytes "time" ≠ bytes "topic" by decide))
    exact ⟨header, hok, hid, .inl ⟨m, rfl, hop.trans (by decide), htime rfl⟩⟩
  | connection c hperm =>
    obtain ⟨header, hok, hid, hop, -⟩ := hread 7 _ {} (.topic c.topic) c.idFits hperm
      (.inl c.eight_le_data)
    exact ⟨header, hok, hid, .inr ⟨⟨c, hperm, rfl⟩, hop.trans (by decide)⟩⟩

end ChunkRecord

end Record

namespace ChunkRecord

variable {buffer : Bytes}

structure IsRead (buffer : Bytes) (r : MessageRecord) (c : CurrentMessage) : Prop where
  connectionId : c.connectionId = r.connection
  timestamp : c.timestamp = r.time
  messageBuffer : c.messageBuffer = some buffer
  data : sliceAt buffer c.messageDataOffset c.messageLen = some r.data

/-- The last record has data, whose address is then inside of the chunk. -/
def EndsInData (rs : List ChunkRecord) : Prop := ∀ r, rs.getLast? = some r → r.record.data ≠ []

theorem encodeAll_cons (r : ChunkRecord) (rs : List ChunkRecord) :
    encodeAll (r :: rs) = r.encode ++ encodeAll rs := rfl

theorem encodeAll_append (rs rs' : List ChunkRecord) :
    encodeAll (rs ++ rs') = encodeAll rs ++ encodeAll rs' := List.flatMap_append

theorem data_lt_iff (done : List ChunkRecord) {rest : List ChunkRecord} {r : ChunkRecord} :
    (encodeAll done).length + 8 + r.record.header.encode.length <
        (encodeAll (done ++ r :: rest)).length ↔ r.record.data ≠ [] ∨ rest ≠ [] := by
  have hr := r.length_encode
  rw [encodeAll_append, encodeAll_cons, List.length_append, List.length_append]
  cases rest with
  | nil =>
    have hnil : (encodeAll ([] : List ChunkRecord)).length = 0 := rfl
    rw [← List.length_pos_iff]
    simp only [ne_eq, not_true_eq_false, or_false]
    omega
  | cons r' rest =>
    have hr' := r'.length_encode
    rw [encodeAll_cons, List.length_append]
    simp only [ne_eq, reduceCtorEq, not_false_eq_true, or_true, iff_true]
    omega

section Chunk

variable {done rest : List ChunkRecord} {r : ChunkRecord}

theorem occursAt_record (hbuffer : buffer = encodeAll (done ++ r :: rest)) :
    OccursAt r.record.encode buffer (encodeAll done).length := by
  rw [hbuffer, encodeAll_append, encodeAll_cons, ← List.append_assoc]
  exact occursAt_of_append _ _ _

theorem scanRecord_record (hbuffer : buffer = encodeAll (done ++ r :: rest))
    (hdata : r.record.data ≠ [] ∨ rest ≠ []) :
    scanRecord buffer (encodeAll done).length =
      ((encodeAll (done ++ [r])).length, .ok (r.record.toRecord (encodeAll done).length)) := by
  have hlt := (data_lt_iff done).2 hdata
  rw [← hbuffer] at hlt
  have hone : encodeAll [r] = r.record.encode := List.append_nil _
  rw [scanRecord_of_occursAt r.header_ne_nil (occursAt_record hbuffer), if_pos hlt, encodeAll_append,
    hone, List.length_append]

theorem length_lt (done : List ChunkRecord) (hbuffer : buffer = encodeAll (done ++ r :: rest)) :
    (encodeAll done).length < buffer.length := by
  have hr := r.length_encode
  rw [hbuffer, encodeAll_append, encodeAll_cons, List.length_append, List.length_append]
  omega

theorem HeaderRead.isRead {header : MessageHeader} (hbuffer : buffer = encodeAll (done ++ r :: rest))
    (h : r.HeaderRead header) : (header.op = 2 ∨ header.op = 7) ∧
      List.Forall₂ (IsRead buffer) r.message?.toList
        ((r.record.toRecord (encodeAll done).length).messages buffer header) := by
  rcases h.kind with ⟨m, rfl, hop, htime⟩ | ⟨⟨c, hc, rfl⟩, hop⟩
  · refine ⟨.inl hop, ?_⟩
    rw [Record.messages, if_pos hop]
    refine .cons ⟨h.connectionId, htime, rfl, ?_⟩ .nil
    have hdata := (occursAt_record hbuffer).right.right.right
    rw [length_le, length_le] at hdata
    have hslice := sliceAt_of_occursAt hdata
    rw [show (encodeAll done).length + 4 + (ChunkRecord.message m).record.header.encode.length + 4 =
      ((encodeAll done).length + 8 + (ChunkRecord.message m).record.header.encode.length) by omega]
      at hslice
    exact hslice
  · refine ⟨.inr hop, ?_⟩
    rw [Record.messages, if_neg (by rw [hop]; decide)]
    exact .nil

/-- Every record is read where the last one has data. -/
theorem exists_chunkMessages (done : List ChunkRecord) (hbuffer : buffer = encodeAll (done ++ rest))
    (hend : EndsInData rest) :
    ∃ ms, ChunkMessages buffer buffer.length (encodeAll done).length ms ∧
      List.Forall₂ (IsRead buffer) (rest.filterMap message?) ms := by
  induction rest generalizing done with
  | nil =>
    rw [List.append_nil] at hbuffer
    exact ⟨[], .nil (by rw [hbuffer]), .nil⟩
  | cons r rest ih =>
    have hdata : r.record.data ≠ [] ∨ rest ≠ [] := by
      by_cases hrest : rest = []
      · subst hrest
        exact .inl (hend r rfl)
      · exact .inr hrest
    obtain ⟨header, hheader, hread⟩ := r.exists_header (occursAt_record hbuffer)
    obtain ⟨hop, hfound⟩ := hread.isRead hbuffer
    obtain ⟨ms, hms, hshown⟩ := ih (done ++ [r]) (by rw [hbuffer, List.append_assoc]; rfl)
      (fun r' hr' => hend r' (by
        obtain ⟨r'', rest', rfl⟩ : ∃ r'' rest', rest = r'' :: rest' := by
          cases rest with
          | nil => simp at hr'
          | cons r'' rest' => exact ⟨r'', rest', rfl⟩
        rwa [List.getLast?_cons_cons]))
    refine ⟨_, .cons (length_lt done hbuffer) (scanRecord_record hbuffer hdata) hheader hop hms, ?_⟩
    have hsplit : (r :: rest).filterMap message? = r.message?.toList ++ rest.filterMap message? := by
      rw [List.filterMap_cons]
      cases r.message? <;> rfl
    rw [hsplit]
    exact List.rel_append hfound hshown

/-- The chunk cannot be read where the last record has no data. -/
theorem not_chunkMessages (done : List ChunkRecord) (hbuffer : buffer = encodeAll (done ++ rest))
    (hend : ¬ EndsInData rest) (ms : List CurrentMessage) : ¬ ChunkMessages buffer buffer.length (encodeAll done).length ms := by
  induction rest generalizing done ms with
  | nil => exact absurd (fun r hr => by simp at hr) hend
  | cons r rest ih =>
    rw [chunkMessages_cons_iff (length_lt done hbuffer)]
    rintro ⟨p', record, header, ms', hscan, -, -, -, hms'⟩
    by_cases hdata : r.record.data ≠ [] ∨ rest ≠ []
    · rw [scanRecord_record hbuffer hdata] at hscan
      cases hscan
      refine ih (done ++ [r]) (by rw [hbuffer, List.append_assoc]; rfl) (fun hrest => hend ?_)
        ms' hms'
      intro r' hr'
      cases rest with
      | nil =>
        have heq : r = r' := by simpa using hr'
        subst heq
        simpa using hdata
      | cons r'' rest' =>
        rw [List.getLast?_cons_cons] at hr'
        exact hrest r' hr'
    · have hlt := mt (data_lt_iff done).1 hdata
      rw [← hbuffer] at hlt
      rw [scanRecord_of_occursAt r.header_ne_nil (occursAt_record hbuffer), if_neg hlt] at hscan
      cases hscan

end Chunk

end ChunkRecord

end Embag
