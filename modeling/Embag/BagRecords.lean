import Embag.BagFile

/-! Records read back from where they were written: their fields, whatever the order, and
the positions of their header and data. -/

namespace Embag

open LittleEndian

section Insert

variable {fs : List Field} {map : Header} {name value : Bytes}

theorem lookup_foldl_insert_of_notMem (h : name ∉ fs.map Prod.fst) :
    (fs.foldl (fun map f => map.insert f.1 f.2) map).lookup name = map.lookup name := by
  induction fs generalizing map with
  | nil => rfl
  | cons f fs ih =>
    rw [List.map_cons, List.mem_cons, not_or] at h
    rw [List.foldl_cons, ih h.2, AList.lookup_insert_ne h.1]

theorem lookup_foldl_insert (hnd : (fs.map Prod.fst).Nodup) (h : (name, value) ∈ fs) :
    (fs.foldl (fun map f => map.insert f.1 f.2) map).lookup name = some value := by
  induction fs generalizing map with
  | nil => cases h
  | cons f fs ih =>
    rw [List.map_cons, List.nodup_cons] at hnd
    rw [List.foldl_cons]
    rcases List.mem_cons.1 h with rfl | h
    · rw [lookup_foldl_insert_of_notMem hnd.1, AList.lookup_insert]
    · exact ih hnd.2 h

end Insert

namespace FieldList

variable {l : FieldList} {name value : Bytes}

theorem lookup_toHeader (h : (name, value) ∈ l.fields) : l.toHeader.lookup name = some value :=
  lookup_foldl_insert l.distinct h

theorem lookup_toHeader_optional {value : Option Bytes} (h : l.Optional name value) :
    l.toHeader.lookup name = value := by
  cases value with
  | none => exact (lookup_foldl_insert_of_notMem h).trans (AList.lookup_empty _)
  | some value => exact lookup_toHeader h

end FieldList

theorem length_encodeField (f : Field) :
    (encodeField f).length = 4 + (f.1.length + 1 + f.2.length) := by
  simp only [encodeField, List.length_append, List.length_cons, length_le]
  omega

theorem readPointer_of_occursAt {memory x : Bytes} {p : ℕ} (h : OccursAt x memory p) :
    readPointer memory p x.length = .ok x := by
  rw [readPointer, if_neg (by omega), Int.toNat_natCast, readRaw_of_occursAt h]

theorem fieldsLoop_cons {memory : Bytes} {finish : ℤ} {fuel p : ℕ} {map : Header} {f : Field}
    (hfinish : (p : ℤ) < finish) (hplain : 61 ∉ f.1) (hfits : (encodeField f).length < 2 ^ 32)
    (h : OccursAt (encodeField f) memory p) :
    Bag.fieldsLoop memory finish (fuel + 1) p map =
      Bag.fieldsLoop memory finish fuel ((p + (encodeField f).length : ℕ) : ℤ)
        (map.insert f.1 f.2) := by
  rw [length_encodeField] at hfits
  have hlen := readPointer_of_occursAt h.left
  have hright := h.right
  rw [length_le] at hlen hright
  have hbuffer := readPointer_of_occursAt hright
  rw [List.length_append, List.length_cons, ← Nat.add_assoc, Nat.add_right_comm] at hbuffer
  have hword : ofLE (le 4 (f.1.length + 1 + f.2.length)) = f.1.length + 1 + f.2.length :=
    ofLE_le (by norm_num; omega)
  have hne : ∀ c ∈ f.1, (c != '='.toUInt8) = true := by
    intro c hc
    refine bne_iff_ne.2 fun he => hplain ?_
    rw [← show c = 61 from he]
    exact hc
  rw [Bag.fieldsLoop, if_pos hfinish]
  simp only [hlen, ok_bind, hword]
  rw [show (p : ℤ) + 4 = ((p + 4 : ℕ) : ℤ) by push_cast; rfl, hbuffer]
  simp only [ok_bind, List.dropWhile_append_of_pos hne, List.takeWhile_append_of_pos hne]
  rw [List.dropWhile_cons_of_neg (by decide), List.takeWhile_cons_of_neg (by decide),
    List.append_nil, length_encodeField]
  simp only
  congr 1
  push_cast
  ring

theorem fieldsLoop_encodeFields {memory : Bytes} {fs : List Field} {fuel p : ℕ} {map : Header}
    (hplain : ∀ f ∈ fs, 61 ∉ f.1) (hfits : (encodeFields fs).length < 2 ^ 32)
    (hfuel : fs.length ≤ fuel) (h : OccursAt (encodeFields fs) memory p) :
    Bag.fieldsLoop memory (p + (encodeFields fs).length) fuel p map =
      .ok (fs.foldl (fun map f => map.insert f.1 f.2) map) := by
  induction fs generalizing fuel p map with
  | nil =>
    have hend : ¬ (p : ℤ) < p + (encodeFields []).length := by simp [encodeFields]
    cases fuel <;> rw [Bag.fieldsLoop, if_neg hend] <;> rfl
  | cons f fs ih =>
    rw [List.forall_mem_cons] at hplain
    have henc : encodeFields (f :: fs) = encodeField f ++ encodeFields fs := rfl
    rw [henc, List.length_append] at hfits
    rw [henc] at h
    have hpos := length_encodeField f
    obtain ⟨fuel, rfl⟩ : ∃ k, fuel = k + 1 := ⟨fuel - 1, by rw [List.length_cons] at hfuel; omega⟩
    have hfinish : (p : ℤ) < p + (encodeFields (f :: fs)).length := by
      rw [henc, List.length_append]
      omega
    rw [fieldsLoop_cons hfinish hplain.1 (by omega) h.left, henc, List.length_append]
    have hstep := @ih fuel (p + (encodeField f).length) (map.insert f.1 f.2) hplain.2 (by omega)
      (by rw [List.length_cons] at hfuel; omega) h.right
    rw [List.foldl_cons, ← hstep]
    congr 1
    push_cast
    ring

theorem length_le_encodeFields (fs : List Field) : fs.length ≤ (encodeFields fs).length := by
  induction fs with
  | nil => exact Nat.zero_le _
  | cons f fs ih =>
    have hf := length_encodeField f
    have henc : encodeFields (f :: fs) = encodeField f ++ encodeFields fs := rfl
    rw [henc, List.length_append, List.length_cons]
    omega

theorem readFields_of_occursAt {memory : Bytes} {l : FieldList} {p : ℕ}
    (h : OccursAt l.encode memory p) :
    Bag.readFields memory p l.encode.length = .ok l.toHeader :=
  fieldsLoop_encodeFields l.plain l.fits (length_le_encodeFields _) h

namespace FileRecord

variable {r : FileRecord} {s : Stream}

theorem length_encode (r : FileRecord) :
    r.encode.length = 8 + r.header.encode.length + r.data.length := by
  simp only [encode, List.length_append, length_le]
  omega

/-- Reading a record moves the stream behind it. -/
theorem readRecord_of_occursAt (hs : s.failed = false) (h : OccursAt r.encode s.bytes s.pos) :
    Bag.readRecord s = (r.toRecord s.pos, { s with pos := s.pos + r.encode.length }) := by
  have hlen := h.left
  have hheader := h.right.left
  have hdataLen := h.right.right.left
  have hdata := h.right.right.right
  rw [length_le] at hheader hdataLen hdata
  rw [length_le] at hdata
  have hheaderEnd := hheader.add_length_le
  have hdataEnd := hdata.add_length_le
  have hfits : r.header.encode.length < 2 ^ 32 := r.header.fits
  have hread := s.readUInt32_of_occursAt hs hfits hlen
  have hskip := Stream.seekCur_of_le (s := { s with pos := s.pos + 4 }) hs hheaderEnd
  have hread' := Stream.readUInt32_of_occursAt
    (s := { s with pos := s.pos + 4 + r.header.encode.length }) hs r.fits hdataLen
  have hskip' := Stream.seekCur_of_le
    (s := { s with pos := s.pos + 4 + r.header.encode.length + 4 }) hs hdataEnd
  have htell := Stream.tellg_of_good (s := { s with pos := s.pos + 4 }) hs
  have htell' := Stream.tellg_of_good
    (s := { s with pos := s.pos + 4 + r.header.encode.length + 4 }) hs
  rw [Bag.readRecord, hread]
  simp only [hskip]
  rw [hread']
  simp only [hskip', htell, htell', toRecord, length_encode]
  refine Prod.ext ?_ ?_
  · simp only [Record.mk.injEq, true_and]
    refine ⟨by push_cast; rfl, by push_cast; ring⟩
  · simp only [Stream.mk.injEq, true_and, and_true]
    ring

theorem readHeader_of_occursAt {memory : Bytes} {p : ℕ} (h : OccursAt r.encode memory p) :
    Bag.readHeader memory (r.toRecord p) = .ok r.header.toHeader := by
  have hheader := h.right.left
  rw [length_le] at hheader
  exact readFields_of_occursAt hheader

theorem readData_of_occursAt {l : FieldList} {memory : Bytes} {p : ℕ} (hl : r.data = l.encode)
    (h : OccursAt r.encode memory p) :
    Bag.readFields memory (r.toRecord p).data (r.toRecord p).dataLen = .ok l.toHeader := by
  have hdata := h.right.right.right
  rw [length_le, length_le, hl] at hdata
  have hread := readFields_of_occursAt hdata
  rw [toRecord, hl]
  convert hread using 2
  push_cast
  ring

end FileRecord

end Embag
