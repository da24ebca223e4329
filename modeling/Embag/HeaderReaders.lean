import Embag.HeaderFields
import Embag.ViewRanges

/-! The fast reader of a record's header beside the one that makes a map. It knows a field by
the first character of its name, and takes the value from behind the first `=`, whatever the
length of the field. -/

namespace Embag

open LittleEndian

section Missing

variable {raws : List Bytes} {pre post memory : Bytes}

theorem exists_front_of_missing (h : ∃ raw ∈ raws, '='.toUInt8 ∉ raw) :
    ∃ front raw back, raws = front ++ raw :: back ∧ (∀ raw ∈ front, '='.toUInt8 ∈ raw) ∧
      '='.toUInt8 ∉ raw := by
  have hsome : (raws.find? fun raw => !raw.contains '='.toUInt8).isSome := by
    rw [List.find?_isSome]
    obtain ⟨raw, hraw, hmissing⟩ := h
    exact ⟨raw, hraw, by simpa using hmissing⟩
  obtain ⟨raw, hfind⟩ := Option.isSome_iff_exists.1 hsome
  obtain ⟨hmissing, front, back, hraws, hfront⟩ := List.find?_eq_some_iff_append.1 hfind
  refine ⟨front, raw, back, hraws, ?_, by simpa using hmissing⟩
  intro raw' hraw'
  simpa using hfront raw' hraw'

theorem encodeRaws_append_cons (front back : List Bytes) (raw : Bytes) :
    encodeRaws (front ++ raw :: back) = encodeRaws front ++ (encodeRaw raw ++ encodeRaws back) := by
  rw [encodeRaws, List.flatMap_append, List.flatMap_cons]
  rfl

theorem readFields_encodeRaws_of_missing (hfits : ∀ raw ∈ raws, raw.length < 2 ^ 32)
    (h : ∃ raw ∈ raws, '='.toUInt8 ∉ raw) :
    Bag.readFields (pre ++ encodeRaws raws ++ post) pre.length (encodeRaws raws).length =
      .error missingSeparator := by
  obtain ⟨front, raw, back, rfl, hfront, hmissing⟩ := exists_front_of_missing h
  rw [List.forall_mem_append, List.forall_mem_cons] at hfits
  exact readFields_of_missing ⟨rfl, hfits.1, hfront⟩ hfits.2.1 hmissing
    (encodeRaws_append_cons front back raw) (occursAt_of_append pre _ post)

theorem readMessageHeader_ne_thrown {record : Record} {e : Fault} (he : e.thrown = true) :
    readMessageHeader memory record ≠ .error e := by
  intro h
  rw [readMessageHeader_error h] at he
  cases he

end Missing

/-- The fast reader throws for no field without a `=`, where the other one always does: what it
compares with a null pointer lies one behind what `strstr` returned. -/
theorem readMessageHeader_ne_missingSeparator (pre post : Bytes) (raws : List Bytes) (dataLen : ℕ)
    (data : ℤ) (hfits : ∀ raw ∈ raws, raw.length < 2 ^ 32) (h : ∃ raw ∈ raws, '='.toUInt8 ∉ raw) :
    Bag.readFields (pre ++ encodeRaws raws ++ post) pre.length (encodeRaws raws).length =
        .error missingSeparator ∧
      readMessageHeader (pre ++ encodeRaws raws ++ post)
        ⟨(encodeRaws raws).length, pre.length, dataLen, data⟩ ≠ .error missingSeparator :=
  ⟨readFields_encodeRaws_of_missing hfits h, readMessageHeader_ne_thrown rfl⟩

theorem readMessageHeader_ne_missingSeparator_sample :
    Bag.readFields ([] ++ encodeRaws [bytes "op", bytes "x"] ++ [0]) ([] : Bytes).length
        (encodeRaws [bytes "op", bytes "x"]).length = .error missingSeparator ∧
      readMessageHeader ([] ++ encodeRaws [bytes "op", bytes "x"] ++ [0])
        ⟨(encodeRaws [bytes "op", bytes "x"]).length, ([] : Bytes).length, 0, 0⟩ ≠
          .error missingSeparator :=
  readMessageHeader_ne_missingSeparator [] [0] [bytes "op", bytes "x"] 0 0 (by decide) (by decide)

/-- A field that is not looked at and has no `=` in it, at the end of the buffer: both fields of
the header are passed over. -/
theorem readMessageHeader_passes_missing_sample :
    (∃ raw ∈ [bytes "op=" ++ [2], bytes "x"], '='.toUInt8 ∉ raw) ∧
      readMessageHeader (encodeRaws [bytes "op=" ++ [2], bytes "x"] ++ [0])
        ⟨(encodeRaws [bytes "op=" ++ [2], bytes "x"]).length, 0, 0, 0⟩ = .ok { op := 2 } := by
  decide

inductive IsMessageField : Field → Prop
  | op {value : Bytes} (h : value.length = 1) : IsMessageField (bytes "op", value)
  | conn {value : Bytes} (h : value.length = 4) : IsMessageField (bytes "conn", value)
  | time {value : Bytes} (h : value.length = 8) : IsMessageField (bytes "time", value)
  | topic (value : Bytes) : IsMessageField (bytes "topic", value)

/-- A header with an operation and a connection, in any order and as often as it likes. -/
structure IsMessageHeader (fs : List Field) : Prop where
  fields : ∀ f ∈ fs, IsMessageField f
  fits : (encodeFields fs).length < 2 ^ 32
  op : bytes "op" ∈ fs.map Prod.fst
  conn : bytes "conn" ∈ fs.map Prod.fst

/-- Every topic has eight bytes behind its `=`, in its value, in the fields after it or among
the bytes behind the header. -/
def RoomForTopics (fs : List Field) (behind : ℕ) : Prop :=
  ∀ front value back, fs = front ++ (bytes "topic", value) :: back →
    8 ≤ value.length + (encodeFields back).length + behind

/-- Both readers return, and what they say of the record is the same. -/
def ReadersAgree (memory : Bytes) (record : Record) (fs : List Field) : Prop :=
  ∃ header fast, Bag.readHeader memory record = .ok header ∧
    readMessageHeader memory record = .ok fast ∧ header.getOp = .ok fast.op ∧
    header.getUInt 4 (bytes "conn") = .ok fast.connectionId ∧
    (bytes "time" ∈ fs.map Prod.fst → bytes "topic" ∉ fs.map Prod.fst →
      header.getTime (bytes "time") = .ok fast.timestamp)

structure Updates (fs : List Field) (header header' : MessageHeader) : Prop where
  op : header'.op = ((lastValue (bytes "op") fs).map fun v => Int.bmod (ofLE v) 256).getD header.op
  conn : header'.connectionId = ((lastValue (bytes "conn") fs).map ofLE).getD header.connectionId
  time : bytes "topic" ∉ fs.map Prod.fst →
    header'.timestamp = ((lastValue (bytes "time") fs).map TimeValue.ofBytes).getD header.timestamp

theorem getD_map_or {α β : Type} (a b : Option α) (g : α → β) (d : β) :
    ((a.or b).map g).getD d = (a.map g).getD ((b.map g).getD d) := by
  cases a <;> rfl

theorem lastValue_cons (name : Bytes) (f : Field) (fs : List Field) :
    lastValue name (f :: fs) = (lastValue name fs).or (lastValue name [f]) := rfl

theorem Updates.cons {f : Field} {fs : List Field} {header header₁ header' : MessageHeader}
    (h : Updates [f] header header₁) (h' : Updates fs header₁ header') :
    Updates (f :: fs) header header' where
  op := by rw [h'.op, h.op, lastValue_cons _ f fs, getD_map_or]
  conn := by rw [h'.conn, h.conn, lastValue_cons _ f fs, getD_map_or]
  time htopic := by
    rw [List.map_cons, List.mem_cons, not_or] at htopic
    rw [h'.time htopic.2, h.time (by simpa using htopic.1), lastValue_cons _ f fs, getD_map_or]

section Value

variable {name value : Bytes} {fs : List Field}

theorem lastValue_mem (h : lastValue name fs = some value) : (name, value) ∈ fs := by
  induction fs with
  | nil => cases h
  | cons f fs ih =>
    rw [lastValue] at h
    rcases Option.or_eq_some_iff.1 h with htail | ⟨-, hhead⟩
    · exact List.mem_cons_of_mem _ (ih htail)
    · split_ifs at hhead with hname
      rw [← hname, ← Option.some.inj hhead]
      exact List.mem_cons_self

theorem exists_lastValue (h : name ∈ fs.map Prod.fst) : ∃ value, lastValue name fs = some value := by
  induction fs with
  | nil => cases h
  | cons f fs ih =>
    rw [lastValue]
    rcases htail : lastValue name fs with _ | value
    · rcases List.mem_cons.1 h with hname | hmem
      · exact ⟨f.2, by rw [if_pos hname.symm]; rfl⟩
      · obtain ⟨value, hvalue⟩ := ih hmem
        rw [htail] at hvalue
        cases hvalue
    · exact ⟨value, rfl⟩

theorem TimeValue.le_ofBytes (h : value.length = 8) :
    le 4 (TimeValue.ofBytes value).secs.toNat ++ le 4 (TimeValue.ofBytes value).nsecs.toNat = value := by
  have hword : ∀ bs : Bytes, bs.length = 4 → le 4 (UInt32.ofNat (ofLE bs)).toNat = bs := by
    intro bs hbs
    have hlt := ofLE_lt bs
    have hle := le_ofLE bs
    rw [hbs] at hlt hle
    rw [UInt32.toNat_ofNat_of_lt' hlt, hle]
  rw [TimeValue.ofBytes, hword _ (by rw [List.length_take]; omega),
    hword _ (by rw [List.length_drop]; omega), List.take_append_drop]

end Value

section Turn

variable {memory : Bytes} {p : ℕ} {f : Field} {fs : List Field}

theorem IsMessageField.plain (h : IsMessageField f) : 61 ∉ f.1 ∧ 0 ∉ f.1 := by
  have hnames : ∀ name ∈ [bytes "op", bytes "conn", bytes "time", bytes "topic"], 61 ∉ name ∧ 0 ∉ name := by
    decide
  apply hnames
  cases h <;> simp

theorem IsMessageField.length_value (h : IsMessageField f) :
    (f.1 = bytes "op" → f.2.length = 1) ∧ (f.1 = bytes "conn" → f.2.length = 4) ∧
      (f.1 = bytes "time" → f.2.length = 8) := by
  have hoc : bytes "op" ≠ bytes "conn" := by decide
  have hot : bytes "op" ≠ bytes "time" := by decide
  have hct : bytes "conn" ≠ bytes "time" := by decide
  have htopic : bytes "topic" ∉ [bytes "op", bytes "conn", bytes "time"] := by decide
  cases h with
  | op h => exact ⟨fun _ => h, fun he => absurd he hoc, fun he => absurd he hot⟩
  | conn h => exact ⟨fun he => absurd he hoc.symm, fun _ => h, fun he => absurd he hct⟩
  | time h => exact ⟨fun he => absurd he hot.symm, fun he => absurd he hct.symm, fun _ => h⟩
  | topic value =>
    simp only [List.mem_cons, List.not_mem_nil, or_false, not_or] at htopic
    exact ⟨fun he => absurd he htopic.1, fun he => absurd he htopic.2.1, fun he => absurd he htopic.2.2⟩

/-- A field sets what it is named after; a topic passes for a time. -/
theorem exists_setField (header : MessageHeader) (hf : IsMessageField f)
    (h : OccursAt (f.1 ++ 61 :: f.2) memory p)
    (hroom : f.1 = bytes "topic" → p + 6 + 8 ≤ memory.length) :
    ∃ header', setField memory p (some (p + (f.1.length + 1))) header = .ok header' ∧
      Updates [f] header header' := by
  cases hf with
  | @op value hlen =>
    obtain ⟨k, rfl⟩ := List.length_eq_one_iff.1 hlen
    refine ⟨_, setField_op h, ?_, rfl, fun _ => rfl⟩
    simp [lastValue, ofLE]
  | @conn value hlen =>
    have hlt := ofLE_lt value
    have hle := le_ofLE value
    rw [hlen] at hlt hle
    refine ⟨_, setField_conn hlt (by rwa [hle]), rfl, ?_, fun _ => rfl⟩
    simp [lastValue]
  | @time value hlen =>
    refine ⟨_, setField_time (t := TimeValue.ofBytes value) ?_, rfl, rfl, fun _ => ?_⟩
    · rwa [TimeValue.le_ofBytes hlen]
    · simp [lastValue]
  | topic value =>
    obtain ⟨t, hset⟩ := setField_topic header h (hroom rfl)
    exact ⟨_, hset, rfl, rfl, fun htopic => absurd (List.mem_singleton.2 rfl) htopic⟩

theorem RoomForTopics.cons_iff {behind : ℕ} :
    RoomForTopics (f :: fs) behind ↔
      (f.1 = bytes "topic" → 8 ≤ f.2.length + (encodeFields fs).length + behind) ∧
        RoomForTopics fs behind := by
  constructor
  · intro h
    refine ⟨fun hname => h [] f.2 fs ?_, fun front value back hfs => ?_⟩
    · rw [← hname]
      rfl
    · rw [hfs] at h
      exact h (f :: front) value back rfl
  · rintro ⟨hf, hfs⟩ front value back hsplit
    cases front with
    | nil =>
      rw [List.nil_append, List.cons.injEq] at hsplit
      rw [hsplit.1, hsplit.2] at hf
      exact hf rfl
    | cons f' front =>
      rw [List.cons_append, List.cons.injEq] at hsplit
      exact hfs front value back hsplit.2

theorem exists_messageHeaderLoop_of_fields (header : MessageHeader) {behind fuel : ℕ}
    (hfs : ∀ f ∈ fs, IsMessageField f) (hfits : (encodeFields fs).length < 2 ^ 32)
    (hroom : RoomForTopics fs behind) (hfuel : fs.length ≤ fuel) (h : OccursAt (encodeFields fs) memory p)
    (hbehind : memory.length = p + (encodeFields fs).length + behind) :
    ∃ header', messageHeaderLoop memory (p + (encodeFields fs).length) fuel p header = .ok header' ∧
      Updates fs header header' := by
  induction fs generalizing header p fuel with
  | nil =>
    refine ⟨header, ?_, rfl, rfl, fun _ => rfl⟩
    cases fuel <;> rw [messageHeaderLoop, if_neg (by simp [encodeFields])]
  | cons f fs ih =>
    rw [List.forall_mem_cons] at hfs
    have henc : encodeFields (f :: fs) = encodeField f ++ encodeFields fs := rfl
    rw [henc, List.length_append] at hfits hbehind ⊢
    rw [henc] at h
    rw [RoomForTopics.cons_iff] at hroom
    have hlength := length_encodeField f
    obtain ⟨fuel, rfl⟩ : ∃ j, fuel = j + 1 := ⟨fuel - 1, by rw [List.length_cons] at hfuel; omega⟩
    have hright := h.left.right
    rw [length_le] at hright
    have hroomf : f.1 = bytes "topic" → p + 4 + 6 + 8 ≤ memory.length := by
      intro hname
      have hnameLength : f.1.length = 5 := by rw [hname]; rfl
      have := hroom.1 hname
      omega
    obtain ⟨header₁, hset, hupdates⟩ := exists_setField header hfs.1 hright hroomf
    have hturn : messageHeaderLoop memory (p + ((encodeField f).length + (encodeFields fs).length)) (fuel + 1) p
        header = messageHeaderLoop memory (p + ((encodeField f).length + (encodeFields fs).length)) fuel
          (p + (encodeField f).length) header₁ :=
      messageHeaderLoop_of_occursAt (by omega) hfs.1.plain.1 hfs.1.plain.2
        (show (encodeField f).length < 2 ^ 32 by omega) h.left hset
    obtain ⟨header', hloop, hupdates'⟩ := @ih (p + (encodeField f).length) header₁ fuel hfs.2 (by omega)
      hroom.2 (by rw [List.length_cons] at hfuel; omega) h.right (by omega)
    rw [Nat.add_assoc] at hloop
    exact ⟨header', hturn.trans hloop, hupdates.cons hupdates'⟩

theorem RoomForTopics.of_fieldsInside {behind : ℕ} (hfs : ∀ f ∈ fs, IsMessageField f)
    (hfits : (encodeFields fs).length < 2 ^ 32) (h : OccursAt (encodeFields fs) memory p)
    (hbehind : memory.length = p + (encodeFields fs).length + behind)
    (hinside : FieldsInside memory (p + (encodeFields fs).length) p) : RoomForTopics fs behind := by
  induction fs generalizing p with
  | nil =>
    intro front value back hfs
    cases front <;> cases hfs
  | cons f fs ih =>
    rw [List.forall_mem_cons] at hfs
    have henc : encodeFields (f :: fs) = encodeField f ++ encodeFields fs := rfl
    rw [henc, List.length_append] at hfits hbehind hinside
    rw [henc] at h
    have hlength := length_encodeField f
    have hword : readWord 4 memory p = .ok (f.1.length + 1 + f.2.length) :=
      readWord_of_occursAt (by norm_num; omega) h.left.left
    have hright := h.left.right
    rw [length_le] at hright
    have hequal := strstrEquals_of_occursAt hfs.1.plain.1 hfs.1.plain.2 hright
    rw [RoomForTopics.cons_iff]
    cases hinside with
    | done hle => omega
    | field hp hlen hequals hvalue rest =>
      rw [hword] at hlen
      cases hlen
      rw [hequal] at hequals
      cases hequals
      refine ⟨fun hname => ?_, @ih (p + (encodeField f).length) hfs.2 (by omega) h.right (by omega) ?_⟩
      · rw [hname] at hright hvalue
        obtain ⟨q, hq, hle⟩ := hvalue _ (readRaw_first (c := 116) hright) 8 (.inr (.inr ⟨rfl, rfl⟩))
        have hnameLength : f.1.length = 5 := by rw [hname]; rfl
        rw [Option.some.injEq, show (bytes "topic").length = 5 from rfl] at hq
        omega
      · convert rest using 1 <;> omega

end Turn

section Agree

variable {fs : List Field} {pre post : Bytes} {dataLen : ℕ} {data : ℤ}

theorem lookup_readFields (pre post : Bytes) (hfs : IsMessageHeader fs) :
    ∃ header, Bag.readFields (pre ++ encodeFields fs ++ post) pre.length (encodeFields fs).length =
        .ok header ∧ ∀ name, header.lookup name = lastValue name fs := by
  have hraws : ∀ f ∈ fs, f.1.length + 1 + f.2.length < 2 ^ 32 := by
    intro f hf
    obtain ⟨front, back, hsplit⟩ := List.append_of_mem hf
    have hlength := length_encodeField f
    have hfits := hfs.fits
    rw [hsplit, encodeFields, List.flatMap_append, List.flatMap_cons, List.length_append,
      List.length_append] at hfits
    omega
  have hread := readFields_of_isBlock (isBlock_encodeFields hraws) (occursAt_of_append pre _ post)
  rw [map_fieldOf fun f hf => (hfs.fields f hf).plain.1] at hread
  refine ⟨_, hread, fun name => ?_⟩
  rw [lookup_foldl_insert_eq, AList.lookup_empty, Option.or_none]

theorem exists_readMessageHeader (pre : Bytes) (dataLen : ℕ) (data : ℤ) (hfs : IsMessageHeader fs)
    (hroom : RoomForTopics fs post.length) :
    ∃ fast, readMessageHeader (pre ++ encodeFields fs ++ post)
        ⟨(encodeFields fs).length, pre.length, dataLen, data⟩ = .ok fast ∧ Updates fs {} fast := by
  apply exists_messageHeaderLoop_of_fields {} hfs.fields hfs.fits hroom (length_le_encodeFields fs)
    (occursAt_of_append pre _ post)
  rw [List.length_append, List.length_append]

theorem ReadersAgree.of_room (hfs : IsMessageHeader fs)
    (hroom : RoomForTopics fs post.length) :
    ReadersAgree (pre ++ encodeFields fs ++ post)
      ⟨(encodeFields fs).length, pre.length, dataLen, data⟩ fs := by
  obtain ⟨header, hread, hlookup⟩ := lookup_readFields pre post hfs
  obtain ⟨fast, hfast, hupdates⟩ := exists_readMessageHeader pre dataLen data hfs hroom
  refine ⟨header, fast, hread, hfast, ?_, ?_, ?_⟩
  · obtain ⟨value, hvalue⟩ := exists_lastValue hfs.op
    have hlength := (hfs.fields _ (lastValue_mem hvalue)).length_value.1 rfl
    have hraw := readRaw_of_occursAt (Header.occursAt_terminated value)
    rw [hlength] at hraw
    rw [Header.getOp, Header.getField_of_lookup ((hlookup _).trans hvalue), ok_bind, hraw, ok_bind,
      hupdates.op, hvalue, Option.map_some, Option.getD_some]
    rfl
  · obtain ⟨value, hvalue⟩ := exists_lastValue hfs.conn
    have hlength := (hfs.fields _ (lastValue_mem hvalue)).length_value.2.1 rfl
    have hraw := readRaw_of_occursAt (Header.occursAt_terminated value)
    rw [hlength] at hraw
    rw [Header.getUInt, Header.getField_of_lookup ((hlookup _).trans hvalue), ok_bind, readWord, hraw,
      hupdates.conn, hvalue, Option.map_some, Option.getD_some]
    rfl
  · intro htime htopic
    obtain ⟨value, hvalue⟩ := exists_lastValue htime
    have hlength := (hfs.fields _ (lastValue_mem hvalue)).length_value.2.2 rfl
    have hraw := readRaw_of_occursAt (Header.occursAt_terminated value)
    rw [hlength] at hraw
    rw [Header.getTime, Header.getField_of_lookup ((hlookup _).trans hvalue), ok_bind, hraw, ok_bind,
      hupdates.time htopic, hvalue, Option.map_some, Option.getD_some]
    rfl

/-- A reader that returns has read eight bytes of every topic. -/
theorem ReadersAgree.room (hfs : IsMessageHeader fs)
    (h : ReadersAgree (pre ++ encodeFields fs ++ post)
      ⟨(encodeFields fs).length, pre.length, dataLen, data⟩ fs) : RoomForTopics fs post.length := by
  obtain ⟨-, fast, -, hfast, -⟩ := h
  have hinside := (readMessageHeader_ok_iff _ _).1 ⟨fast, hfast⟩
  refine .of_fieldsInside hfs.fields hfs.fits (occursAt_of_append pre _ post) ?_ hinside
  rw [List.length_append, List.length_append]

end Agree

/-- The readers agree on the headers whose topics have eight bytes to be read. -/
theorem readersAgree_iff (pre post : Bytes) (dataLen : ℕ) (data : ℤ) (fs : List Field)
    (hfs : IsMessageHeader fs) :
    ReadersAgree (pre ++ encodeFields fs ++ post) ⟨(encodeFields fs).length, pre.length, dataLen, data⟩ fs ↔
      RoomForTopics fs post.length :=
  ⟨ReadersAgree.room hfs, ReadersAgree.of_room hfs⟩

theorem isMessageHeader_topic {fs : List Field}
    (hfs : fs ∈ [[(bytes "topic", []), (bytes "op", [7]), (bytes "conn", [1, 0, 0, 0])],
      [(bytes "op", [7]), (bytes "conn", [1, 0, 0, 0]), (bytes "topic", [])]]) : IsMessageHeader fs := by
  have hop : IsMessageField (bytes "op", [7]) := .op rfl
  have hconn : IsMessageField (bytes "conn", [1, 0, 0, 0]) := .conn rfl
  simp only [List.mem_cons, List.not_mem_nil, or_false] at hfs
  rcases hfs with rfl | rfl
  · exact ⟨by simp [hop, hconn, IsMessageField.topic], by decide, by decide, by decide⟩
  · exact ⟨by simp [hop, hconn, IsMessageField.topic], by decide, by decide, by decide⟩

theorem readersAgree_sample :
    ReadersAgree
        ([] ++ encodeFields [(bytes "topic", []), (bytes "op", [7]), (bytes "conn", [1, 0, 0, 0])] ++ [])
        ⟨(encodeFields [(bytes "topic", []), (bytes "op", [7]), (bytes "conn", [1, 0, 0, 0])]).length,
          ([] : Bytes).length, 0, 0⟩
        [(bytes "topic", []), (bytes "op", [7]), (bytes "conn", [1, 0, 0, 0])] ↔
      RoomForTopics [(bytes "topic", []), (bytes "op", [7]), (bytes "conn", [1, 0, 0, 0])]
        ([] : Bytes).length :=
  readersAgree_iff [] [] 0 0 _ (isMessageHeader_topic (by simp))

/-- An empty topic at the end of a header, behind which a chunk has one byte of data. -/
theorem not_readersAgree_sample :
    IsMessageHeader [(bytes "op", [7]), (bytes "conn", [1, 0, 0, 0]), (bytes "topic", [])] ∧
      ¬ ReadersAgree
        (encodeFields [(bytes "op", [7]), (bytes "conn", [1, 0, 0, 0]), (bytes "topic", [])] ++
          [1, 0, 0, 0, 0])
        ⟨(encodeFields [(bytes "op", [7]), (bytes "conn", [1, 0, 0, 0]), (bytes "topic", [])]).length,
          0, 1, 35⟩
        [(bytes "op", [7]), (bytes "conn", [1, 0, 0, 0]), (bytes "topic", [])] := by
  refine ⟨isMessageHeader_topic (by simp), fun h => ?_⟩
  obtain ⟨-, fast, -, hfast, -⟩ := h
  have hbeyond : readMessageHeader
      (encodeFields [(bytes "op", [7]), (bytes "conn", [1, 0, 0, 0]), (bytes "topic", [])] ++ [1, 0, 0, 0, 0])
      ⟨(encodeFields [(bytes "op", [7]), (bytes "conn", [1, 0, 0, 0]), (bytes "topic", [])]).length,
        0, 1, 35⟩ = .error .undefined := by decide
  rw [hbeyond] at hfast
  cases hfast

end Embag
