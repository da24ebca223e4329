import Embag.ViewSteps
import Embag.BagContents

/-! Messages of damaged chunks: where the bytes of a message lie in its buffer, over all calls
that move the scan of a wrapper. The end of a payload is never compared with the buffer, so it
is a condition on the record; the cursor keeps messages of one buffer apart. -/

namespace Embag

open Loops

/-- The value of a field is found and can be read, if its name is one that is looked at. -/
def ValueInside (memory : Bytes) (p : ℕ) (equals : Option ℕ) : Prop :=
  ∀ first, readRaw memory p 1 = .ok first →
    ∀ n, (first = bytes "o" ∧ n = 1 ∨ first = bytes "c" ∧ n = 4 ∨ first = bytes "t" ∧ n = 8) →
      ∃ q, equals = some q ∧ q + 1 + n ≤ memory.length

/-- The fields from a position on can be read: their lengths, a `=` or a 0 behind each, and
their values. -/
inductive FieldsInside (memory : Bytes) (finish : ℕ) : ℕ → Prop
  | done {p : ℕ} (h : finish ≤ p) : FieldsInside memory finish p
  | field {p fieldLen : ℕ} {equals : Option ℕ} (hp : p < finish)
    (hlen : readWord 4 memory p = .ok fieldLen) (hequals : strstrEquals memory (p + 4) = .ok equals)
    (hvalue : ValueInside memory (p + 4) equals)
    (rest : FieldsInside memory finish (p + 4 + fieldLen)) : FieldsInside memory finish p

section Fields

variable {memory : Bytes} {finish p : ℕ}

theorem readValue_ok_iff {equals : Option ℕ} {n : ℕ} :
    (∃ bs, readValue memory (equals.map (· + 1)) n = .ok bs) ↔
      ∃ q, equals = some q ∧ q + 1 + n ≤ memory.length := by
  cases equals with
  | none => simp [readValue]
  | some q => simp [readValue, readRaw_ok_iff]

theorem lt_of_strstrEquals {equals : Option ℕ} (h : strstrEquals memory p = .ok equals) :
    p < memory.length := by
  by_contra hle
  rw [strstrEquals, List.drop_eq_nil_of_le (by omega)] at h
  simp at h

theorem setField_ok_iff {equals : Option ℕ} (header : MessageHeader) (hp : p < memory.length) :
    (∃ header', setField memory p (equals.map (· + 1)) header = .ok header') ↔
      ValueInside memory p equals := by
  obtain ⟨first, hfirst⟩ := readRaw_ok_iff.2 (show p + 1 ≤ memory.length from hp)
  have hoc : bytes "o" ≠ bytes "c" := by decide
  have hot : bytes "o" ≠ bytes "t" := by decide
  have hct : bytes "c" ≠ bytes "t" := by decide
  have hread : ∀ n (f : Bytes → MessageHeader),
      (∃ header', (do let bs ← readValue memory (equals.map (· + 1)) n; return f bs) = .ok header') ↔
        ∃ q, equals = some q ∧ q + 1 + n ≤ memory.length := by
    intro n f
    rw [← readValue_ok_iff]
    cases readValue memory (equals.map (· + 1)) n with
    | ok bs => exact ⟨fun _ => ⟨bs, rfl⟩, fun _ => ⟨_, rfl⟩⟩
    | error e => exact ⟨nofun, nofun⟩
  unfold setField ValueInside
  simp only [hfirst, ok_bind, Except.ok.injEq, forall_eq']
  split_ifs with ho hc ht
  · subst ho
    rw [hread]
    simp [hoc, hot]
  · subst hc
    rw [hread]
    simp [hoc.symm, hct]
  · subst ht
    rw [hread]
    simp [hot.symm, hct.symm]
  · exact ⟨fun _ => by simp [ho, hc, ht], fun _ => ⟨header, rfl⟩⟩

theorem setField_error {valueP : Option ℕ} {header : MessageHeader} {e : Fault}
    (h : setField memory p valueP header = .error e) : e = .undefined := by
  have hvalue : ∀ n (f : Bytes → MessageHeader),
      (do let bs ← readValue memory valueP n; return f bs) = .error e → e = .undefined := by
    intro n f hread
    rcases hbs : readValue memory valueP n with e' | bs
    · rw [hbs] at hread
      cases hread
      cases valueP with
      | none =>
        cases hbs
        rfl
      | some q => exact readRaw_error hbs
    · rw [hbs] at hread
      cases hread
  unfold setField at h
  rcases hfirst : readRaw memory p 1 with e' | first
  · rw [hfirst] at h
    cases h
    exact readRaw_error hfirst
  simp only [hfirst, ok_bind] at h
  split_ifs at h
  · exact hvalue _ _ h
  · exact hvalue _ _ h
  · exact hvalue _ _ h
  · cases h

theorem messageHeaderLoop_ok_iff {fuel : ℕ} {header : MessageHeader} (hfuel : finish - p ≤ fuel) :
    (∃ header', messageHeaderLoop memory finish fuel p header = .ok header') ↔
      FieldsInside memory finish p := by
  induction fuel generalizing p header with
  | zero =>
    have hp : finish ≤ p := by omega
    unfold messageHeaderLoop
    simp only [if_neg (Nat.not_lt.2 hp)]
    exact ⟨fun _ => .done hp, fun _ => ⟨_, rfl⟩⟩
  | succ fuel ih =>
    unfold messageHeaderLoop
    split_ifs with hp
    · constructor
      · rintro ⟨header', h⟩
        rcases hlen : readWord 4 memory p with e | fieldLen
        · simp [hlen] at h
        rcases hequals : strstrEquals memory (p + 4) with e | equals
        · simp [hlen, hequals] at h
        rcases hset : setField memory (p + 4) (equals.map (· + 1)) header with e | next
        · simp [hlen, hequals, hset] at h
        simp only [hlen, hequals, hset, ok_bind] at h
        have hvalue := (setField_ok_iff _ (lt_of_strstrEquals hequals)).1 ⟨_, hset⟩
        exact .field hp hlen hequals hvalue ((ih (by omega)).1 ⟨_, h⟩)
      · intro h
        cases h with
        | done hle => omega
        | @field _ fieldLen equals _ hlen hequals hvalue rest =>
          obtain ⟨next, hset⟩ := (setField_ok_iff header (lt_of_strstrEquals hequals)).2 hvalue
          simp only [hlen, hequals, hset, ok_bind]
          exact (ih (by omega)).2 rest
    · exact ⟨fun _ => .done (by omega), fun _ => ⟨_, rfl⟩⟩

theorem messageHeaderLoop_error {fuel : ℕ} {header : MessageHeader} {e : Fault} (hfuel : finish - p ≤ fuel)
    (h : messageHeaderLoop memory finish fuel p header = .error e) : e = .undefined := by
  induction fuel generalizing p header with
  | zero =>
    unfold messageHeaderLoop at h
    rw [if_neg (by omega)] at h
    cases h
  | succ fuel ih =>
    unfold messageHeaderLoop at h
    split_ifs at h
    rcases hlen : readWord 4 memory p with e' | fieldLen
    · simp only [hlen, error_bind, Except.error.injEq] at h
      rw [← h, readWord_error hlen]
    rcases hequals : strstrEquals memory (p + 4) with e' | equals
    · simp only [hlen, hequals, ok_bind, error_bind, Except.error.injEq] at h
      unfold strstrEquals at hequals
      split at hequals <;> cases hequals
      exact h.symm
    rcases hset : setField memory (p + 4) (equals.map (· + 1)) header with e' | next
    · simp only [hlen, hequals, hset, ok_bind, error_bind, Except.error.injEq] at h
      rw [← h, setField_error hset]
    simp only [hlen, hequals, hset, ok_bind] at h
    exact ih (by omega) h

theorem readMessageHeader_error {record : Record} {e : Fault} (h : readMessageHeader memory record = .error e) :
    e = .undefined :=
  messageHeaderLoop_error (by omega) h

theorem readMessageHeader_ok_iff (memory : Bytes) (record : Record) :
    (∃ header, readMessageHeader memory record = .ok header) ↔
      FieldsInside memory (record.header.toNat + record.headerLen) record.header.toNat :=
  messageHeaderLoop_ok_iff (by omega)

end Fields

/-- The lengths of the record at a position, and its data begins before the buffer's end. -/
structure RecordAt (buffer : Bytes) (p headerLen dataLen : ℕ) : Prop where
  header : readWord 4 buffer p = .ok headerLen
  data : readWord 4 buffer (p + 4 + headerLen) = .ok dataLen
  front : p + 4 + headerLen + 4 < buffer.length

def recordOf (p headerLen dataLen : ℕ) : Record :=
  ⟨headerLen, ↑(p + 4), dataLen, ↑(p + 4 + headerLen + 4)⟩

/-- Nothing of the record at a position lies across the end of the buffer or beyond it: not
its lengths, the fields of its header, nor the payload of a message that is asked for. -/
structure RecordInside (buffer : Bytes) (ids : List ℕ) (p : ℕ) : Prop where
  header : p < buffer.length → p + 4 ≤ buffer.length
  data : ∀ headerLen, readWord 4 buffer p = .ok headerLen →
    p + 4 + headerLen < buffer.length → p + 4 + headerLen + 4 ≤ buffer.length
  fields : ∀ headerLen dataLen, RecordAt buffer p headerLen dataLen →
    FieldsInside buffer (p + 4 + headerLen) (p + 4)
  payload : ∀ headerLen dataLen header, RecordAt buffer p headerLen dataLen →
    readMessageHeader buffer (recordOf p headerLen dataLen) = .ok header → header.op = 2 →
    header.connectionId ∈ ids → p + 4 + headerLen + 4 + dataLen ≤ buffer.length

section Record

variable {buffer : Bytes} {p p' : ℕ}

/-- A length is read, or it lies across the end, or `at` throws. -/
theorem lengthWord_cases (buffer : Bytes) (p : ℕ) :
    (∃ n, (atIndex buffer p >>= fun _ => readWord 4 buffer p) = .ok n ∧ readWord 4 buffer p = .ok n) ∨
      ∃ e, (atIndex buffer p >>= fun _ => readWord 4 buffer p) = .error e ∧
        buffer.length < p + 4 ∧ (e.thrown = true ↔ (p < buffer.length → p + 4 ≤ buffer.length)) := by
  rcases hat : atIndex buffer p with e | ⟨⟨⟩⟩
  · obtain ⟨hthrown, hle⟩ := atIndex_error hat
    exact .inr ⟨e, rfl, by omega, ⟨fun _ h => absurd h (by omega), fun _ => hthrown⟩⟩
  rw [ok_bind]
  rcases hword : readWord 4 buffer p with e | n
  · have hlt : ¬ p + 4 ≤ buffer.length := by
      rw [← readWord_ok_iff, hword]
      exact nofun
    refine .inr ⟨e, rfl, by omega, ?_⟩
    rw [readWord_error hword]
    exact ⟨nofun, fun h => absurd (h (atIndex_ok_iff.1 hat)) hlt⟩
  · exact .inl ⟨n, rfl, rfl⟩

theorem scanRecord_cases (buffer : Bytes) (p : ℕ) :
    (∃ headerLen dataLen, RecordAt buffer p headerLen dataLen ∧
        scanRecord buffer p =
          (p + 4 + headerLen + 4 + dataLen, .ok (recordOf p headerLen dataLen))) ∨
      ∃ p' e, scanRecord buffer p = (p', .error e) ∧ (∀ headerLen dataLen, ¬ RecordAt buffer p headerLen dataLen) ∧
        (e.thrown = true ↔ (p < buffer.length → p + 4 ≤ buffer.length) ∧
          ∀ headerLen, readWord 4 buffer p = .ok headerLen →
            p + 4 + headerLen < buffer.length → p + 4 + headerLen + 4 ≤ buffer.length) := by
  unfold scanRecord
  rcases lengthWord_cases buffer p with ⟨headerLen, hword, hheader⟩ | ⟨e, hword, hlt, hthrown⟩
  swap
  · have hnone : ∀ n, readWord 4 buffer p ≠ .ok n := by
      intro n h
      have := readWord_ok_iff.1 ⟨n, h⟩
      omega
    simp only [hword]
    refine .inr ⟨p, e, rfl, fun n _ h => hnone n h.header, ?_⟩
    rw [hthrown]
    exact ⟨fun h => ⟨h, fun n hn => absurd hn (hnone n)⟩, fun h => h.1⟩
  have hfits := readWord_ok_iff.1 ⟨_, hheader⟩
  simp only [hword]
  rcases hat : atIndex buffer (p + 4) with e | ⟨⟨⟩⟩
  · obtain ⟨hthrown, hle⟩ := atIndex_error hat
    refine .inr ⟨_, e, rfl, fun n _ h => ?_, iff_of_true hthrown ⟨fun _ => hfits, fun n _ h => ?_⟩⟩
    · have := h.front
      omega
    · omega
  simp only
  rcases lengthWord_cases buffer (p + 4 + headerLen) with ⟨dataLen, hword', hdata⟩ |
    ⟨e, hword', hlt, hthrown⟩
  swap
  · simp only [hword']
    refine .inr ⟨_, e, rfl, fun n m h => ?_, ?_⟩
    · have hn := h.header
      rw [hheader] at hn
      cases hn
      have := h.front
      omega
    · rw [hthrown, hheader]
      simp only [Except.ok.injEq, forall_eq']
      exact ⟨fun h => ⟨fun _ => hfits, h⟩, fun h => h.2⟩
  have hfits' := readWord_ok_iff.1 ⟨_, hdata⟩
  simp only [hword']
  rcases hat' : atIndex buffer (p + 4 + headerLen + 4) with e | ⟨⟨⟩⟩
  · obtain ⟨hthrown, hle⟩ := atIndex_error hat'
    refine .inr ⟨_, e, rfl, fun n m h => ?_, iff_of_true hthrown ⟨fun _ => hfits, ?_⟩⟩
    · have hn := h.header
      rw [hheader] at hn
      cases hn
      have := h.front
      omega
    · rw [hheader]
      simp only [Except.ok.injEq, forall_eq']
      exact fun _ => hfits'
  · exact .inl ⟨headerLen, dataLen, ⟨hheader, hdata, atIndex_ok_iff.1 hat'⟩, rfl⟩

theorem lengthWord_error {e : Fault} (h : (atIndex buffer p >>= fun _ => readWord 4 buffer p) = .error e) :
    e.Occurs := by
  rcases hat : atIndex buffer p with e' | ⟨⟨⟩⟩
  · rw [hat, error_bind] at h
    cases h
    exact .inl (atIndex_error hat).1
  · rw [hat, ok_bind] at h
    exact .inr (readWord_error h)

theorem scanRecord_error {e : Fault} (h : scanRecord buffer p = (p', .error e)) : e.Occurs := by
  unfold scanRecord at h
  rcases hword : (atIndex buffer p >>= fun _ => readWord 4 buffer p) with e' | headerLen
  · simp only [hword, Prod.mk.injEq, Except.error.injEq] at h
    exact h.2 ▸ lengthWord_error hword
  simp only [hword] at h
  rcases hat : atIndex buffer (p + 4) with e' | ⟨⟨⟩⟩
  · simp only [hat, Prod.mk.injEq, Except.error.injEq] at h
    exact .inl (h.2 ▸ (atIndex_error hat).1)
  simp only [hat] at h
  rcases hword' : (atIndex buffer (p + 4 + headerLen) >>= fun _ => readWord 4 buffer (p + 4 + headerLen)) with
    e' | dataLen
  · simp only [hword', Prod.mk.injEq, Except.error.injEq] at h
    exact h.2 ▸ lengthWord_error hword'
  simp only [hword'] at h
  rcases hat' : atIndex buffer (p + 4 + headerLen + 4) with e' | ⟨⟨⟩⟩
  · simp only [hat', Prod.mk.injEq, Except.error.injEq] at h
    exact .inl (h.2 ▸ (atIndex_error hat').1)
  · simp [hat'] at h

theorem RecordAt.unique {headerLen dataLen headerLen' dataLen' : ℕ}
    (h : RecordAt buffer p headerLen dataLen) (h' : RecordAt buffer p headerLen' dataLen') :
    headerLen' = headerLen ∧ dataLen' = dataLen := by
  have hheader := h'.header
  rw [h.header] at hheader
  cases hheader
  have hdata := h'.data
  rw [h.data] at hdata
  cases hdata
  exact ⟨rfl, rfl⟩

end Record

def CurrentMessage.InBuffer (m : CurrentMessage) : Prop :=
  ∃ buffer, m.messageBuffer = some buffer ∧ m.messageDataOffset + m.messageLen ≤ buffer.length

instance : DecidablePred CurrentMessage.InBuffer := fun m =>
  match h : m.messageBuffer with
  | none => isFalse fun ⟨buffer, hbuffer, _⟩ => nomatch h.symm.trans hbuffer
  | some buffer => decidable_of_iff (m.messageDataOffset + m.messageLen ≤ buffer.length)
    ⟨fun hle => ⟨buffer, h, hle⟩, fun ⟨_, hbuffer, hle⟩ => by
      cases h.symm.trans hbuffer
      exact hle⟩

def CurrentMessage.Apart (m m' : CurrentMessage) : Prop :=
  m.messageDataOffset + m.messageLen ≤ m'.messageDataOffset ∨
    m'.messageDataOffset + m'.messageLen ≤ m.messageDataOffset

instance (m m' : CurrentMessage) : Decidable (m.Apart m') :=
  inferInstanceAs (Decidable (_ ∨ _))

/-- How `readMessage` is to end: with an exception, without a message or with one in its buffer. -/
def Acceptable : Except Fault (Option CurrentMessage) → Prop
  | .error e => e.thrown
  | .ok none => True
  | .ok (some m) => m.InBuffer

instance : DecidablePred Acceptable
  | .error e => inferInstanceAs (Decidable (e.thrown = true))
  | .ok none => isTrue trivial
  | .ok (some m) => inferInstanceAs (Decidable m.InBuffer)

namespace Scan

variable {bag : Bag} {codecs : Codecs} {s s' : Scan} {buffer : Bytes}

/-- The condition on a record is exact. -/
theorem readRecord_acceptable_iff :
    (∀ r, (s.readRecord buffer).2 = some r → Acceptable r) ↔
      RecordInside buffer s.connectionIds s.processedBytes := by
  unfold readRecord
  rcases scanRecord_cases buffer s.processedBytes with ⟨headerLen, dataLen, hat, hscan⟩ |
    ⟨p', e, hscan, hnone, hthrown⟩
  swap
  · simp only [hscan, Option.some.injEq, forall_eq', Acceptable, hthrown]
    constructor
    · rintro ⟨hheader, hdata⟩
      exact ⟨hheader, hdata, fun n m h => absurd h (hnone n m), fun n m _ h => absurd h (hnone n m)⟩
    · exact fun h => ⟨h.header, h.data⟩
  have hword := readWord_ok_iff.1 ⟨_, hat.header⟩
  have hword' := readWord_ok_iff.1 ⟨_, hat.data⟩
  -- the lengths are there, so that only fields and payload are left
  have hinside : RecordInside buffer s.connectionIds s.processedBytes ↔
      FieldsInside buffer (s.processedBytes + 4 + headerLen) (s.processedBytes + 4) ∧
        ∀ header, readMessageHeader buffer (recordOf s.processedBytes headerLen dataLen) = .ok header →
          header.op = 2 → header.connectionId ∈ s.connectionIds →
            s.processedBytes + 4 + headerLen + 4 + dataLen ≤ buffer.length := by
    constructor
    · exact fun h => ⟨h.fields _ _ hat, fun header => h.payload _ _ header hat⟩
    · rintro ⟨hfields, hpayload⟩
      refine ⟨fun _ => hword, fun n hn _ => ?_, fun n m h => ?_, fun n m header h => ?_⟩
      · rw [hat.header] at hn
        cases hn
        exact hword'
      · obtain ⟨rfl, rfl⟩ := hat.unique h
        exact hfields
      · obtain ⟨rfl, rfl⟩ := hat.unique h
        exact hpayload header
  rw [hinside]
  simp only [hscan]
  have hok := readMessageHeader_ok_iff buffer (recordOf s.processedBytes headerLen dataLen)
  rcases hheader : readMessageHeader buffer (recordOf s.processedBytes headerLen dataLen) with e | header
  · have hnot : ¬ FieldsInside buffer (s.processedBytes + 4 + headerLen) (s.processedBytes + 4) := by
      intro h
      obtain ⟨header, h⟩ := hok.2 h
      rw [hheader] at h
      cases h
    rw [readMessageHeader_error hheader]
    simp only [Option.some.injEq, forall_eq', Acceptable]
    exact ⟨fun h => absurd h Bool.false_ne_true, fun h => absurd h.1 hnot⟩
  have hfields : FieldsInside buffer (s.processedBytes + 4 + headerLen) (s.processedBytes + 4) :=
    hok.1 ⟨header, hheader⟩
  simp only [hfields, true_and, Except.ok.injEq, forall_eq']
  split_ifs with hop hid hop'
  · simp only [Option.some.injEq, forall_eq', Acceptable, CurrentMessage.InBuffer, hop, hid, true_imp_iff]
    rw [exists_eq_left']
    rfl
  · simp [hop, hid]
  · simp [hop]
  · simp [hop, Acceptable, Fault.thrown]

theorem readRecord_found {m : CurrentMessage} (h : s.readRecord buffer = (s', some (.ok (some m)))) :
    s.processedBytes ≤ m.messageDataOffset ∧
      s'.processedBytes = m.messageDataOffset + m.messageLen := by
  unfold readRecord at h
  rcases scanRecord_cases buffer s.processedBytes with ⟨headerLen, dataLen, hat, hscan⟩ |
    ⟨p', e, hscan, -⟩
  swap
  · simp [hscan] at h
  simp only [hscan] at h
  rcases hheader : readMessageHeader buffer (recordOf s.processedBytes headerLen dataLen) with e | header
  · simp [hheader] at h
  simp only [hheader] at h
  split_ifs at h
  · simp only [Prod.mk.injEq, Option.some.injEq, Except.ok.injEq] at h
    obtain ⟨rfl, rfl⟩ := h
    have hdata : (recordOf s.processedBytes headerLen dataLen).data.toNat =
        s.processedBytes + 4 + headerLen + 4 := rfl
    simp only [hdata]
    exact ⟨by omega, rfl⟩
  · simp at h
  · simp at h
  · simp at h

end Scan

/-- The exceptions of the codecs are exceptions. -/
structure Codecs.Throws (codecs : Codecs) : Prop where
  lz4 : ∀ stored size e, (codecs.lz4 stored size).2 = .error e → e.thrown = true
  bz2 : ∀ stored size e, (codecs.bz2 stored size).2 = .error e → e.thrown = true

/-- What opening the chunk copies or decompresses lies in the memory of the bag. -/
structure Chunk.StoredInside (memory : Bytes) (chunk : Chunk) : Prop where
  compressed : chunk.compression = bytes "lz4" ∨ chunk.compression = bytes "bz2" →
    ∃ stored, readPointer memory chunk.record.data chunk.record.dataLen = .ok stored
  plain : chunk.compression = bytes "none" →
    ∃ stored, readPointer memory chunk.record.data chunk.uncompressedSize = .ok stored

instance (memory : Bytes) (chunk : Chunk) : Decidable (chunk.StoredInside memory) :=
  decidable_of_iff
    ((chunk.compression = bytes "lz4" ∨ chunk.compression = bytes "bz2" →
        (readPointer memory chunk.record.data chunk.record.dataLen).toOption.isSome) ∧
      (chunk.compression = bytes "none" →
        (readPointer memory chunk.record.data chunk.uncompressedSize).toOption.isSome))
    ⟨fun h => ⟨fun hc => isSome_toOption_iff.1 (h.1 hc), fun hc => isSome_toOption_iff.1 (h.2 hc)⟩,
      fun h => ⟨fun hc => isSome_toOption_iff.2 (h.compressed hc),
        fun hc => isSome_toOption_iff.2 (h.plain hc)⟩⟩

theorem Codecs.Throws.decompress_error {codecs : Codecs} {memory : Bytes} {chunk : Chunk} (hcodecs : codecs.Throws)
    {buffer : Bytes} {e : Fault} (he : chunk.decompress codecs memory = (buffer, .error e)) : e.Occurs := by
  unfold Chunk.decompress at he
  split_ifs at he with hlz4 hbz2 hplain
  · rcases hstored : readPointer memory chunk.record.data chunk.record.dataLen with e' | stored
    · simp only [hstored, Prod.mk.injEq, Except.error.injEq] at he
      exact .inr (he.2 ▸ readPointer_error hstored)
    · rw [hstored] at he
      exact .inl (hcodecs.lz4 stored chunk.uncompressedSize e (by simp only [he]))
  · rcases hstored : readPointer memory chunk.record.data chunk.record.dataLen with e' | stored
    · simp only [hstored, Prod.mk.injEq, Except.error.injEq] at he
      exact .inr (he.2 ▸ readPointer_error hstored)
    · rw [hstored] at he
      exact .inl (hcodecs.bz2 stored chunk.uncompressedSize e (by simp only [he]))
  · rcases hcopied : readPointer memory chunk.record.data chunk.uncompressedSize with e' | copied
    · simp only [hcopied, Prod.mk.injEq, Except.error.injEq] at he
      exact .inr (he.2 ▸ readPointer_error hcopied)
    · simp [hcopied] at he
  · simp at he

theorem Chunk.StoredInside.decompress_error {codecs : Codecs} {memory : Bytes} {chunk : Chunk}
    (h : chunk.StoredInside memory) (hcodecs : codecs.Throws) {buffer : Bytes} {e : Fault}
    (he : chunk.decompress codecs memory = (buffer, .error e)) : e.thrown = true := by
  unfold decompress at he
  split_ifs at he with hlz4 hbz2 hplain
  · obtain ⟨stored, hstored⟩ := h.compressed (.inl hlz4)
    rw [hstored] at he
    exact hcodecs.lz4 stored chunk.uncompressedSize e (by simp only [he])
  · obtain ⟨stored, hstored⟩ := h.compressed (.inr hbz2)
    rw [hstored] at he
    exact hcodecs.bz2 stored chunk.uncompressedSize e (by simp only [he])
  · obtain ⟨stored, hstored⟩ := h.plain hplain
    simp [hstored] at he
  · simp at he

namespace Scan

variable {bag : Bag} {codecs : Codecs} {s s' : Scan}

def TurnInside (bag : Bag) (s : Scan) : Prop :=
  ∀ p, s.chunksToParse[s.chunkIter]? = some p →
    match s.currentBuffer with
    | none => ∃ chunk, bag.chunks[p]? = some chunk ∧ chunk.StoredInside bag.bagBytes
    | some buffer => s.processedBytes < s.uncompressedSize →
      RecordInside buffer s.connectionIds s.processedBytes

/-- Within a chunk the condition is exact. -/
theorem turnInside_iff (codecs : Codecs) {buffer : Bytes} (hbuffer : s.currentBuffer = some buffer) :
    s.TurnInside bag ↔ ∀ r, (turn bag codecs s).2 = some r → Acceptable r := by
  unfold TurnInside turn
  rcases hp : s.chunksToParse[s.chunkIter]? with _ | p
  · simp [Acceptable]
  simp only [hbuffer, Option.some.injEq, forall_eq']
  split_ifs with hlt
  · rw [readRecord_acceptable_iff]
    exact ⟨fun h => h hlt, fun h _ => h⟩
  · exact ⟨fun _ => nofun, fun _ h => absurd h hlt⟩

theorem TurnInside.acceptable (h : s.TurnInside bag) (hcodecs : codecs.Throws)
    {r : Except Fault (Option CurrentMessage)} (hr : (turn bag codecs s).2 = some r) :
    Acceptable r := by
  rcases hbuffer : s.currentBuffer with _ | buffer
  swap
  · exact (turnInside_iff codecs hbuffer).1 h r hr
  unfold turn at hr
  rcases hp : s.chunksToParse[s.chunkIter]? with _ | p
  · simp only [hp, Option.some.injEq] at hr
    rw [← hr]
    trivial
  have hinside := h p hp
  simp only [hbuffer] at hinside
  obtain ⟨chunk, hchunk, hstored⟩ := hinside
  simp only [hp, hbuffer, hchunk] at hr
  rcases hat : atIndex (List.replicate chunk.uncompressedSize 0) 0 with e | ⟨⟨⟩⟩
  · simp only [hat, Option.some.injEq] at hr
    rw [← hr]
    exact (atIndex_error hat).1
  simp only [hat] at hr
  rcases hdecompress : chunk.decompress codecs bag.bagBytes with ⟨buffer, e | ⟨⟨⟩⟩⟩
  · simp only [hdecompress, Option.some.injEq] at hr
    rw [← hr]
    exact hstored.decompress_error hcodecs hdecompress
  · simp [hdecompress] at hr

theorem readRecord_error {buffer : Bytes} {e : Fault} (h : s.readRecord buffer = (s', some (.error e))) :
    e.Occurs := by
  unfold readRecord at h
  rcases hscan : scanRecord buffer s.processedBytes with ⟨p, e' | record⟩
  · simp only [hscan, Prod.mk.injEq, Option.some.injEq, Except.error.injEq] at h
    exact h.2 ▸ scanRecord_error hscan
  simp only [hscan] at h
  rcases hheader : readMessageHeader buffer record with e' | header
  · simp only [hheader, Prod.mk.injEq, Option.some.injEq, Except.error.injEq] at h
    exact .inr (h.2 ▸ readMessageHeader_error hheader)
  · simp only [hheader] at h
    split_ifs at h
    · simp at h
    · simp at h
    · simp at h
    · simp only [Prod.mk.injEq, Option.some.injEq, Except.error.injEq] at h
      exact .inl (h.2 ▸ rfl)

theorem turn_error (hcodecs : codecs.Throws) {e : Fault} (h : turn bag codecs s = (s', some (.error e))) :
    e.Occurs := by
  unfold turn at h
  rcases hp : s.chunksToParse[s.chunkIter]? with _ | p
  · simp [hp] at h
  rcases hbuffer : s.currentBuffer with _ | buffer
  · simp only [hp, hbuffer] at h
    rcases hchunk : bag.chunks[p]? with _ | chunk
    · simp only [hchunk, Prod.mk.injEq, Option.some.injEq, Except.error.injEq] at h
      exact .inr h.2.symm
    simp only [hchunk] at h
    rcases hat : atIndex (List.replicate chunk.uncompressedSize 0) 0 with e' | ⟨⟨⟩⟩
    · simp only [hat, Prod.mk.injEq, Option.some.injEq, Except.error.injEq] at h
      exact .inl (h.2 ▸ (atIndex_error hat).1)
    simp only [hat] at h
    rcases hdecompress : chunk.decompress codecs bag.bagBytes with ⟨buffer, e' | ⟨⟨⟩⟩⟩
    · simp only [hdecompress, Prod.mk.injEq, Option.some.injEq, Except.error.injEq] at h
      exact h.2 ▸ hcodecs.decompress_error hdecompress
    · simp [hdecompress] at h
  · simp only [hp, hbuffer] at h
    split_ifs at h
    · exact readRecord_error h
    · simp at h

/-- `readMessage` comes to an end: with a message or without, by an exception, or beyond a buffer. -/
theorem readMessage_error (hcodecs : codecs.Throws) {e : Fault} (h : s.readMessage bag codecs = (s', .error e)) :
    e.Occurs := by
  refine iterate_rule (I := fun _ => True) (Q := fun _ _ r => ∀ e, r = .error e → e.Occurs) ?_ ?_ trivial
    (readMessage_eq h) e rfl
  · rintro s s' r - hturn e rfl
    exact turn_error hcodecs hturn
  · exact fun _ _ => ⟨trivial, fun _ _ h => h⟩

def ReadsInside (bag : Bag) (codecs : Codecs) (s : Scan) : Prop :=
  ∀ s', Comes bag codecs s s' → s'.TurnInside bag

theorem ReadsInside.turn (h : s.ReadsInside bag codecs) (hturn : turn bag codecs s = (s', none)) :
    s'.ReadsInside bag codecs :=
  fun s'' hrest => h s'' (.turn hturn hrest)

/-- The condition on a call is one on its first turn and the rest of the call. -/
theorem readsInside_turn_iff : s.ReadsInside bag codecs ↔
    s.TurnInside bag ∧ ∀ s', Scan.turn bag codecs s = (s', none) → s'.ReadsInside bag codecs := by
  constructor
  · exact fun h => ⟨h s (.refl s), fun s' hturn => h.turn hturn⟩
  · rintro ⟨hnow, hrest⟩ s' hcomes
    cases hcomes with
    | refl => exact hnow
    | turn hturn hcomes => exact hrest _ hturn _ hcomes

theorem readsInside_of_found (hnone : s.currentBuffer = none)
    (hstored : ∀ p ∈ s.chunksToParse[s.chunkIter]?, ∃ chunk ∈ bag.chunks[p]?,
      chunk.StoredInside bag.bagBytes)
    (hopen : (Scan.turn bag codecs s).1.currentBuffer.isSome)
    (hfound : ∃ r ∈ (Scan.turn bag codecs (Scan.turn bag codecs s).1).2, Acceptable r) :
    s.ReadsInside bag codecs := by
  obtain ⟨buffer, hbuffer⟩ := Option.isSome_iff_exists.1 hopen
  obtain ⟨r, hr, hacceptable⟩ := hfound
  rw [readsInside_turn_iff]
  refine ⟨fun p hp => ?_, fun s' hs' => ?_⟩
  · simp only [hnone]
    exact hstored p hp
  · rw [hs'] at hbuffer hr
    rw [readsInside_turn_iff, turnInside_iff codecs hbuffer]
    rw [Option.mem_def] at hr
    refine ⟨fun r' hr' => ?_, fun s'' hs'' => ?_⟩
    · rw [hr] at hr'
      cases hr'
      exact hacceptable
    · simp [hs''] at hr

theorem readRecord_le {buffer : Bytes} {r : Option (Except Fault (Option CurrentMessage))}
    (h : s.readRecord buffer = (s', r)) :
    s.processedBytes ≤ s'.processedBytes ∧ s' = { s with processedBytes := s'.processedBytes } := by
  have hle : s.processedBytes ≤ (scanRecord buffer s.processedBytes).1 := by
    simp only [scanRecord]
    split
    · exact le_rfl
    · split
      · exact Nat.le_add_right _ 4
      · split
        · exact Nat.le_add_right_of_le (Nat.le_add_right _ 4)
        · split <;> simp only <;> omega
  unfold readRecord at h
  rcases hscan : scanRecord buffer s.processedBytes with ⟨p', e | record⟩
  · rw [hscan] at h hle
    cases h
    exact ⟨hle, rfl⟩
  rw [hscan] at h hle
  simp only at h
  rcases hheader : readMessageHeader buffer record with e | header
  · simp only [hheader] at h
    cases h
    exact ⟨hle, rfl⟩
  · simp only [hheader] at h
    split_ifs at h <;> cases h <;> exact ⟨hle, rfl⟩

end Scan

/-- A scan with the number of buffers it has opened and the messages it has found, each with
the number of the buffer it lies in. -/
structure Trace where
  scan : Scan
  buffers : ℕ := 0
  yielded : List (ℕ × CurrentMessage) := []

/-- The calls of `readMessage`: `begin` puts `chunk_iter` to the first chunk before. -/
inductive Read where
  | begin
  | next
  deriving DecidableEq, Repr

def Read.start : Read → Scan → Scan
  | begin, s => { s with chunkIter := 0 }
  | next, s => s

namespace Trace

variable {bag : Bag} {codecs : Codecs} {t t' : Trace}

/-- A turn, which opens a buffer where there is one after it and was none before. -/
def turn (bag : Bag) (codecs : Codecs) (t : Trace) :
    Trace × Option (Except Fault (Option CurrentMessage)) :=
  match t.scan.turn bag codecs with
  | (scan, r) =>
    let buffers := if t.scan.currentBuffer.isNone ∧ scan.currentBuffer.isSome then t.buffers + 1 else t.buffers
    match r with
    | some (.ok (some m)) => ({ scan, buffers, yielded := (buffers, m) :: t.yielded }, r)
    | r => ({ scan, buffers, yielded := t.yielded }, r)

def readMessage (bag : Bag) (codecs : Codecs) (t : Trace) :
    Trace × Except Fault (Option CurrentMessage) :=
  match iterate (turn bag codecs) (t.scan.turnsLeft bag + 1) t with
  | (t, some result) => (t, result)
  | (t, none) => (t, .error .outOfFuel)

def read (bag : Bag) (codecs : Codecs) (call : Read) (t : Trace) :
    Trace × Except Fault (Option CurrentMessage) :=
  readMessage bag codecs { t with scan := call.start t.scan }

theorem scan_turn (bag : Bag) (codecs : Codecs) (t : Trace) :
    t.scan.turn bag codecs = ((t.turn bag codecs).1.scan, (t.turn bag codecs).2) := by
  unfold turn
  rcases t.scan.turn bag codecs with ⟨scan, _ | e | _ | m⟩ <;> rfl

/-- Messages lie in their buffers, and those of one buffer lie apart. -/
structure InRange (t : Trace) : Prop where
  inside : ∀ y ∈ t.yielded, y.2.InBuffer
  apart : t.yielded.Pairwise fun y y' => y.1 = y'.1 → y.2.Apart y'.2

instance (t : Trace) : Decidable t.InRange :=
  decidable_of_iff ((∀ y ∈ t.yielded, y.2.InBuffer) ∧
    t.yielded.Pairwise fun y y' => y.1 = y'.1 → y.2.Apart y'.2)
    ⟨fun h => ⟨h.1, h.2⟩, fun h => ⟨h.inside, h.apart⟩⟩

/-- The messages of the present buffer end where the cursor stands or before. -/
structure Behind (t : Trace) : Prop extends t.InRange where
  numbered : ∀ y ∈ t.yielded, y.1 ≤ t.buffers
  cursor : t.scan.currentBuffer ≠ none → ∀ y ∈ t.yielded, y.1 = t.buffers →
    y.2.messageDataOffset + y.2.messageLen ≤ t.scan.processedBytes

theorem Behind.goes (h : t.Behind) {scan : Scan} (hgoes : scan.currentBuffer ≠ none →
    t.scan.currentBuffer ≠ none ∧ t.scan.processedBytes ≤ scan.processedBytes) :
    Behind { scan, buffers := t.buffers, yielded := t.yielded } := by
  refine ⟨⟨h.inside, h.apart⟩, h.numbered, fun hne y hy heq => ?_⟩
  obtain ⟨hbefore, hle⟩ := hgoes hne
  exact (h.cursor hbefore y hy heq).trans hle

theorem Behind.opens (h : t.Behind) (scan : Scan) :
    Behind { scan, buffers := t.buffers + 1, yielded := t.yielded } := by
  refine ⟨⟨h.inside, h.apart⟩, fun y hy => Nat.le_succ_of_le (h.numbered y hy), fun _ y hy heq => ?_⟩
  have hle := h.numbered y hy
  have hnew : y.1 = t.buffers + 1 := heq
  omega

theorem Behind.finds (h : t.Behind) {scan : Scan} {m : CurrentMessage} (hin : m.InBuffer)
    (hopen : t.scan.currentBuffer ≠ none) (hle : t.scan.processedBytes ≤ scan.processedBytes)
    (hstart : t.scan.processedBytes ≤ m.messageDataOffset)
    (hend : m.messageDataOffset + m.messageLen ≤ scan.processedBytes) :
    Behind { scan, buffers := t.buffers, yielded := (t.buffers, m) :: t.yielded } := by
  have hbehind := h.cursor hopen
  refine ⟨⟨?_, ?_⟩, ?_, fun _ => ?_⟩
  · rw [List.forall_mem_cons]
    exact ⟨hin, h.inside⟩
  · rw [List.pairwise_cons]
    exact ⟨fun y hy heq => .inr ((hbehind y hy heq.symm).trans hstart), h.apart⟩
  · rw [List.forall_mem_cons]
    exact ⟨le_rfl, h.numbered⟩
  · rw [List.forall_mem_cons]
    exact ⟨fun _ => hend, fun y hy heq => (hbehind y hy heq).trans hle⟩

theorem Behind.turn (h : t.Behind) (hinside : t.scan.TurnInside bag) (hcodecs : codecs.Throws)
    {r : Option (Except Fault (Option CurrentMessage))} (hturn : turn bag codecs t = (t', r)) :
    t'.Behind := by
  unfold Trace.turn at hturn
  rcases hscan : t.scan.turn bag codecs with ⟨scan, r'⟩
  simp only [hscan] at hturn
  have hacceptable : ∀ result, r' = some result → Acceptable result := by
    intro result hresult
    apply hinside.acceptable hcodecs (s := t.scan)
    rw [hscan, hresult]
  rcases Scan.turn_cases hscan with ⟨-, rfl, rfl⟩ | ⟨p, -, ⟨hnone, hopen⟩ | ⟨buffer, hbuffer, hread | hleave⟩⟩
  · cases hturn
    rw [if_neg (by simp)]
    exact h.goes fun hne => ⟨hne, le_rfl⟩
  · have hresult : ∀ m, r' ≠ some (.ok (some m)) := by
      rcases hopen with ⟨⟨e, rfl⟩, -⟩ | ⟨_, _, -, -, -, rfl, -⟩ <;> exact nofun
    have hbuffers : (scan.currentBuffer = none ∨ scan.currentBuffer.isSome) := by
      cases scan.currentBuffer <;> simp
    have heq : t' = { scan, buffers := if t.scan.currentBuffer.isNone ∧ scan.currentBuffer.isSome then
        t.buffers + 1 else t.buffers, yielded := t.yielded } := by
      split at hturn
      · exact absurd rfl (hresult _)
      · exact (Prod.mk.inj hturn).1.symm
    rw [heq]
    rcases hbuffers with hclosed | hopened
    · rw [if_neg (by simp [hclosed])]
      exact h.goes fun hne => absurd hclosed hne
    · rw [if_pos (by simp [hnone, hopened])]
      exact h.opens scan
  · obtain ⟨hle, hsame⟩ := Scan.readRecord_le hread.2
    have hbuffer' : scan.currentBuffer = some buffer := by rw [hsame, ← hbuffer]
    simp only [hbuffer, Option.isNone_some, Bool.false_eq_true, false_and, if_false] at hturn
    split at hturn
    · cases hturn
      obtain ⟨hstart, hend⟩ := Scan.readRecord_found hread.2
      exact h.finds (hacceptable _ rfl) (by simp [hbuffer]) hle hstart hend.ge
    · cases hturn
      exact h.goes fun _ => ⟨by simp [hbuffer], hle⟩
  · obtain ⟨-, rfl, rfl⟩ := hleave
    cases hturn
    simpa using h.goes fun hne => absurd rfl hne

theorem Behind.readMessage (h : t.Behind) (hinside : t.scan.ReadsInside bag codecs)
    (hcodecs : codecs.Throws) :
    (t.readMessage bag codecs).1.Behind ∧ Acceptable (t.readMessage bag codecs).2 := by
  have hscan := @Scan.readMessage_eq bag codecs t.scan _ _ rfl
  rw [iterate_map (scan_turn bag codecs)] at hscan
  unfold Trace.readMessage
  rcases hrun : iterate (Trace.turn bag codecs) (t.scan.turnsLeft bag + 1) t with ⟨t', _ | r⟩
  · simp [hrun] at hscan
  refine iterate_rule (I := fun t => t.Behind ∧ t.scan.ReadsInside bag codecs)
    (Q := fun _ t' r => t'.Behind ∧ Acceptable r) ?_ ?_ ⟨h, hinside⟩ hrun
  · rintro t t' r ⟨h, hinside⟩ hturn
    have hnow := hinside _ (.refl _)
    refine ⟨h.turn hnow hcodecs hturn, hnow.acceptable hcodecs ?_⟩
    rw [scan_turn, hturn]
  · rintro t t' ⟨h, hinside⟩ hturn
    have hnext : t.scan.turn bag codecs = (t'.scan, none) := by rw [scan_turn, hturn]
    exact ⟨⟨h.turn (hinside _ (.refl _)) hcodecs hturn, hinside.turn hnext⟩, fun _ _ h => h⟩

theorem Behind.read (h : t.Behind) (hcodecs : codecs.Throws) (call : Read)
    (hinside : (call.start t.scan).ReadsInside bag codecs) :
    (read bag codecs call t).1.Behind ∧ Acceptable (read bag codecs call t).2 := by
  have hstart : Behind { t with scan := call.start t.scan } := by
    refine ⟨⟨h.inside, h.apart⟩, h.numbered, ?_⟩
    cases call with
    | begin => exact h.cursor
    | next => exact h.cursor
  exact hstart.readMessage hinside hcodecs

/-! ### Calls in any order -/

/-- Before every one of the calls, the condition on it holds. -/
def CallsInside (bag : Bag) (codecs : Codecs) : Trace → List Read → Prop
  | _, [] => True
  | t, call :: calls =>
    (call.start t.scan).ReadsInside bag codecs ∧ CallsInside bag codecs (t.read bag codecs call).1 calls

/-- After every one of the calls, it has ended as it should, and the messages up to then lie
in their buffers, and apart. -/
def StaysInRange (bag : Bag) (codecs : Codecs) : Trace → List Read → Prop
  | t, [] => t.InRange
  | t, call :: calls =>
    t.InRange ∧ Acceptable (t.read bag codecs call).2 ∧
      StaysInRange bag codecs (t.read bag codecs call).1 calls

instance decidableStaysInRange (bag : Bag) (codecs : Codecs) :
    (t : Trace) → (calls : List Read) → Decidable (StaysInRange bag codecs t calls)
  | t, [] => inferInstanceAs (Decidable t.InRange)
  | t, call :: calls =>
    have := decidableStaysInRange bag codecs (t.read bag codecs call).1 calls
    inferInstanceAs (Decidable (_ ∧ _ ∧ _))

theorem Behind.staysInRange (h : t.Behind) (hcodecs : codecs.Throws) {calls : List Read}
    (hcalls : CallsInside bag codecs t calls) : StaysInRange bag codecs t calls := by
  induction calls generalizing t with
  | nil => exact h.toInRange
  | cons call calls ih =>
    obtain ⟨hcall, hrest⟩ := hcalls
    obtain ⟨hbehind, hacceptable⟩ := h.read hcodecs call hcall
    exact ⟨h.toInRange, hacceptable, ih hbehind hrest⟩

end Trace

/-- Whatever the buffers hold: as long as no record that is come to leads out of its buffer,
every call ends in an exception, at the end or with a message in its buffer that no other
message of it overlaps. -/
theorem Trace.staysInRange_of_callsInside {bag : Bag} {codecs : Codecs} (hcodecs : codecs.Throws)
    (s : Scan) (calls : List Read) (hcalls : CallsInside bag codecs { scan := s } calls) :
    StaysInRange bag codecs { scan := s } calls := by
  have hstart : Behind { scan := s } := ⟨⟨by simp, List.Pairwise.nil⟩, by simp, by simp⟩
  exact hstart.staysInRange hcodecs hcalls

theorem Scan.readsInside_sample :
    (View.plainWrapper 0 (sampleOpened false)).scan.ReadsInside (sampleOpened false)
      sampleEnv.codecs :=
  readsInside_of_found (by decide +kernel) (by decide +kernel) (by decide +kernel) (by decide +kernel)

theorem Trace.callsInside_begin {bag : Bag} {codecs : Codecs}
    (h : (View.plainWrapper 0 bag).scan.ReadsInside bag codecs) :
    CallsInside bag codecs { scan := (View.plainWrapper 0 bag).scan } [.begin] :=
  ⟨h, trivial⟩

theorem Trace.staysInRange_sample :
    StaysInRange (sampleOpened false) sampleEnv.codecs
      { scan := (View.plainWrapper 0 (sampleOpened false)).scan } [.begin] := by
  refine staysInRange_of_callsInside ⟨?_, ?_⟩ _ _ (callsInside_begin Scan.readsInside_sample)
  · rintro stored size e h
    cases h
    rfl
  · rintro stored size e h
    cases h
    rfl

def patchedBag (p : ℕ) (byte : UInt8) : Bag :=
  match Bag.ofBytes ((sampleBag false).encode.set p byte) with
  | .ok bag => bag
  | .error _ => { bagBytes := [] }

/-- The length of the payload leads one byte behind the end of the chunk. -/
theorem Trace.not_staysInRange_patched :
    ¬ StaysInRange (patchedBag 181 3) sampleEnv.codecs
      { scan := (View.plainWrapper 0 (patchedBag 181 3)).scan } [.begin] := by
  decide +kernel

end Embag
