import Embag.RosValue

/-! Times and durations as numbers. One template holds the seconds of both in an unsigned word,
so that it keeps the order of durations of one sign and no sign at all. -/

namespace Embag

open LittleEndian

/-- A result of arithmetic in a `long`; there is none where it overflows. -/
def checkedLong (x : ℤ) : Except Fault ℤ :=
  if -2 ^ 63 ≤ x ∧ x < 2 ^ 63 then .ok x else .error .undefined

namespace TimeValue

def toNsec (t : TimeValue) : Except Fault ℤ := do
  let product ← checkedLong (t.secs.toNat * 1000000000)
  checkedLong (product + t.nsecs.toNat)

def equal (left right : TimeValue) : Bool := left.secs == right.secs && left.nsecs == right.nsecs

def notEqual (left right : TimeValue) : Bool := left.secs != right.secs || left.nsecs != right.nsecs

def less (left right : TimeValue) : Bool :=
  left.secs < right.secs || (left.secs == right.secs && left.nsecs < right.nsecs)

def lessEqual (left right : TimeValue) : Bool :=
  left.secs < right.secs || (left.secs == right.secs && left.nsecs ≤ right.nsecs)

def greater (left right : TimeValue) : Bool :=
  left.secs > right.secs || (left.secs == right.secs && left.nsecs > right.nsecs)

def greaterEqual (left right : TimeValue) : Bool :=
  left.secs > right.secs || (left.secs == right.secs && left.nsecs ≥ right.nsecs)

def nanoseconds (t : TimeValue) : ℤ := t.secs.toNat * 1000000000 + t.nsecs.toNat

/-- The product and the sum of two words have room in a `long`. -/
theorem toNsec_eq (t : TimeValue) : t.toNsec = .ok t.nanoseconds := by
  have hsecs := t.secs.toNat_lt
  have hnsecs := t.nsecs.toNat_lt
  have hproduct : checkedLong (t.secs.toNat * 1000000000) = .ok (t.secs.toNat * 1000000000) :=
    if_pos ⟨by omega, by omega⟩
  rw [toNsec, hproduct, ok_bind]
  exact if_pos ⟨by omega, by omega⟩

section Order

variable {left right : TimeValue} (hleft : left.nsecs.toNat < 1000000000)
  (hright : right.nsecs.toNat < 1000000000)

include hleft hright

theorem equal_iff : left.equal right = true ↔ left.nanoseconds = right.nanoseconds := by
  simp only [equal, nanoseconds, Bool.and_eq_true, beq_iff_eq, ← UInt32.toNat_inj]
  omega

theorem notEqual_iff : left.notEqual right = true ↔ left.nanoseconds ≠ right.nanoseconds := by
  simp only [notEqual, nanoseconds, Bool.or_eq_true, bne_iff_ne, ne_eq, ← UInt32.toNat_inj]
  omega

theorem less_iff : left.less right = true ↔ left.nanoseconds < right.nanoseconds := by
  simp only [less, nanoseconds, Bool.or_eq_true, Bool.and_eq_true, decide_eq_true_eq, beq_iff_eq,
    UInt32.lt_iff_toNat_lt, ← UInt32.toNat_inj]
  omega

theorem lessEqual_iff : left.lessEqual right = true ↔ left.nanoseconds ≤ right.nanoseconds := by
  simp only [lessEqual, nanoseconds, Bool.or_eq_true, Bool.and_eq_true, decide_eq_true_eq, beq_iff_eq,
    UInt32.lt_iff_toNat_lt, UInt32.le_iff_toNat_le, ← UInt32.toNat_inj]
  omega

theorem greater_iff : left.greater right = true ↔ left.nanoseconds > right.nanoseconds := by
  simp only [greater, nanoseconds, Bool.or_eq_true, Bool.and_eq_true, decide_eq_true_eq, beq_iff_eq,
    gt_iff_lt, UInt32.lt_iff_toNat_lt, ← UInt32.toNat_inj]
  omega

theorem greaterEqual_iff : left.greaterEqual right = true ↔ left.nanoseconds ≥ right.nanoseconds := by
  simp only [greaterEqual, nanoseconds, Bool.or_eq_true, Bool.and_eq_true, decide_eq_true_eq, beq_iff_eq,
    gt_iff_lt, ge_iff_le, UInt32.lt_iff_toNat_lt, UInt32.le_iff_toNat_le, ← UInt32.toNat_inj]
  omega

end Order

end TimeValue

/-- A duration as ROS has it: seconds with a sign, and nanoseconds forward from these. -/
structure RosDuration where
  secs : ℤ
  nsecs : ℤ
  secs_ge : -2 ^ 31 ≤ secs
  secs_lt : secs < 2 ^ 31
  nsecs_nonneg : 0 ≤ nsecs
  nsecs_lt : nsecs < 1000000000

namespace RosDuration

def encode (d : RosDuration) : Bytes :=
  le 4 (d.secs % 2 ^ 32).toNat ++ le 4 (d.nsecs % 2 ^ 32).toNat

def nanoseconds (d : RosDuration) : ℤ := d.secs * 1000000000 + d.nsecs

/-- What was read of two durations has their numbers and compares as they do. -/
structure SignKept (d d' : RosDuration) (t t' : TimeValue) : Prop where
  toNsec : t.toNsec = .ok d.nanoseconds
  toNsec' : t'.toNsec = .ok d'.nanoseconds
  equal : t.equal t' = true ↔ d.nanoseconds = d'.nanoseconds
  notEqual : t.notEqual t' = true ↔ d.nanoseconds ≠ d'.nanoseconds
  less : t.less t' = true ↔ d.nanoseconds < d'.nanoseconds
  lessEqual : t.lessEqual t' = true ↔ d.nanoseconds ≤ d'.nanoseconds
  greater : t.greater t' = true ↔ d.nanoseconds > d'.nanoseconds
  greaterEqual : t.greaterEqual t' = true ↔ d.nanoseconds ≥ d'.nanoseconds

/-- The value of a duration that stands in a message, with bytes before and behind it. -/
def value (d : RosDuration) (pre post : Bytes) : RosValue :=
  .primitive .rosDuration ⟨pre.length, some (pre ++ d.encode ++ post)⟩

def words (d : RosDuration) : TimeValue := ⟨UInt32.ofNat (d.secs % 2 ^ 32).toNat, UInt32.ofNat (d.nsecs % 2 ^ 32).toNat⟩

theorem words_toNat (d : RosDuration) :
    d.words.secs.toNat = (d.secs % 2 ^ 32).toNat ∧ d.words.nsecs.toNat = (d.nsecs % 2 ^ 32).toNat := by
  have hword : ∀ x : ℤ, (UInt32.ofNat (x % 2 ^ 32).toNat).toNat = (x % 2 ^ 32).toNat := by
    intro x
    apply UInt32.toNat_ofNat_of_lt'
    have hlt := Int.emod_lt_of_pos x (show (0 : ℤ) < 2 ^ 32 by norm_num)
    have hnonneg := Int.emod_nonneg x (show (2 ^ 32 : ℤ) ≠ 0 by norm_num)
    change _ < 2 ^ 32
    omega
  exact ⟨hword d.secs, hword d.nsecs⟩

theorem as_value (d : RosDuration) (pre post : Bytes) :
    (d.value pre post).as .rosDuration = .ok (.duration d.words) := by
  have hencode : d.encode = le 4 d.words.secs.toNat ++ le 4 d.words.nsecs.toNat := by
    rw [d.words_toNat.1, d.words_toNat.2]
    rfl
  have hoccurs := occursAt_of_append pre d.encode post
  have hlength : d.encode.length = 8 := by
    rw [encode, List.length_append, length_le, length_le]
  have hat := atIndex_of_occursAt (List.ne_nil_of_length_eq_add_one hlength) hoccurs
  have hread := readRaw_of_occursAt hoccurs
  rw [hlength] at hread
  rw [value, RosValue.as, if_neg (by rw [RosValue.getType_primitive]; decide)]
  simp only [primitiveTypeToSize, ok_bind, RosValue.getPrimitive, hat, hread, Scalar.ofBytes]
  rw [hencode, TimeValue.ofBytes_le]

/-- A negative duration is read 2 ^ 32 seconds too late. -/
theorem nanoseconds_words (d : RosDuration) :
    d.words.nanoseconds = d.nanoseconds + (if d.secs < 0 then 2 ^ 32 * 1000000000 else 0) := by
  have hge := d.secs_ge
  have hlt := d.secs_lt
  have hnonneg := d.nsecs_nonneg
  have hnlt := d.nsecs_lt
  rw [TimeValue.nanoseconds, nanoseconds, d.words_toNat.1, d.words_toNat.2]
  split_ifs <;> omega

theorem nsecs_words (d : RosDuration) : d.words.nsecs.toNat < 1000000000 := by
  have hnonneg := d.nsecs_nonneg
  have hlt := d.nsecs_lt
  rw [d.words_toNat.2]
  omega

theorem signKept_of_nonneg {d d' : RosDuration} (h : 0 ≤ d.secs) (h' : 0 ≤ d'.secs) :
    SignKept d d' d.words d'.words := by
  have hn := d.nanoseconds_words
  have hn' := d'.nanoseconds_words
  rw [if_neg (by omega), add_zero] at hn hn'
  refine ⟨?_, ?_, ?_, ?_, ?_, ?_, ?_, ?_⟩
  · rw [TimeValue.toNsec_eq, hn]
  · rw [TimeValue.toNsec_eq, hn']
  · rw [TimeValue.equal_iff d.nsecs_words d'.nsecs_words, hn, hn']
  · rw [TimeValue.notEqual_iff d.nsecs_words d'.nsecs_words, hn, hn']
  · rw [TimeValue.less_iff d.nsecs_words d'.nsecs_words, hn, hn']
  · rw [TimeValue.lessEqual_iff d.nsecs_words d'.nsecs_words, hn, hn']
  · rw [TimeValue.greater_iff d.nsecs_words d'.nsecs_words, hn, hn']
  · rw [TimeValue.greaterEqual_iff d.nsecs_words d'.nsecs_words, hn, hn']

theorem secs_nonneg_of_toNsec {d : RosDuration} (h : d.words.toNsec = .ok d.nanoseconds) : 0 ≤ d.secs := by
  by_contra hneg
  rw [TimeValue.toNsec_eq, Except.ok.injEq, d.nanoseconds_words, if_pos (by omega)] at h
  omega

/-- Two durations read from messages keep their numbers and their order if neither is negative. -/
theorem signKept_iff (d d' : RosDuration) (pre post pre' post' : Bytes) :
    (∃ t t', (d.value pre post).as .rosDuration = .ok (.duration t) ∧
        (d'.value pre' post').as .rosDuration = .ok (.duration t') ∧ SignKept d d' t t') ↔
      0 ≤ d.secs ∧ 0 ≤ d'.secs := by
  rw [as_value, as_value]
  constructor
  · rintro ⟨t, t', ht, ht', h⟩
    cases ht
    cases ht'
    exact ⟨secs_nonneg_of_toNsec h.toNsec, secs_nonneg_of_toNsec h.toNsec'⟩
  · rintro ⟨hd, hd'⟩
    exact ⟨_, _, rfl, rfl, signKept_of_nonneg hd hd'⟩

/-- One second back in time, and no time. -/
theorem not_signKept_sample :
    ¬ ∃ t t', ((⟨-1, 0, by decide, by decide, by decide, by decide⟩ : RosDuration).value [] []).as
          .rosDuration = .ok (.duration t) ∧
      ((⟨0, 0, by decide, by decide, by decide, by decide⟩ : RosDuration).value [] []).as .rosDuration =
          .ok (.duration t') ∧
      SignKept ⟨-1, 0, by decide, by decide, by decide, by decide⟩
        ⟨0, 0, by decide, by decide, by decide, by decide⟩ t t' := by
  rintro ⟨t, t', ht, ht', h⟩
  rw [as_value] at ht ht'
  cases ht
  cases ht'
  have hless := h.less.2 (by decide)
  revert hless
  decide

end RosDuration

end Embag
