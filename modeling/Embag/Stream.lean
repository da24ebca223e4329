import Embag.Fault

/-! The input stream a bag is read from, over the bytes of a file or of a string. A read
or a seek past the end puts it in a failed state, in which reads leave their target as it
is, seeks do nothing and the position is -1. -/

namespace Embag

open LittleEndian

structure Stream where
  bytes : Bytes
  pos : ℕ := 0
  failed : Bool := false
  deriving DecidableEq

namespace Stream

/-- `read` into a target of the size that is asked for; what is there is stored. -/
def read (target : Bytes) (s : Stream) : Bytes × Stream :=
  if s.failed then (target, s)
  else
    let got := (s.bytes.drop s.pos).take target.length
    if got.length = target.length then (got, { s with pos := s.pos + target.length })
    else (got ++ target.drop got.length, { s with pos := s.bytes.length, failed := true })

/-- `read` into a `uint32_t` that is 0 -/
def readUInt32 (s : Stream) : ℕ × Stream := (s.read (le 4 0)).map ofLE id

def tellg (s : Stream) : ℤ := if s.failed then -1 else s.pos

def seekBeg (n : ℕ) (s : Stream) : Stream :=
  if s.failed then s
  else if n ≤ s.bytes.length then { s with pos := n } else { s with failed := true }

def seekCur (n : ℕ) (s : Stream) : Stream := s.seekBeg (s.pos + n)

section Good

variable {s : Stream}

theorem read_of_occursAt (hs : s.failed = false) {x : Bytes} (target : Bytes) (hx : x.length = target.length)
    (h : OccursAt x s.bytes s.pos) :
    s.read target = (x, { s with pos := s.pos + x.length }) := by
  obtain ⟨t, ht⟩ := h.2
  have hgot : (s.bytes.drop s.pos).take target.length = x := by
    rw [← ht, ← hx, List.take_left]
  unfold read
  rw [if_neg (by simp [hs])]
  simp only [hgot]
  rw [if_pos hx, ← hx]

theorem readUInt32_of_occursAt (hs : s.failed = false) {n : ℕ} (hn : n < 2 ^ 32)
    (h : OccursAt (le 4 n) s.bytes s.pos) :
    s.readUInt32 = (n, { s with pos := s.pos + 4 }) := by
  have hread : s.read (le 4 0) = (le 4 n, { s with pos := s.pos + (le 4 n).length }) :=
    s.read_of_occursAt hs _ (by simp) h
  rw [length_le] at hread
  rw [readUInt32, hread]
  simp [ofLE_le (show n < 256 ^ 4 by norm_num; exact hn)]

theorem tellg_of_good (hs : s.failed = false) : s.tellg = s.pos := by
  simp [tellg, hs]

theorem seekBeg_of_le (hs : s.failed = false) {n : ℕ} (hn : n ≤ s.bytes.length) :
    s.seekBeg n = { s with pos := n } := by
  simp [seekBeg, hs, hn]

theorem seekCur_of_le (hs : s.failed = false) {n : ℕ} (hn : s.pos + n ≤ s.bytes.length) :
    s.seekCur n = { s with pos := s.pos + n } := by
  rw [seekCur, s.seekBeg_of_le hs hn]

end Good

end Stream

end Embag
