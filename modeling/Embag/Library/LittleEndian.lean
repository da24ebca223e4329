import Mathlib.Data.List.Infix
import Mathlib.Tactic.Ring
import Mathlib.Tactic.NormNum

/-! Fixed-width little-endian numbers in byte lists, and the position of a block
inside a longer list. Nothing here depends on the program being verified. -/

namespace LittleEndian

/-- The `w` bytes of `n`, least significant first; higher bits are dropped. -/
def le : ℕ → ℕ → List UInt8
  | 0, _ => []
  | w + 1, n => UInt8.ofNat (n % 256) :: le w (n / 256)

/-- The number a byte list spells, least significant byte first. -/
def ofLE : List UInt8 → ℕ
  | [] => 0
  | b :: bs => b.toNat + 256 * ofLE bs

@[simp] theorem length_le (w n : ℕ) : (le w n).length = w := by
  induction w generalizing n with
  | zero => rfl
  | succ w ih => simp only [le, List.length_cons, ih]

theorem le_ne_nil {w : ℕ} (hw : 0 < w) (n : ℕ) : le w n ≠ [] := by
  intro h
  have hl := length_le w n
  rw [h] at hl
  simp only [List.length_nil] at hl
  omega

theorem ofLE_le_mod (w n : ℕ) : ofLE (le w n) = n % 256 ^ w := by
  induction w generalizing n with
  | zero => simp [le, ofLE, Nat.mod_one]
  | succ w ih =>
    have hb : (UInt8.ofNat (n % 256)).toNat = n % 256 :=
      UInt8.toNat_ofNat_of_lt' (Nat.mod_lt _ (by norm_num))
    rw [le, ofLE, ih, hb, pow_succ', Nat.mod_mul]

/-- Reading back what was written, for a number that fits the width. -/
theorem ofLE_le {w n : ℕ} (h : n < 256 ^ w) : ofLE (le w n) = n := by
  rw [ofLE_le_mod, Nat.mod_eq_of_lt h]

theorem ofLE_lt (bs : List UInt8) : ofLE bs < 256 ^ bs.length := by
  induction bs with
  | nil => simp [ofLE]
  | cons b bs ih =>
    have hb : b.toNat < 256 := b.toNat_lt
    rw [ofLE, List.length_cons, pow_succ]
    omega

theorem le_ofLE (bs : List UInt8) : le bs.length (ofLE bs) = bs := by
  induction bs with
  | nil => rfl
  | cons b bs ih =>
    have hb : b.toNat < 256 := b.toNat_lt
    have hmod : (b.toNat + 256 * ofLE bs) % 256 = b.toNat := by omega
    have hdiv : (b.toNat + 256 * ofLE bs) / 256 = ofLE bs := by omega
    rw [List.length_cons, ofLE, le, hmod, hdiv, ih, UInt8.ofNat_toNat]

theorem le_mod_ofLE {bs : List UInt8} {w : ℕ} (h : bs.length = w) : le w (ofLE bs % 2 ^ (8 * w)) = bs := by
  subst h
  have hlt : ofLE bs < 2 ^ (8 * bs.length) := pow_mul 2 8 bs.length ▸ ofLE_lt bs
  rw [Nat.mod_eq_of_lt hlt, le_ofLE]

/-- The block `x` stands in `bs` at offset `p`. -/
def OccursAt (x bs : List UInt8) (p : ℕ) : Prop :=
  p ≤ bs.length ∧ x <+: bs.drop p

theorem occursAt_of_append (pre x suf : List UInt8) :
    OccursAt x (pre ++ x ++ suf) pre.length := by
  refine ⟨by simp only [List.length_append]; omega, suf, ?_⟩
  rw [List.append_assoc, List.drop_left]

theorem occursAt_self (x : List UInt8) : OccursAt x x 0 :=
  ⟨Nat.zero_le _, by rw [List.drop_zero]⟩

theorem OccursAt.add_length_le {x bs : List UInt8} {p : ℕ} (h : OccursAt x bs p) :
    p + x.length ≤ bs.length := by
  have hl := h.2.length_le
  have hp := h.1
  rw [List.length_drop] at hl
  omega

theorem OccursAt.unique {x y bs : List UInt8} {p : ℕ} (hx : OccursAt x bs p) (hy : OccursAt y bs p)
    (hlen : x.length = y.length) : x = y := by
  rw [List.prefix_iff_eq_take.1 hx.2, List.prefix_iff_eq_take.1 hy.2, hlen]

theorem occursAt_append {x y bs : List UInt8} {p : ℕ} :
    OccursAt (x ++ y) bs p ↔ OccursAt x bs p ∧ OccursAt y bs (p + x.length) := by
  constructor
  · intro h
    obtain ⟨t, ht⟩ := h.2
    have hx : OccursAt x bs p := ⟨h.1, y ++ t, by rw [← ht, List.append_assoc]⟩
    refine ⟨hx, hx.add_length_le, t, ?_⟩
    rw [← List.drop_drop, ← ht, List.append_assoc, List.drop_left]
  · rintro ⟨hx, hy⟩
    obtain ⟨t, ht⟩ := hx.2
    obtain ⟨u, hu⟩ := hy.2
    rw [← List.drop_drop, ← ht, List.drop_left] at hu
    exact ⟨hx.1, u, by rw [List.append_assoc, hu, ht]⟩

theorem OccursAt.left {x y bs : List UInt8} {p : ℕ} (h : OccursAt (x ++ y) bs p) :
    OccursAt x bs p := (occursAt_append.1 h).1

theorem OccursAt.right {x y bs : List UInt8} {p : ℕ} (h : OccursAt (x ++ y) bs p) :
    OccursAt y bs (p + x.length) := (occursAt_append.1 h).2

theorem OccursAt.of_flatMap {α : Type} {f : α → List UInt8} {done rest : List α} {x : α}
    {bs : List UInt8} {p : ℕ} (h : OccursAt ((done ++ x :: rest).flatMap f) bs p) :
    OccursAt (f x) bs (p + (done.flatMap f).length) := by
  rw [List.flatMap_append, List.flatMap_cons] at h
  exact h.right.left

/-- The `n` bytes at offset `p`, when the list has that many. -/
def sliceAt (bs : List UInt8) (p n : ℕ) : Option (List UInt8) :=
  if p + n ≤ bs.length then some ((bs.drop p).take n) else none

theorem occursAt_of_sliceAt {x bs : List UInt8} {p n : ℕ} (h : sliceAt bs p n = some x) : OccursAt x bs p := by
  unfold sliceAt at h
  split_ifs at h with hlen
  cases h
  exact ⟨by omega, List.take_prefix _ _⟩

theorem sliceAt_of_occursAt {x bs : List UInt8} {p : ℕ} (h : OccursAt x bs p) :
    sliceAt bs p x.length = some x := by
  obtain ⟨t, ht⟩ := h.2
  rw [sliceAt, if_pos h.add_length_le, ← ht, List.take_left]

end LittleEndian
