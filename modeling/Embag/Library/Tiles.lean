import Mathlib.Order.Interval.Set.Basic

/-! Slices that tile an interval of positions: the slices of a set of owners are apart,
and together they are the interval. Each owner lies before its slice, so that the owners
and their slices are a forest. -/

structure Tiles (slice : ℕ → ℕ → Prop) (owners : Set ℕ) (lo hi : ℕ) : Prop where
  inside : ∀ j ∈ owners, ∀ k, slice j k → lo ≤ k ∧ k < hi ∧ j < k
  covers : ∀ k, lo ≤ k → k < hi → ∃ j ∈ owners, slice j k
  disjoint : ∀ i ∈ owners, ∀ j ∈ owners, ∀ k, slice i k → slice j k → i = j

namespace Tiles

variable {slice slice' : ℕ → ℕ → Prop} {owners owners' : Set ℕ} {lo mid hi : ℕ}

theorem congr (h : Tiles slice owners lo hi) (hsame : ∀ j ∈ owners, ∀ k, slice j k ↔ slice' j k) :
    Tiles slice' owners lo hi where
  inside j hj k hk := h.inside j hj k ((hsame j hj k).2 hk)
  covers k hlo hhi := by
    obtain ⟨j, hj, hk⟩ := h.covers k hlo hhi
    exact ⟨j, hj, (hsame j hj k).1 hk⟩
  disjoint i hi j hj k hik hjk := h.disjoint i hi j hj k ((hsame i hi k).2 hik) ((hsame j hj k).2 hjk)

theorem empty (h : ∀ j ∈ owners, ∀ k, ¬ slice j k) : Tiles slice owners lo lo where
  inside j hj k hk := absurd hk (h j hj k)
  covers _ hlo hhi := absurd hhi (Nat.not_lt.2 hlo)
  disjoint i hi _ _ k hik := absurd hik (h i hi k)

theorem single {j : ℕ} (hj : j < lo) (h : ∀ k, slice j k ↔ lo ≤ k ∧ k < hi) : Tiles slice {j} lo hi where
  inside i hi k hk := by
    obtain rfl := Set.mem_singleton_iff.1 hi
    obtain ⟨hlo, hhi⟩ := (h k).1 hk
    exact ⟨hlo, hhi, Nat.lt_of_lt_of_le hj hlo⟩
  covers k hlo hhi := ⟨j, rfl, (h k).2 ⟨hlo, hhi⟩⟩
  disjoint i hi i' hi' k _ _ := by rw [Set.mem_singleton_iff.1 hi, Set.mem_singleton_iff.1 hi']

/-- Neighbouring intervals; an owner of both would have slices in both. -/
theorem append (h : Tiles slice owners lo mid) (h' : Tiles slice owners' mid hi) (hlo : lo ≤ mid)
    (hhi : mid ≤ hi) : Tiles slice (owners ∪ owners') lo hi where
  inside j hj k hk := by
    rcases hj with hj | hj
    · obtain ⟨h1, h2, h3⟩ := h.inside j hj k hk
      exact ⟨h1, Nat.lt_of_lt_of_le h2 hhi, h3⟩
    · obtain ⟨h1, h2, h3⟩ := h'.inside j hj k hk
      exact ⟨hlo.trans h1, h2, h3⟩
  covers k hk hk' := by
    by_cases hmid : k < mid
    · obtain ⟨j, hj, hjk⟩ := h.covers k hk hmid
      exact ⟨j, .inl hj, hjk⟩
    · obtain ⟨j, hj, hjk⟩ := h'.covers k (Nat.not_lt.1 hmid) hk'
      exact ⟨j, .inr hj, hjk⟩
  disjoint i hi j hj k hik hjk := by
    rcases hi with hi | hi <;> rcases hj with hj | hj
    · exact h.disjoint i hi j hj k hik hjk
    · have hleft := (h.inside i hi k hik).2.1
      have hright := (h'.inside j hj k hjk).1
      omega
    · have hleft := (h.inside j hj k hjk).2.1
      have hright := (h'.inside i hi k hik).1
      omega
    · exact h'.disjoint i hi j hj k hik hjk

end Tiles
