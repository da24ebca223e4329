import Mathlib.Algebra.BigOperators.Group.List.Basic
import Mathlib.Data.List.Induction
import Mathlib.Data.List.Nodup
import Mathlib.Data.Nat.ModEq

/-! Counting by key into a list of keys with their counts, in the order in which the keys are
first met. Counts are numbers below a modulus. -/

namespace Tally

variable {κ : Type} [DecidableEq κ]

/-- The key's own count grows, or the key comes to the end of the list. -/
def add (m : ℕ) (e : κ × ℕ) : List (κ × ℕ) → List (κ × ℕ)
  | [] => [e]
  | d :: t => if d.1 = e.1 then (d.1, (d.2 + e.2) % m) :: t else d :: add m e t

def ofList (m : ℕ) (l : List (κ × ℕ)) : List (κ × ℕ) := l.foldl (fun t e => add m e t) []

def total (l : List (κ × ℕ)) (k : κ) : ℕ := ((l.filter fun e => e.1 = k).map Prod.snd).sum

variable {m : ℕ} {e d : κ × ℕ} {k : κ} {t l l' : List (κ × ℕ)}

theorem total_cons : total (e :: l) k = (if e.1 = k then e.2 else 0) + total l k := by
  by_cases h : e.1 = k <;> simp [total, h]

theorem total_append : total (l ++ l') k = total l k + total l' k := by
  simp [total]

theorem total_perm (h : l.Perm l') (k : κ) : total l k = total l' k :=
  ((h.filter _).map _).sum_eq

theorem total_of_notMem (h : k ∉ t.map Prod.fst) : total t k = 0 := by
  induction t with
  | nil => rfl
  | cons d t ih =>
    rw [List.map_cons, List.mem_cons, not_or] at h
    rw [total_cons, ih h.2, if_neg (Ne.symm h.1)]

theorem total_of_mem (h : (t.map Prod.fst).Nodup) (hd : d ∈ t) : total t d.1 = d.2 := by
  induction t with
  | nil => simp at hd
  | cons e t ih =>
    rw [List.map_cons, List.nodup_cons] at h
    rw [total_cons]
    rcases List.mem_cons.1 hd with rfl | hd
    · rw [if_pos rfl, total_of_notMem h.1, Nat.add_zero]
    · have hne : e.1 ≠ d.1 := fun he => h.1 (he ▸ List.mem_map_of_mem hd)
      rw [if_neg hne, Nat.zero_add, ih h.2 hd]

theorem ofList_append : ofList m (l ++ [e]) = add m e (ofList m l) := by
  simp [ofList]

theorem mem_keys_add : k ∈ (add m e t).map Prod.fst ↔ k = e.1 ∨ k ∈ t.map Prod.fst := by
  induction t with
  | nil => simp [add]
  | cons d t ih =>
    rw [add]
    split_ifs with h
    · simp only [List.map_cons, List.mem_cons, h, or_self_left]
    · simp only [List.map_cons, List.mem_cons, ih, or_left_comm]

theorem nodup_add (h : (t.map Prod.fst).Nodup) : ((add m e t).map Prod.fst).Nodup := by
  induction t with
  | nil => simp [add]
  | cons d t ih =>
    rw [List.map_cons, List.nodup_cons] at h
    rw [add]
    split_ifs with hd
    · simpa using h
    · rw [List.map_cons, List.nodup_cons, mem_keys_add]
      exact ⟨by rintro (h' | h'); exacts [hd h', h.1 h'], ih h.2⟩

theorem total_add (hcount : ∀ d ∈ t, d.2 < m) (he : e.2 < m) :
    (∀ d ∈ add m e t, d.2 < m) ∧ ((t.map Prod.fst).Nodup →
      ∀ k, total (add m e t) k = if e.1 = k then (total t k + e.2) % m else total t k) := by
  induction t with
  | nil =>
    refine ⟨by simpa [add] using he, fun _ k => ?_⟩
    by_cases h : e.1 = k <;> simp [add, total, h, Nat.mod_eq_of_lt he]
  | cons d t ih =>
    rw [List.forall_mem_cons] at hcount
    obtain ⟨hlt, htotal⟩ := ih hcount.2
    rw [add]
    split_ifs with hd
    · refine ⟨?_, fun hnodup k => ?_⟩
      · rw [List.forall_mem_cons]
        exact ⟨Nat.mod_lt _ (by omega), hcount.2⟩
      · rw [List.map_cons, List.nodup_cons] at hnodup
        rw [total_cons, total_cons, ← hd]
        split_ifs with hk
        · rw [← hk, total_of_notMem hnodup.1, Nat.add_zero, Nat.add_zero]
        · rfl
    · refine ⟨?_, fun hnodup k => ?_⟩
      · rw [List.forall_mem_cons]
        exact ⟨hcount.1, hlt⟩
      · rw [List.map_cons, List.nodup_cons] at hnodup
        rw [total_cons, total_cons, htotal hnodup.2]
        split_ifs with hdk hek hek
        · exact absurd (hdk.trans hek.symm) hd
        · rfl
        · rw [Nat.zero_add, Nat.zero_add]
        · rfl

theorem sum_add : ((add m e t).map Prod.snd).sum ≡ (t.map Prod.snd).sum + e.2 [MOD m] ∧
    ((add m e t).map Prod.snd).sum ≤ (t.map Prod.snd).sum + e.2 := by
  induction t with
  | nil => simp [add, Nat.ModEq.refl]
  | cons d t ih =>
    rw [add]
    split_ifs
    · simp only [List.map_cons, List.sum_cons]
      constructor
      · have hmod := (Nat.mod_modEq (d.2 + e.2) m).add_right (t.map Prod.snd).sum
        rwa [Nat.add_right_comm] at hmod
      · have hle := Nat.mod_le (d.2 + e.2) m
        omega
    · simp only [List.map_cons, List.sum_cons, Nat.add_assoc]
      exact ⟨ih.1.add_left _, Nat.add_le_add_left ih.2 _⟩

theorem nodup_ofList (m : ℕ) (l : List (κ × ℕ)) : ((ofList m l).map Prod.fst).Nodup := by
  induction l using List.reverseRecOn with
  | nil => simp [ofList]
  | append_singleton l e ih =>
    rw [ofList_append]
    exact nodup_add ih

theorem mem_keys_ofList : k ∈ (ofList m l).map Prod.fst ↔ k ∈ l.map Prod.fst := by
  induction l using List.reverseRecOn with
  | nil => simp [ofList]
  | append_singleton l e ih =>
    rw [ofList_append, mem_keys_add, ih, List.map_append, List.mem_append, List.map_singleton,
      List.mem_singleton, or_comm]

theorem total_ofList (h : ∀ e ∈ l, e.2 < m) :
    (∀ d ∈ ofList m l, d.2 < m) ∧ ∀ k, total (ofList m l) k = total l k % m := by
  induction l using List.reverseRecOn with
  | nil => simp [ofList, total]
  | append_singleton l e ih =>
    obtain ⟨hlt, htotal⟩ := ih fun d hd => h d (by simp [hd])
    obtain ⟨hlt', htotal'⟩ := total_add hlt (h e (by simp))
    rw [ofList_append]
    refine ⟨hlt', fun k => ?_⟩
    rw [htotal' (nodup_ofList m l), htotal, total_append, total_cons]
    split_ifs
    · simp [total]
    · simp [total]

theorem mem_ofList (h : ∀ e ∈ l, e.2 < m) :
    d ∈ ofList m l ↔ d.1 ∈ l.map Prod.fst ∧ d.2 = total l d.1 % m := by
  have hnodup := nodup_ofList m l
  rw [← mem_keys_ofList (m := m), ← (total_ofList h).2]
  constructor
  · intro hd
    exact ⟨List.mem_map_of_mem hd, (total_of_mem hnodup hd).symm⟩
  · rintro ⟨hkey, hcount⟩
    obtain ⟨e, he, hed⟩ := List.mem_map.1 hkey
    have heq : e = d := by
      apply Prod.ext hed
      rw [hcount, ← hed, total_of_mem hnodup he]
    rwa [← heq]

/-- The order of the entries matters for nothing but the order of the keys. -/
theorem ofList_perm (h : ∀ e ∈ l, e.2 < m) (hperm : l.Perm l') :
    (ofList m l).Perm (ofList m l') := by
  have h' : ∀ e ∈ l', e.2 < m := fun e he => h e (hperm.mem_iff.2 he)
  rw [List.perm_ext_iff_of_nodup (nodup_ofList m l).of_map (nodup_ofList m l').of_map]
  intro d
  rw [mem_ofList h, mem_ofList h', total_perm hperm, (hperm.map _).mem_iff]

theorem sum_ofList : ((ofList m l).map Prod.snd).sum ≡ (l.map Prod.snd).sum [MOD m] ∧
    ((ofList m l).map Prod.snd).sum ≤ (l.map Prod.snd).sum := by
  induction l using List.reverseRecOn with
  | nil => simp [ofList, Nat.ModEq.refl]
  | append_singleton l e ih =>
    have hadd := sum_add (m := m) (e := e) (t := ofList m l)
    rw [ofList_append, List.map_append, List.sum_append]
    simp only [List.map_cons, List.map_nil, List.sum_cons, List.sum_nil, Nat.add_zero]
    exact ⟨hadd.1.trans (ih.1.add_right _), hadd.2.trans (Nat.add_le_add_right ih.2 _)⟩

/-- Counting for each key apart, and for all of them together. -/
theorem sum_countP {α : Type} (f : α → κ) {ks : List κ} (h : ks.Nodup) (l : List α) :
    (ks.map fun k => l.countP fun a => f a = k).sum = l.countP fun a => f a ∈ ks := by
  induction ks with
  | nil => simp
  | cons k ks ih =>
    rw [List.nodup_cons] at h
    rw [List.map_cons, List.sum_cons, ih h.2]
    clear ih
    induction l with
    | nil => rfl
    | cons a l ihl =>
      simp only [List.countP_cons, List.mem_cons, decide_eq_true_eq] at ihl ⊢
      by_cases hk : f a = k
      · have hks : f a ∉ ks := hk ▸ h.1
        simp only [hk, true_or, if_true, hk ▸ hks, if_false]
        omega
      · simp only [hk, false_or, if_false]
        omega

end Tally
