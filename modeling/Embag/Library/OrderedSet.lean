import Mathlib.Data.List.Sort

/-! Sets that are kept in the order of a key, of which an element with the key of another is
left out. -/

namespace OrderedSet

variable {α κ : Type} [LinearOrder κ] (key : α → κ)

def emplace (a : α) : List α → List α
  | [] => [a]
  | b :: l =>
    if key a < key b then a :: b :: l
    else if key b < key a then b :: emplace a l
    else b :: l

def ofList (l : List α) : List α := l.foldl (fun set a => emplace key a set) []

/-- What is kept has its keys in strictly increasing order. -/
def Ordered (l : List α) : Prop := l.Pairwise fun a b => key a < key b

variable {key} {a b : α} {l l' : List α}

theorem mem_of_mem_emplace (h : b ∈ emplace key a l) : b = a ∨ b ∈ l := by
  induction l with
  | nil => simpa [emplace] using h
  | cons c l ih =>
    rw [emplace] at h
    split_ifs at h
    · simpa using h
    · rcases List.mem_cons.1 h with rfl | h
      · simp
      · rcases ih h with rfl | h
        · simp
        · simp [h]
    · simp [h]

theorem mem_emplace_of_mem (h : b ∈ l) : b ∈ emplace key a l := by
  induction l with
  | nil => simp at h
  | cons c l ih =>
    rw [emplace]
    split_ifs
    · simp [h]
    · rcases List.mem_cons.1 h with rfl | h
      · simp
      · simp [ih h]
    · exact h

theorem exists_mem_emplace (key : α → κ) (a : α) (l : List α) : ∃ b ∈ emplace key a l, key b = key a := by
  induction l with
  | nil => exact ⟨a, by simp [emplace], rfl⟩
  | cons c l ih =>
    rw [emplace]
    split_ifs with h h'
    · exact ⟨a, by simp, rfl⟩
    · obtain ⟨b, hb, hkey⟩ := ih
      exact ⟨b, by simp [hb], hkey⟩
    · exact ⟨c, by simp, le_antisymm (not_lt.1 h) (not_lt.1 h')⟩

theorem ordered_emplace (h : Ordered key l) : Ordered key (emplace key a l) := by
  induction l with
  | nil => exact List.pairwise_singleton _ _
  | cons c l ih =>
    have hl := List.pairwise_cons.1 h
    rw [emplace]
    split_ifs with hac hca
    · refine List.pairwise_cons.2 ⟨fun b hb => ?_, h⟩
      rcases List.mem_cons.1 hb with rfl | hb
      · exact hac
      · exact hac.trans (hl.1 b hb)
    · refine List.pairwise_cons.2 ⟨fun b hb => ?_, ih hl.2⟩
      rcases mem_of_mem_emplace hb with rfl | hb
      · exact hca
      · exact hl.1 b hb
    · exact h

theorem ordered_foldl (h : Ordered key l') :
    Ordered key (l.foldl (fun set a => emplace key a set) l') := by
  induction l generalizing l' with
  | nil => exact h
  | cons a l ih => exact ih (ordered_emplace h)

theorem ordered_ofList (l : List α) : Ordered key (ofList key l) := ordered_foldl .nil

theorem mem_foldl (hinj : ∀ a ∈ l ++ l', ∀ b ∈ l ++ l', key a = key b → a = b) :
    b ∈ l.foldl (fun set a => emplace key a set) l' ↔ b ∈ l ++ l' := by
  induction l generalizing l' with
  | nil => rfl
  | cons a l ih =>
    have hmem : ∀ c, c ∈ emplace key a l' ↔ c = a ∨ c ∈ l' := by
      intro c
      refine ⟨mem_of_mem_emplace, ?_⟩
      rintro (rfl | hc)
      · obtain ⟨d, hd, hkey⟩ := exists_mem_emplace key c l'
        have hd' : d ∈ (c :: l) ++ l' := by
          rcases mem_of_mem_emplace hd with rfl | hd'
          · simp
          · simp [hd']
        have heq : c = d := hinj c (by simp) d hd' hkey.symm
        exact heq ▸ hd
      · exact mem_emplace_of_mem hc
    rw [List.foldl_cons, ih]
    · simp only [List.mem_append, hmem, List.mem_cons]
      tauto
    · intro c hc d hd
      refine hinj c ?_ d ?_
      · simp only [List.mem_append, hmem, List.mem_cons] at hc ⊢
        tauto
      · simp only [List.mem_append, hmem, List.mem_cons] at hd ⊢
        tauto

theorem mem_ofList (hinj : ∀ a ∈ l, ∀ b ∈ l, key a = key b → a = b) : b ∈ ofList key l ↔ b ∈ l := by
  rw [ofList, mem_foldl (by simpa using hinj), List.append_nil]

/-- The order leaves no choice. -/
theorem Ordered.ext (h : Ordered key l) (h' : Ordered key l') (hmem : ∀ a, a ∈ l ↔ a ∈ l') : l = l' := by
  have hanti : Std.Antisymm fun a b : α => key a < key b := ⟨fun _ _ hab hba => absurd hab hba.asymm⟩
  have hirrefl : Std.Irrefl fun a b : α => key a < key b := ⟨fun a => lt_irrefl (key a)⟩
  exact List.Pairwise.eq_of_mem_iff h h' (fun {a} => hmem a)

end OrderedSet
