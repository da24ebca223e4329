import Mathlib.Data.List.Forall2
import Mathlib.Logic.Function.Basic
import Mathlib.Order.Defs.PartialOrder

/-! Merging streams by key: at each step some stream gives up its head, one whose key no
other head has a smaller one than. -/

namespace Merge

variable {ι α κ : Type} [DecidableEq ι] [Preorder κ] (key : α → κ)

/-- The output is a merge of the streams; each element stands with the stream it is from. -/
inductive IsMerge : (ι → List α) → List (ι × α) → Prop
  | nil {streams : ι → List α} (empty : ∀ i, streams i = []) : IsMerge streams []
  | cons {streams : ι → List α} {i : ι} {a : α} {rest : List α} {out : List (ι × α)}
    (head : streams i = a :: rest)
    (least : ∀ j b bs, streams j = b :: bs → key a ≤ key b)
    (tail : IsMerge (Function.update streams i rest) out) : IsMerge streams ((i, a) :: out)

variable {key} {streams : ι → List α} {out : List (ι × α)}

theorem IsMerge.filter_eq (h : IsMerge key streams out) (i : ι) :
    (out.filter fun x => x.1 = i).map Prod.snd = streams i := by
  induction h with
  | nil empty => simp [empty]
  | @cons streams j a rest out head least tail ih =>
    by_cases hij : j = i
    · subst hij
      rw [List.filter_cons_of_pos (by simp), List.map_cons, ih, Function.update_self, head]
    · rw [List.filter_cons_of_neg (by simpa using hij), ih, Function.update_of_ne (Ne.symm hij)]

theorem IsMerge.mem (h : IsMerge key streams out) {x : ι × α} (hx : x ∈ out) :
    x.2 ∈ streams x.1 := by
  rw [← h.filter_eq x.1]
  exact List.mem_map_of_mem (List.mem_filter.2 ⟨hx, by simp⟩)

theorem IsMerge.single (h : IsMerge key streams out) {i : ι} (hi : ∀ j, j ≠ i → streams j = []) :
    out.map Prod.snd = streams i := by
  have hall : ∀ x ∈ out, x.1 = i := by
    intro x hx
    by_contra hne
    have hmem := h.mem hx
    rw [hi x.1 hne] at hmem
    cases hmem
  rw [← h.filter_eq i, List.filter_eq_self.2 fun x hx => decide_eq_true (hall x hx)]

theorem IsMerge.pairwise (h : IsMerge key streams out)
    (hsorted : ∀ i, (streams i).Pairwise fun a b => key a ≤ key b) :
    out.Pairwise fun x y => key x.2 ≤ key y.2 := by
  induction h with
  | nil empty => exact .nil
  | @cons streams i a rest out head least tail ih =>
    have hrest : ∀ j, (Function.update streams i rest j).Pairwise fun a b => key a ≤ key b := by
      intro j
      by_cases hj : j = i
      · subst hj
        have hi := hsorted j
        rw [head] at hi
        rw [Function.update_self]
        exact (List.pairwise_cons.1 hi).2
      · rw [Function.update_of_ne hj]
        exact hsorted j
    -- what is left of a stream stands behind a head, and no head is less than `a`
    have hleast : ∀ j, ∀ b ∈ streams j, key a ≤ key b := by
      intro j b hb
      have hj := hsorted j
      cases hstream : streams j with
      | nil => simp [hstream] at hb
      | cons c cs =>
        rw [hstream] at hb hj
        rcases List.mem_cons.1 hb with rfl | hb
        · exact least j _ _ hstream
        · exact le_trans (least j _ _ hstream) ((List.pairwise_cons.1 hj).1 b hb)
    refine List.pairwise_cons.2 ⟨fun x hx => hleast x.1 x.2 ?_, ih hrest⟩
    have hmem := tail.mem hx
    by_cases hj : x.1 = i
    · rw [hj, Function.update_self] at hmem
      rw [hj, head]
      exact List.mem_cons_of_mem _ hmem
    · rwa [Function.update_of_ne hj] at hmem

/-- Streams that are related, by a relation that keeps the key, have merges that are. -/
theorem IsMerge.exists_forall₂ {β : Type} {key' : β → κ} {R : α → β → Prop} {streams' : ι → List β}
    (h : IsMerge key streams out) (hkey : ∀ a b, R a b → key' b = key a)
    (hrel : ∀ i, List.Forall₂ R (streams i) (streams' i)) :
    ∃ out', IsMerge key' streams' out' ∧ List.Forall₂ (fun x y => y.1 = x.1 ∧ R x.2 y.2) out out' := by
  induction h generalizing streams' with
  | nil empty =>
    refine ⟨[], .nil fun i => ?_, .nil⟩
    have hi := hrel i
    rw [empty i] at hi
    exact List.forall₂_nil_left_iff.1 hi
  | @cons streams i a rest out head least tail ih =>
    have hi := hrel i
    rw [head] at hi
    rcases hstream : streams' i with _ | ⟨b, rest'⟩
    · rw [hstream] at hi
      cases hi
    rw [hstream] at hi
    obtain ⟨hab, hrest⟩ := List.forall₂_cons.1 hi
    have hnext : ∀ j, List.Forall₂ R (Function.update streams i rest j)
        (Function.update streams' i rest' j) := by
      intro j
      by_cases hj : j = i
      · subst hj
        rw [Function.update_self, Function.update_self]
        exact hrest
      · rw [Function.update_of_ne hj, Function.update_of_ne hj]
        exact hrel j
    obtain ⟨out', hout', hall⟩ := ih hnext
    refine ⟨(i, b) :: out', .cons hstream (fun j c cs hc => ?_) hout', .cons ⟨rfl, hab⟩ hall⟩
    have hj := hrel j
    rcases hother : streams j with _ | ⟨d, ds⟩
    · rw [hother, hc] at hj
      cases hj
    · rw [hother, hc] at hj
      rw [hkey a b hab, hkey d c (List.forall₂_cons.1 hj).1]
      exact least j d ds hother

theorem IsMerge.filter_eq_map (h : IsMerge key streams out) (i : ι) :
    (out.filter fun x => x.1 = i) = (streams i).map (Prod.mk i) := by
  rw [← h.filter_eq i, List.map_map]
  refine (List.map_id _).symm.trans (List.map_congr_left fun x hx => ?_)
  exact Prod.ext (of_decide_eq_true (List.mem_filter.1 hx).2) rfl

section Agree

variable {xs ys : List (ι × α)}

theorem perm_of_filter_eq (h : ∀ i, (xs.filter fun x => x.1 = i) = ys.filter fun x => x.1 = i) :
    xs.Perm ys := by
  classical
  refine List.perm_iff_count.2 fun x => ?_
  have hcount : ∀ zs : List (ι × α), (zs.filter fun y => y.1 = x.1).count x = zs.count x :=
    fun zs => List.count_filter (by simp)
  rw [← hcount xs, ← hcount ys, h]

variable {κ : Type} [PartialOrder κ] {key : α → κ}

theorem map_key_eq_of_filter_eq (h : ∀ i, (xs.filter fun x => x.1 = i) = ys.filter fun x => x.1 = i)
    (hxs : xs.Pairwise fun x y => key x.2 ≤ key y.2) (hys : ys.Pairwise fun x y => key x.2 ≤ key y.2) :
    (xs.map fun x => key x.2) = ys.map fun x => key x.2 :=
  List.Perm.eq_of_pairwise (fun _ _ _ _ => le_antisymm) (List.pairwise_map.2 hxs) (List.pairwise_map.2 hys)
    ((perm_of_filter_eq h).map _)

/-- If no two streams share a key, they are the same list. -/
theorem eq_of_filter_eq (h : ∀ i, (xs.filter fun x => x.1 = i) = ys.filter fun x => x.1 = i)
    (hxs : xs.Pairwise fun x y => key x.2 ≤ key y.2) (hys : ys.Pairwise fun x y => key x.2 ≤ key y.2)
    (hdistinct : ∀ x ∈ xs, ∀ y ∈ xs, key x.2 = key y.2 → x.1 = y.1) : xs = ys := by
  induction xs generalizing ys with
  | nil => exact (perm_of_filter_eq h).nil_eq
  | cons x xs ih =>
    have hperm := perm_of_filter_eq h
    cases ys with
    | nil => exact absurd hperm (List.not_perm_cons_nil)
    | cons y ys =>
      obtain ⟨hx, hxtail⟩ := List.pairwise_cons.1 hxs
      obtain ⟨hy, hytail⟩ := List.pairwise_cons.1 hys
      have hxmem := hperm.mem_iff.1 (List.mem_cons_self (a := x))
      have hymem := hperm.mem_iff.2 (List.mem_cons_self (a := y))
      have hle : key x.2 ≤ key y.2 := by
        rcases List.mem_cons.1 hymem with rfl | hmem
        · exact le_rfl
        · exact hx y hmem
      have hge : key y.2 ≤ key x.2 := by
        rcases List.mem_cons.1 hxmem with rfl | hmem
        · exact le_rfl
        · exact hy x hmem
      -- heads with the same key are heads of the same stream
      have hstream := hdistinct x List.mem_cons_self y hymem (le_antisymm hle hge)
      obtain rfl : x = y := by
        have hhead := h x.1
        rw [List.filter_cons_of_pos (by simp), List.filter_cons_of_pos (by simp [hstream])] at hhead
        exact (List.cons.inj hhead).1
      have htail : ∀ i, (xs.filter fun x => x.1 = i) = ys.filter fun x => x.1 = i := by
        intro i
        have hi := h i
        by_cases hxi : x.1 = i
        · rw [List.filter_cons_of_pos (by simpa using hxi), List.filter_cons_of_pos (by simpa using hxi)] at hi
          exact (List.cons.inj hi).2
        · rwa [List.filter_cons_of_neg (by simpa using hxi), List.filter_cons_of_neg (by simpa using hxi)] at hi
      rw [ih htail hxtail hytail fun a ha b hb => hdistinct a (List.mem_cons_of_mem _ ha) b (List.mem_cons_of_mem _ hb)]

end Agree

section Takes

variable {isOpen : ι → Prop} {left : ι → List α}

variable (key) in
/-- A merge that may stop before the ends of the streams, and leaves the rest of them. Behind the end of a
stream that is open there may be more. -/
inductive Takes (isOpen : ι → Prop) : (ι → List α) → List (ι × α) → (ι → List α) → Prop
  | refl {streams : ι → List α} : Takes isOpen streams [] streams
  | next {streams left : ι → List α} {i : ι} {a : α} {rest : List α} {out : List (ι × α)}
    (head : streams i = a :: rest)
    (least : ∀ j b bs, streams j = b :: bs → key a ≤ key b)
    (tail : Takes isOpen (Function.update streams i rest) out left) : Takes isOpen streams ((i, a) :: out) left
  | more {streams left : ι → List α} {i : ι} {a : α} {out : List (ι × α)} (isOpen_stream : isOpen i)
    (ended : streams i = [])
    (least : ∀ j b bs, streams j = b :: bs → key a ≤ key b)
    (tail : Takes isOpen streams out left) : Takes isOpen streams ((i, a) :: out) left

theorem Takes.trans {streams' : ι → List α} {out' : List (ι × α)} (h : Takes key isOpen streams out streams')
    (h' : Takes key isOpen streams' out' left) : Takes key isOpen streams (out ++ out') left := by
  induction h with
  | refl => exact h'
  | next head least _ ih => exact .next head least (ih h')
  | more isOpen_stream ended least _ ih => exact .more isOpen_stream ended least (ih h')

/-- What the output has from a stream is what the stream has in front of what is left; there is more only
where nothing is left and the stream is open. -/
theorem Takes.exists_filter_eq (h : Takes key isOpen streams out left) (i : ι) :
    ∃ got extra, (out.filter fun x => x.1 = i).map Prod.snd = got ++ extra ∧ streams i = got ++ left i ∧
      (extra = [] ∨ isOpen i ∧ left i = []) := by
  induction h with
  | refl => exact ⟨[], [], rfl, rfl, .inl rfl⟩
  | @next streams left j a rest out head _ _ ih =>
    obtain ⟨got, extra, hout, hstream, hextra⟩ := ih
    by_cases hij : j = i
    · subst hij
      rw [Function.update_self] at hstream
      refine ⟨a :: got, extra, ?_, by rw [head, hstream]; rfl, hextra⟩
      rw [List.filter_cons_of_pos (by simp), List.map_cons, hout]
      rfl
    · rw [Function.update_of_ne (Ne.symm hij)] at hstream
      rw [List.filter_cons_of_neg (by simpa using hij)]
      exact ⟨got, extra, hout, hstream, hextra⟩
  | @more streams left j a out isOpen_stream ended _ _ ih =>
    obtain ⟨got, extra, hout, hstream, hextra⟩ := ih
    by_cases hij : j = i
    · subst hij
      rw [ended] at hstream
      obtain ⟨rfl, hleft⟩ := List.append_eq_nil_iff.1 hstream.symm
      refine ⟨[], a :: extra, ?_, by rw [ended, hleft]; rfl, .inr ⟨isOpen_stream, hleft⟩⟩
      rw [List.filter_cons_of_pos (by simp), List.map_cons, hout]
      rfl
    · rw [List.filter_cons_of_neg (by simpa using hij)]
      exact ⟨got, extra, hout, hstream, hextra⟩

/-- Without open streams it is a merge once nothing is left. -/
theorem Takes.isMerge (h : Takes key isOpen streams out left) (hclosed : ∀ i, ¬ isOpen i) (hleft : ∀ i, left i = []) :
    IsMerge key streams out := by
  induction h with
  | refl => exact .nil hleft
  | next head least _ ih => exact .cons head least (ih hleft)
  | more isOpen_stream _ _ _ _ => exact absurd isOpen_stream (hclosed _)

end Takes

end Merge
