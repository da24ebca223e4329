import Mathlib.Data.List.Basic
import Mathlib.Data.List.Perm.Basic
import Mathlib.Data.List.Sort
import Mathlib.Logic.Function.Basic

/-! Binary heaps in a list, for a comparison the way `std::priority_queue` takes one: the
front is an element that compares to none. What pushing and popping promise is a structure
of its own, so that a client is verified against every implementation that keeps it. -/

namespace Heap

variable {α β : Type}

structure StrictWeak (comp : α → α → Bool) : Prop where
  asymm : ∀ a b, comp a b → comp b a = false
  trans : ∀ a b c, comp a b = false → comp b c = false → comp a c = false

/-- No element above another compares to it. -/
def IsHeap (comp : α → α → Bool) (l : List α) : Prop :=
  ∀ i (hi : i < l.length), 0 < i → comp ((l.get ⟨(i - 1) / 2, by omega⟩)) l[i] = false

variable {comp comp' : α → α → Bool}

theorem StrictWeak.irrefl (h : StrictWeak comp) (a : α) : comp a a = false := by
  by_contra hne
  have htrue : comp a a = true := by simpa using hne
  exact hne (h.asymm a a htrue)

theorem isHeap_nil : IsHeap comp [] := fun _ hi => absurd hi (Nat.not_lt_zero _)

theorem IsHeap.front (hcomp : StrictWeak comp) {a : α} {l : List α} (h : IsHeap comp (a :: l)) :
    ∀ b ∈ a :: l, comp a b = false := by
  have hindex : ∀ i (hi : i < (a :: l).length), comp a (a :: l)[i] = false := by
    intro i
    induction i using Nat.strongRecOn with
    | ind i ih =>
      intro hi
      rcases Nat.eq_zero_or_pos i with rfl | hpos
      · exact hcomp.irrefl a
      · exact hcomp.trans _ _ _ (ih _ (by omega) _) (h i hi hpos)
  intro b hb
  obtain ⟨i, hi, rfl⟩ := List.getElem_of_mem hb
  exact hindex i hi

/-- Only comparisons between elements of the heap matter. -/
theorem IsHeap.congr {l : List α} (h : IsHeap comp l)
    (hcongr : ∀ a ∈ l, ∀ b ∈ l, comp a b = comp' a b) : IsHeap comp' l := by
  intro i hi hpos
  rw [← hcongr _ (List.get_mem _ _) _ (List.getElem_mem _)]
  exact h i hi hpos

theorem isHeap_of_pairwise {l : List α} (h : l.Pairwise fun a b => comp a b = false) :
    IsHeap comp l :=
  fun i hi hpos => List.pairwise_iff_getElem.1 h _ i (by omega) hi (by omega)

/-- `push_heap` and `pop_heap`, as they act on the elements behind and including the front.
They compare elements of the heap and nothing else. -/
structure Ops (α : Type) where
  push : (α → α → Bool) → List α → α → List α
  pop : (α → α → Bool) → List α → List α
  push_perm : ∀ comp l a, (push comp l a).Perm (a :: l)
  pop_perm : ∀ comp a l, (pop comp (a :: l)).Perm l
  push_heap : ∀ {comp l} a, StrictWeak comp → IsHeap comp l → IsHeap comp (push comp l a)
  pop_heap : ∀ {comp a l}, StrictWeak comp → IsHeap comp (a :: l) → IsHeap comp (pop comp (a :: l))
  push_congr : ∀ {comp comp' : α → α → Bool} {l : List α} {a : α},
    (∀ x ∈ a :: l, ∀ y ∈ a :: l, comp x y = comp' x y) → push comp l a = push comp' l a
  pop_congr : ∀ {comp comp' : α → α → Bool} {l : List α},
    (∀ x ∈ l, ∀ y ∈ l, comp x y = comp' x y) → pop comp l = pop comp' l

def sort (comp : α → α → Bool) (l : List α) : List α := l.insertionSort fun a b => comp a b = false

theorem sort_perm (comp : α → α → Bool) (l : List α) : (sort comp l).Perm l :=
  List.perm_insertionSort _ l

theorem isHeap_sort (hcomp : StrictWeak comp) (l : List α) : IsHeap comp (sort comp l) := by
  have htotal : Std.Total fun a b => comp a b = false := by
    refine ⟨fun a b => ?_⟩
    cases hab : comp a b with
    | false => exact .inl rfl
    | true => exact .inr (hcomp.asymm a b hab)
  have htrans : IsTrans α fun a b => comp a b = false := ⟨hcomp.trans⟩
  exact isHeap_of_pairwise (List.pairwise_insertionSort _ l)

theorem orderedInsert_congr {a : α} {l : List α} (h : ∀ b ∈ l, comp a b = comp' a b) :
    l.orderedInsert (fun a b => comp a b = false) a = l.orderedInsert (fun a b => comp' a b = false) a := by
  induction l with
  | nil => rfl
  | cons b l ih =>
    rw [List.forall_mem_cons] at h
    simp only [List.orderedInsert_cons, h.1, ih h.2]

theorem sort_congr {l : List α} (h : ∀ x ∈ l, ∀ y ∈ l, comp x y = comp' x y) :
    sort comp l = sort comp' l := by
  induction l with
  | nil => rfl
  | cons a l ih =>
    have hl : sort comp l = sort comp' l :=
      ih fun x hx y hy => h x (List.mem_cons_of_mem _ hx) y (List.mem_cons_of_mem _ hy)
    have hinsert := orderedInsert_congr (a := a) (l := sort comp l) fun b hb =>
      h a List.mem_cons_self b (List.mem_cons_of_mem _ ((sort_perm comp l).mem_iff.1 hb))
    rw [sort, List.insertionSort_cons, ← sort, hinsert, hl]
    rfl

/-- A sorted list is a heap, so that sorting is one way to push and to pop. -/
def sortOps : Ops α where
  push comp l a := sort comp (a :: l)
  pop comp l := sort comp l.tail
  push_perm comp _ _ := sort_perm comp _
  pop_perm comp _ _ := sort_perm comp _
  push_heap _ hcomp _ := isHeap_sort hcomp _
  pop_heap hcomp _ := isHeap_sort hcomp _
  push_congr h := sort_congr h
  pop_congr h := sort_congr fun x hx y hy => h x (List.mem_of_mem_tail hx) y (List.mem_of_mem_tail hy)

end Heap
