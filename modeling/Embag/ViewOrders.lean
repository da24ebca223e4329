import Embag.TypedBags
import Embag.ViewTimes

/-! Two views over the same bags: in whatever order the bags were added, the map has them and the topics
are asked for, and whatever else only one of them asks for, they return what both ask for in the same
order. -/

namespace Embag

open Merge

namespace View

def asksFor (selection : Selection) (view : View) (x : ℕ × Published) : Bool :=
  x.1 ∈ view.bags && selection.wants x.2.topic

section Orders

variable {env : Env} {selection selection' : Selection} {view view' : View} {world : World}
  {files : List StoredBag} {xs : ℕ → List Published} {merged merged' : List (ℕ × Published)}

theorem published_eq_filter (b : ℕ) :
    view.published selection xs b = (xs b).filter fun x => view.asksFor selection (b, x) := by
  by_cases hb : b ∈ view.bags <;> simp [published, asksFor, hb]

theorem mem_bags {x : ℕ × Published} (h : view.asksFor selection x) : x.1 ∈ view.bags :=
  of_decide_eq_true (Bool.and_eq_true_iff.1 h).1

theorem filter_filter_eq (h : IsMerge Published.key (view.published selection xs) merged) (b : ℕ) :
    (merged.filter (view'.asksFor selection')).filter (fun x => x.1 = b) =
      (((xs b).map (Prod.mk b)).filter (view.asksFor selection)).filter (view'.asksFor selection') := by
  have hstream : (view.published selection xs b).map (Prod.mk b) =
      ((xs b).map (Prod.mk b)).filter (view.asksFor selection) := by
    rw [published_eq_filter, List.filter_map]
    rfl
  rw [List.filter_comm, h.filter_eq_map, hstream]

theorem filter_filter_comm (h : IsMerge Published.key (view.published selection xs) merged)
    (h' : IsMerge Published.key (view'.published selection' xs) merged') (b : ℕ) :
    (merged.filter (view'.asksFor selection')).filter (fun x => x.1 = b) =
      (merged'.filter (view.asksFor selection)).filter fun x => x.1 = b := by
  rw [filter_filter_eq h, filter_filter_eq h', List.filter_comm]

/-- A pass over bags in time order is in time order. -/
theorem pairwise_merged (h : IsMerge Published.key (view.published selection xs) merged)
    (hsorted : ∀ b ∈ view.bags, (xs b).Pairwise fun x y => x.key ≤ y.key) :
    merged.Pairwise fun x y => x.2.key ≤ y.2.key := by
  refine h.pairwise fun b => ?_
  unfold published
  split_ifs with hb
  · exact (hsorted b hb).filter _
  · exact .nil

theorem mem_merged (h : IsMerge Published.key (view.published selection xs) merged) {x : ℕ × Published}
    (hx : x ∈ merged) : x.2 ∈ xs x.1 ∧ view.asksFor selection x := by
  have hmem := h.mem hx
  rw [published_eq_filter] at hmem
  exact List.mem_filter.1 hmem

/-- Two passes agree on what both views ask for: from each bag it comes in the same order, whatever the
order of the bags and the topics. Where the bags are in time order it comes at the same times, and where
besides no two bags have messages of the same time it comes in the same order altogether. -/
theorem passes_agree (hrecorded : world.RecordedFrom env.codecs files xs)
    (hbags : ∀ b ∈ view.bags, b < world.bags.length) (hbags' : ∀ b ∈ view'.bags, b < world.bags.length)
    (hindexed : ∀ topics, selection = .topics topics ∨ selection' = .topics topics → ∀ f ∈ files, f.Indexed)
    {order order' : List ℕ} (horder : order.Perm (view.getMessages selection world).2.wrappers)
    (horder' : order'.Perm (view'.getMessages selection' world).2.wrappers) :
    ∃ merged merged', view.Passes env selection world order merged ∧
      view'.Passes env selection' world order' merged' ∧
      (∀ b, (merged.filter (view'.asksFor selection')).filter (fun x => x.1 = b) =
        (merged'.filter (view.asksFor selection)).filter fun x => x.1 = b) ∧
      ((∀ b, b ∈ view.bags ∨ b ∈ view'.bags → (xs b).Pairwise fun x y => x.key ≤ y.key) →
        ((merged.filter (view'.asksFor selection')).map fun x => x.2.time) =
            ((merged'.filter (view.asksFor selection)).map fun x => x.2.time) ∧
          ((∀ b ∈ view.bags, b ∈ view'.bags → ∀ c ∈ view.bags, c ∈ view'.bags →
              ∀ x ∈ xs b, ∀ y ∈ xs c, x.time = y.time → b = c) →
            merged.filter (view'.asksFor selection') = merged'.filter (view.asksFor selection))) := by
  obtain ⟨merged, hpasses, hmerged⟩ :=
    exists_passes hrecorded hbags (fun topics h => hindexed topics (.inl h)) horder
  obtain ⟨merged', hpasses', hmerged'⟩ :=
    exists_passes hrecorded hbags' (fun topics h => hindexed topics (.inr h)) horder'
  have hfilter := filter_filter_comm hmerged hmerged'
  refine ⟨merged, merged', hpasses, hpasses', hfilter, fun hsorted => ?_⟩
  have hleft := (pairwise_merged hmerged fun b hb => hsorted b (.inl hb)).filter (view'.asksFor selection')
  have hright := (pairwise_merged hmerged' fun b hb => hsorted b (.inr hb)).filter (view.asksFor selection)
  refine ⟨?_, fun hdistinct => eq_of_filter_eq hfilter hleft hright fun x hx y hy hkey => ?_⟩
  · have hkeys := map_key_eq_of_filter_eq hfilter hleft hright
    have hinjective : Function.Injective TimeValue.key := fun _ _ => TimeValue.key_injective
    exact List.map_injective_iff.2 hinjective (by rw [List.map_map, List.map_map]; exact hkeys)
  · obtain ⟨hx, hxasks⟩ := List.mem_filter.1 hx
    obtain ⟨hy, hyasks⟩ := List.mem_filter.1 hy
    obtain ⟨hxmem, hxbag⟩ := mem_merged hmerged hx
    obtain ⟨hymem, hybag⟩ := mem_merged hmerged hy
    exact hdistinct x.1 (mem_bags hxbag) (mem_bags hxasks) y.1 (mem_bags hybag) (mem_bags hyasks)
      x.2 hxmem y.2 hymem (TimeValue.key_injective hkey)

end Orders

theorem passes_agree_sample : ∃ merged merged',
    Passes sampleEnv .all { bags := [0] } pairWorld (getMessages .all { bags := [0] } pairWorld).2.wrappers
      merged ∧
    Passes sampleEnv (.topics [bytes "/a"]) { bags := [1, 0] } pairWorld
      (getMessages (.topics [bytes "/a"]) { bags := [1, 0] } pairWorld).2.wrappers merged' ∧
    merged.filter (asksFor (.topics [bytes "/a"]) { bags := [1, 0] }) =
      merged'.filter (asksFor .all { bags := [0] }) := by
  obtain ⟨merged, merged', hpasses, hpasses', -, hagree⟩ :=
    @passes_agree sampleEnv .all (.topics [bytes "/a"]) { bags := [0] } { bags := [1, 0] } _ _ _
      recordedFrom_pairWorld (lt_length_pairWorld (by decide)) (lt_length_pairWorld (by decide))
      (fun _ _ => indexed_of_mem) _ _ (List.Perm.refl _) (List.Perm.refl _)
  refine ⟨merged, merged', hpasses, hpasses', (hagree fun _ _ => by decide +kernel).2 ?_⟩
  intro b hb _ c hc _ _ _ _ _ _
  rw [List.mem_singleton.1 hb, List.mem_singleton.1 hc]

end View

end Embag
