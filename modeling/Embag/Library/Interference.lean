import Mathlib.Data.List.Basic

/-! A machine that several clients operate. What some operations are answered cannot be told from
whether others were made, if those leave alone what the answers come from. -/

namespace Interference

variable {σ ω ρ : Type}

def answers (step : σ → ω → σ × ρ) : σ → List ω → List (ω × ρ)
  | _, [] => []
  | s, o :: os => (o, (step s o).2) :: answers step (step s o).1 os

/-- `R` relates the states of a run to those of one in which only the operations of `keep` are made,
as long as the operations are valid. -/
structure Unwinding (step : σ → ω → σ × ρ) (valid : ω → Prop) (keep watch : ω → Bool)
    (R : σ → σ → Prop) : Prop where
  keep_of_watch : ∀ {o}, watch o = true → keep o = true
  kept : ∀ {s t o}, R s t → valid o → keep o = true → R (step s o).1 (step t o).1
  dropped : ∀ {s t o}, R s t → valid o → keep o = false → R (step s o).1 t
  watched : ∀ {s t o}, R s t → valid o → watch o = true → (step s o).2 = (step t o).2

variable {step : σ → ω → σ × ρ} {valid : ω → Prop} {keep watch : ω → Bool} {R : σ → σ → Prop} {s t : σ}
  {os : List ω}

/-- What is watched is answered as if what is not kept had not been there. -/
theorem Unwinding.answers_filter (hunwinding : Unwinding step valid keep watch R) (h : R s t)
    (hvalid : ∀ o ∈ os, valid o) :
    (answers step s os).filter (fun a => watch a.1) =
      (answers step t (os.filter keep)).filter (fun a => watch a.1) := by
  induction os generalizing s t with
  | nil => rfl
  | cons o os ih =>
    rw [List.forall_mem_cons] at hvalid
    obtain ⟨ho, hos⟩ := hvalid
    cases hkeep : keep o with
    | true =>
      have hrest := ih (hunwinding.kept h ho hkeep) hos
      rw [List.filter_cons_of_pos hkeep, answers, answers]
      cases hwatch : watch o with
      | true =>
        have hsame := hunwinding.watched h ho hwatch
        rw [List.filter_cons_of_pos (by exact hwatch), List.filter_cons_of_pos (by exact hwatch), hsame, hrest]
      | false =>
        rw [List.filter_cons_of_neg (by simp [hwatch]), List.filter_cons_of_neg (by simp [hwatch])]
        exact hrest
    | false =>
      have hwatch : watch o = false := by
        by_contra hne
        rw [hunwinding.keep_of_watch (by simpa using hne)] at hkeep
        cases hkeep
      rw [List.filter_cons_of_neg (by simp [hkeep]), answers, List.filter_cons_of_neg (by simp [hwatch])]
      exact ih (hunwinding.dropped h ho hkeep) hos

/-- A run never leaves the states that are related. -/
theorem Unwinding.exists_related (hunwinding : Unwinding step valid keep watch R) (h : R s t) {o : ω}
    (ho : valid o) : ∃ t', R (step s o).1 t' := by
  cases hkeep : keep o with
  | true => exact ⟨_, hunwinding.kept h ho hkeep⟩
  | false => exact ⟨t, hunwinding.dropped h ho hkeep⟩

/-- A machine whose steps are those of another gives its answers. -/
theorem answers_eq_of_simulates {τ : Type} {step' : τ → ω → τ × ρ} {I : τ → Prop} (f : τ → σ)
    (hstep : ∀ {u o}, I u → valid o → I (step' u o).1 ∧ step (f u) o = (f (step' u o).1, (step' u o).2))
    {u : τ} (h : I u) (hvalid : ∀ o ∈ os, valid o) : answers step' u os = answers step (f u) os := by
  induction os generalizing u with
  | nil => rfl
  | cons o os ih =>
    rw [List.forall_mem_cons] at hvalid
    obtain ⟨hnext, heq⟩ := hstep h hvalid.1
    rw [answers, answers, ih hnext hvalid.2, heq]

end Interference
