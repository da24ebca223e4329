import Mathlib.Data.List.Forall2
import Mathlib.Order.Filter.AtTopBot.Basic
import Mathlib.Order.Filter.Finite

/-! Loops that may end in an exception, and the rules that lead from a turn of the loop
to the whole of it. Nothing here depends on the program being verified. -/

namespace Loops

variable {ε σ α β : Type}

/-- `for (i = start; i < start + n; i++)` -/
def forLoop (body : ℕ → σ → Except ε σ) : ℕ → ℕ → σ → Except ε σ
  | _, 0, s => .ok s
  | i, n + 1, s => do
    let s ← body i s
    forLoop body (i + 1) n s

theorem forLoop_succ_of_ok {body : ℕ → σ → Except ε σ} {i n : ℕ} {s s' : σ}
    (h : body i s = .ok s') : forLoop body i (n + 1) s = forLoop body (i + 1) n s' := by
  rw [forLoop, h]
  rfl

theorem forLoop_of_turns {body : ℕ → σ → Except ε σ} {k i n : ℕ} {s s' : σ} (hin : i ≤ n)
    (h : forLoop body k i s = .ok s') : forLoop body k n s = forLoop body (k + i) (n - i) s' := by
  induction i generalizing k n s with
  | zero =>
    cases h
    rfl
  | succ i ih =>
    obtain ⟨n, rfl⟩ : ∃ m, n = m + 1 := ⟨n - 1, by omega⟩
    rw [forLoop] at h
    cases hbody : body k s with
    | error e => rw [hbody] at h; cases h
    | ok s₁ =>
      rw [hbody] at h
      rw [forLoop_succ_of_ok hbody, ih (by omega) h, show k + 1 + i = k + (i + 1) by omega,
        Nat.add_sub_add_right]

theorem forLoop_of_lt {body : ℕ → σ → Except ε σ} {i n : ℕ} {s s' : σ} (hin : i < n)
    (h : forLoop body 0 i s = .ok s') :
    forLoop body 0 n s = (body i s' >>= forLoop body (i + 1) (n - i - 1)) := by
  obtain ⟨m, hm⟩ : ∃ m, n - i = m + 1 := ⟨n - i - 1, by omega⟩
  rw [forLoop_of_turns (Nat.le_of_lt hin) h, hm, Nat.zero_add]
  rfl

theorem forLoop_add_one (body : ℕ → σ → Except ε σ) (k n : ℕ) (s : σ) :
    forLoop body k (n + 1) s = (forLoop body k n s >>= body (k + n)) := by
  cases h : forLoop body k n s with
  | ok s' =>
    rw [forLoop_of_turns (Nat.le_succ n) h, Nat.succ_sub (Nat.le_refl n), Nat.sub_self]
    show (body (k + n) s' >>= fun s => .ok s) = body (k + n) s'
    cases body (k + n) s' <;> rfl
  | error e =>
    induction n generalizing k s with
    | zero => cases h
    | succ n ih =>
      rw [forLoop] at h ⊢
      cases hbody : body k s with
      | error e' =>
        rw [hbody] at h
        exact h
      | ok s₁ =>
        rw [hbody] at h
        exact ih (k + 1) s₁ h

/-- What every turn keeps, the loop keeps. -/
theorem forLoop_rule {body : ℕ → σ → Except ε σ} {P : σ → Prop}
    (step : ∀ {i s s'}, P s → body i s = .ok s' → P s') {k n : ℕ} {s s' : σ} (hs : P s)
    (h : forLoop body k n s = .ok s') : P s' := by
  induction n generalizing k s with
  | zero =>
    cases h
    exact hs
  | succ n ih =>
    rw [forLoop] at h
    cases hbody : body k s with
    | error e => rw [hbody] at h; cases h
    | ok s₁ =>
      rw [hbody] at h
      exact ih (step hs hbody) h

/-- A loop that goes along a list: what holds of the part already done holds of all of it
in the end. -/
theorem forLoop_list {body : ℕ → σ → Except ε σ} {I : List α → σ → Prop} {xs : List α} {s : σ}
    (start : I [] s)
    (step : ∀ {done x rest s}, xs = done ++ x :: rest → I done s →
      ∃ s', body done.length s = .ok s' ∧ I (done ++ [x]) s') :
    ∃ s', forLoop body 0 xs.length s = .ok s' ∧ I xs s' := by
  have hrest : ∀ (rest done : List α) (s : σ), xs = done ++ rest → I done s →
      ∃ s', forLoop body done.length rest.length s = .ok s' ∧ I xs s' := by
    intro rest
    induction rest with
    | nil =>
      intro done s hxs hI
      rw [List.append_nil] at hxs
      exact ⟨s, rfl, hxs ▸ hI⟩
    | cons x rest ih =>
      intro done s hxs hI
      obtain ⟨s₁, hbody, hI₁⟩ := step hxs hI
      have hxs₁ : xs = (done ++ [x]) ++ rest := by rw [hxs, List.append_assoc]; rfl
      obtain ⟨s', hloop, hI'⟩ := ih _ s₁ hxs₁ hI₁
      rw [List.length_append] at hloop
      exact ⟨s', by rw [List.length_cons, forLoop_succ_of_ok hbody]; exact hloop, hI'⟩
  exact hrest xs [] s rfl start

section Iterate

variable {ρ : Type}

/-- At most `n` steps, up to the first that has a result. -/
def iterate (step : σ → σ × Option ρ) : ℕ → σ → σ × Option ρ
  | 0, s => (s, none)
  | n + 1, s =>
    match step s with
    | (s', some r) => (s', some r)
    | (s', none) => iterate step n s'

variable {step : σ → σ × Option ρ} {measure : σ → ℕ}

theorem iterate_unique {n m : ℕ} {s t t' : σ} {r r' : ρ} (h : iterate step n s = (t, some r))
    (h' : iterate step m s = (t', some r')) : t = t' ∧ r = r' := by
  induction n generalizing m s with
  | zero => simp [iterate] at h
  | succ n ih =>
    cases m with
    | zero => simp [iterate] at h'
    | succ m =>
      rw [iterate] at h h'
      rcases hstep : step s with ⟨s₁, _ | r₁⟩
      · rw [hstep] at h h'
        exact ih h h'
      · rw [hstep] at h h'
        cases h
        cases h'
        exact ⟨rfl, rfl⟩

theorem iterate_isSome {I : σ → Prop}
    (hstep : ∀ {s s'}, I s → step s = (s', none) → I s' ∧ measure s' < measure s) {n : ℕ} {s : σ}
    (hI : I s) (hn : measure s < n) : (iterate step n s).2.isSome := by
  induction n generalizing s with
  | zero => omega
  | succ n ih =>
    rw [iterate]
    cases h : step s with
    | mk s' r =>
      cases r with
      | some r => rfl
      | none =>
        obtain ⟨hI', hlt⟩ := hstep hI h
        exact ih hI' (by omega)

/-- What the step with the result establishes, and every step before it carries back, holds
from the start to the result. -/
theorem iterate_rule {I : σ → Prop} {Q : σ → σ → ρ → Prop}
    (result : ∀ {s s' r}, I s → step s = (s', some r) → Q s s' r)
    (go : ∀ {s s'}, I s → step s = (s', none) → I s' ∧ ∀ t r, Q s' t r → Q s t r)
    {n : ℕ} {s t : σ} {r : ρ} (hI : I s) (h : iterate step n s = (t, some r)) : Q s t r := by
  induction n generalizing s with
  | zero => simp [iterate] at h
  | succ n ih =>
    rw [iterate] at h
    rcases hstep : step s with ⟨s', _ | r'⟩
    · rw [hstep] at h
      obtain ⟨hI', hback⟩ := go hI hstep
      exact hback _ _ (ih hI' h)
    · rw [hstep] at h
      cases h
      exact result hI hstep

/-- Steps of a state that carries more than the state they are steps of, as long as they keep what makes
them agree. -/
theorem iterate_map_of {τ : Type} {f : τ → σ} {step' : τ → τ × Option ρ} {I : τ → Prop} {Q : τ → ρ → Prop}
    (hstep : ∀ t, I t → step (f t) = (f (step' t).1, (step' t).2) ∧ ((step' t).2 = none → I (step' t).1) ∧
      ∀ r, (step' t).2 = some r → Q (step' t).1 r) (n : ℕ) (t : τ) (h : I t) :
    iterate step n (f t) = (f (iterate step' n t).1, (iterate step' n t).2) ∧
      ((iterate step' n t).2 = none → I (iterate step' n t).1) ∧
      ∀ r, (iterate step' n t).2 = some r → Q (iterate step' n t).1 r := by
  induction n generalizing t with
  | zero => exact ⟨rfl, fun _ => h, nofun⟩
  | succ n ih =>
    obtain ⟨heq, hgo, hdone⟩ := hstep t h
    rw [iterate, iterate, heq]
    rcases hresult : step' t with ⟨t', _ | r⟩
    · rw [hresult] at hgo
      exact ih t' (hgo rfl)
    · rw [hresult] at hdone
      exact ⟨rfl, nofun, hdone⟩

theorem iterate_map {τ : Type} {f : τ → σ} {step' : τ → τ × Option ρ}
    (hstep : ∀ t, step (f t) = (f (step' t).1, (step' t).2)) (n : ℕ) (t : τ) :
    iterate step n (f t) = (f (iterate step' n t).1, (iterate step' n t).2) :=
  (@iterate_map_of _ _ _ _ _ _ (fun _ => True) (fun _ _ => True)
    (fun t _ => ⟨hstep t, fun _ => trivial, fun _ _ => trivial⟩) n t trivial).1

end Iterate

section MapM

variable {f : α → Except ε β}

theorem forall₂_of_mapM_ok {l : List α} {bs : List β} (h : l.mapM f = .ok bs) :
    List.Forall₂ (fun a b => f a = .ok b) l bs := by
  induction l generalizing bs with
  | nil =>
    cases h
    exact .nil
  | cons a l ih =>
    rw [List.mapM_cons] at h
    cases ha : f a with
    | error e => rw [ha] at h; cases h
    | ok b =>
      rw [ha] at h
      cases hl : l.mapM f with
      | error e => rw [hl] at h; cases h
      | ok bs' =>
        rw [hl] at h
        cases h
        exact .cons ha (ih hl)

theorem mapM_ok {l : List α} (h : ∀ a ∈ l, ∃ b, f a = .ok b) : ∃ bs, l.mapM f = .ok bs := by
  induction l with
  | nil => exact ⟨[], rfl⟩
  | cons a l ih =>
    rw [List.forall_mem_cons] at h
    obtain ⟨b, hb⟩ := h.1
    obtain ⟨bs, hbs⟩ := ih h.2
    exact ⟨b :: bs, by rw [List.mapM_cons, hb, hbs]; rfl⟩

theorem mapM_eq_map {l : List α} {g : α → β} (h : ∀ a ∈ l, f a = .ok (g a)) : l.mapM f = .ok (l.map g) := by
  induction l with
  | nil => rfl
  | cons a l ih =>
    rw [List.forall_mem_cons] at h
    rw [List.mapM_cons, h.1, ih h.2]
    rfl

theorem forall₂_mapM {γ : Type} {f' : α → Except ε γ} {R : β → γ → Prop} {l : List α}
    (h : ∀ a ∈ l, ∃ b c, f a = .ok b ∧ f' a = .ok c ∧ R b c) :
    ∃ bs cs, l.mapM f = .ok bs ∧ l.mapM f' = .ok cs ∧ List.Forall₂ R bs cs := by
  induction l with
  | nil => exact ⟨[], [], rfl, rfl, .nil⟩
  | cons a l ih =>
    rw [List.forall_mem_cons] at h
    obtain ⟨b, c, hb, hc, hR⟩ := h.1
    obtain ⟨bs, cs, hbs, hcs, hall⟩ := ih h.2
    exact ⟨b :: bs, c :: cs, by rw [List.mapM_cons, hb, hbs]; rfl, by rw [List.mapM_cons, hc, hcs]; rfl,
      .cons hR hall⟩

end MapM

section Append

theorem foldlM_append {step : List β → α → Except ε (List β)} {g : α → List β} {l : List α}
    (h : ∀ a ∈ l, ∀ output, step output a = .ok (output ++ g a)) (output : List β) :
    l.foldlM step output = .ok (output ++ l.flatMap g) := by
  induction l generalizing output with
  | nil => simp [pure, Except.pure]
  | cons a l ih =>
    rw [List.forall_mem_cons] at h
    rw [List.foldlM_cons, h.1, List.flatMap_cons, ← List.append_assoc]
    exact ih h.2 (output ++ g a)

theorem forLoop_append {body : ℕ → List β → Except ε (List β)} {g : α × ℕ → List β} {l : List α} {n : ℕ}
    (hn : l.length = n) (h : ∀ i (hi : i < l.length) output, body i output = .ok (output ++ g (l[i], i)))
    (output : List β) : forLoop body 0 n output = .ok (output ++ l.zipIdx.flatMap g) := by
  subst hn
  have hrest : ∀ (rest done : List α) (output : List β), l = done ++ rest →
      forLoop body done.length rest.length output = .ok (output ++ (rest.zipIdx done.length).flatMap g) := by
    intro rest
    induction rest with
    | nil =>
      intro done output _
      simp [forLoop]
    | cons x rest ih =>
      intro done output hl
      have hi : done.length < l.length := by simp [hl]
      have hx : l[done.length] = x := by simp [hl]
      have hbody := h done.length hi output
      have hnext := ih (done ++ [x]) (output ++ g (x, done.length)) (by simp [hl])
      rw [List.length_append, List.length_singleton, List.append_assoc] at hnext
      rw [hx] at hbody
      rw [List.length_cons, forLoop_succ_of_ok hbody, List.zipIdx_cons, List.flatMap_cons]
      exact hnext
  exact hrest l [] output rfl

end Append

theorem forall₂_mem_right {R : α → β → Prop} {l : List α} {bs : List β}
    (h : List.Forall₂ R l bs) {b : β} (hb : b ∈ bs) : ∃ a ∈ l, R a b := by
  induction h with
  | nil => cases hb
  | @cons a b' l bs hab _ ih =>
    rcases List.mem_cons.1 hb with rfl | hb
    · exact ⟨a, List.mem_cons_self, hab⟩
    · obtain ⟨a', ha', hR⟩ := ih hb
      exact ⟨a', List.mem_cons_of_mem _ ha', hR⟩

theorem exists_forall₂ {R : α → β → Prop} {l : List α} (h : ∀ a ∈ l, ∃ b, R a b) : ∃ bs, List.Forall₂ R l bs := by
  induction l with
  | nil => exact ⟨[], .nil⟩
  | cons a l ih =>
    rw [List.forall_mem_cons] at h
    obtain ⟨b, hb⟩ := h.1
    obtain ⟨bs, hbs⟩ := ih h.2
    exact ⟨b :: bs, .cons hb hbs⟩

theorem forall₂_comp {γ : Type} {R : α → β → Prop} {S : β → γ → Prop} {as : List α} {bs : List β} {cs : List γ}
    (h : List.Forall₂ R as bs) (h' : List.Forall₂ S bs cs) :
    List.Forall₂ (fun a c => ∃ b, R a b ∧ S b c) as cs := by
  induction h generalizing cs with
  | nil =>
    cases h'
    exact .nil
  | cons hab _ ih =>
    obtain ⟨c, cs, hbc, hrest, rfl⟩ := List.forall₂_cons_left_iff.1 h'
    exact .cons ⟨_, hab, hbc⟩ (ih hrest)

/-- Enough fuel for each of finitely many is enough for all of them. -/
theorem exists_bound {s : Set α} (hs : s.Finite) {P : α → ℕ → Prop}
    (h : ∀ a ∈ s, ∃ bound, ∀ fuel ≥ bound, P a fuel) : ∃ bound, ∀ fuel ≥ bound, ∀ a ∈ s, P a fuel := by
  simp only [← Filter.eventually_atTop] at h ⊢
  exact (Filter.eventually_all_finite hs).2 h

end Loops
