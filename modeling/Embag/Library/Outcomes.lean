import Mathlib.Logic.Basic

/-! Two computations that end alike: with the same exception, or with results in a
given relation. A simulation of one program by another is such a relation kept by
each of their steps. -/

namespace Outcomes

variable {ε α β γ δ : Type}

inductive Agree (P : α → β → Prop) : Except ε α → Except ε β → Prop
  | ok {a : α} {b : β} (h : P a b) : Agree P (.ok a) (.ok b)
  | error (e : ε) : Agree P (.error e) (.error e)

variable {P : α → β → Prop} {Q : γ → δ → Prop} {x : Except ε α} {y : Except ε β}

theorem Agree.bind {f : α → Except ε γ} {g : β → Except ε δ} (h : Agree P x y)
    (hfg : ∀ a b, P a b → Agree Q (f a) (g b)) : Agree Q (x >>= f) (y >>= g) := by
  cases h with
  | ok h => exact hfg _ _ h
  | error e => exact .error e

theorem Agree.bind_same (x : Except ε α) {f : α → Except ε γ} {g : α → Except ε δ}
    (hfg : ∀ a, x = .ok a → Agree Q (f a) (g a)) : Agree Q (x >>= f) (x >>= g) := by
  cases x with
  | ok a => exact hfg a rfl
  | error e => exact .error e

theorem Agree.mono {R : α → β → Prop} (h : Agree P x y) (hPR : ∀ a b, P a b → R a b) :
    Agree R x y := by
  cases h with
  | ok h => exact .ok (hPR _ _ h)
  | error e => exact .error e

theorem Agree.trans {R : γ → β → Prop} {S : γ → α → Prop} {z : Except ε γ} (h : Agree S z x)
    (h' : Agree P x y) (hR : ∀ c a b, S c a → P a b → R c b) : Agree R z y := by
  cases h with
  | ok h =>
    cases h' with
    | ok h' => exact .ok (hR _ _ _ h h')
  | error e =>
    cases h' with
    | error => exact .error e

theorem Agree.exists_ok {b : β} (h : Agree P x (.ok b)) : ∃ a, x = .ok a ∧ P a b := by
  cases h with
  | ok h => exact ⟨_, rfl, h⟩

theorem Agree.exists_of_ok {a : α} (h : Agree P (.ok a) y) : ∃ b, y = .ok b ∧ P a b := by
  cases h with
  | ok h => exact ⟨_, rfl, h⟩

theorem Agree.error_iff (h : Agree P x y) (e : ε) : x = .error e ↔ y = .error e := by
  cases h with
  | ok h => exact ⟨nofun, nofun⟩
  | error e' => exact ⟨fun he => by cases he; rfl, fun he => by cases he; rfl⟩

theorem not_exists_error (a : α) : ¬ ∃ e, (Except.ok a : Except ε α) = .error e := by
  rintro ⟨e, he⟩
  cases he

end Outcomes
