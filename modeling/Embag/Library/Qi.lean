import Mathlib.Data.List.Infix
import Mathlib.Data.List.TakeWhile

/-! Recursive descent parsers with a skipper, in the manner of Spirit Qi: ordered
choice, greedy repetition, and the skipper run before every terminal and before a
lexeme. A parser that fails leaves the input where it was. -/

namespace Qi

variable {τ α β : Type}

/-- What is skipped before a terminal. Skipping twice skips no more than skipping once. -/
structure Skipper (τ : Type) where
  run : List τ → List τ
  run_suffix : ∀ s, run s <:+ s
  run_run : ∀ s, run (run s) = run s

instance : CoeFun (Skipper τ) fun _ => List τ → List τ := ⟨Skipper.run⟩

/-- The skipper inside a lexeme. -/
def Skipper.none : Skipper τ := ⟨id, fun _ => List.suffix_rfl, fun _ => rfl⟩

@[simp] theorem Skipper.none_run (s : List τ) : (Skipper.none : Skipper τ) s = s := rfl

theorem Skipper.length_le (sk : Skipper τ) (s : List τ) : (sk s).length ≤ s.length :=
  (sk.run_suffix s).length_le

/-- A parser: its attribute and the input it leaves, or no match. -/
structure Rule (τ α : Type) where
  parse : Skipper τ → List τ → Option (α × List τ)
  parse_suffix : ∀ {sk s a r}, parse sk s = some (a, r) → r <:+ s

namespace Rule

/-- `attr(a)`: matches without reading. -/
def attr (a : α) : Rule τ α where
  parse _ s := some (a, s)
  parse_suffix h := by
    cases h
    exact List.suffix_rfl

/-- `p >> q`, the second parser depending on the attribute of the first. -/
def seq (p : Rule τ α) (f : α → Rule τ β) : Rule τ β where
  parse sk s := match p.parse sk s with
    | some (a, r) => (f a).parse sk r
    | none => none
  parse_suffix {sk s b r} h := by
    cases hp : p.parse sk s with
    | none => simp [hp] at h
    | some q =>
      simp only [hp] at h
      exact ((f q.1).parse_suffix h).trans (p.parse_suffix hp)

instance : Monad (Rule τ) where
  pure := attr
  bind := seq

def token (P : τ → Bool) : Rule τ τ where
  parse sk s := match sk s with
    | [] => none
    | c :: r => if P c then some (c, r) else none
  parse_suffix {sk s a r} h := by
    have hs := sk.run_suffix s
    cases hsk : sk s with
    | nil => simp [hsk] at h
    | cons c t =>
      simp only [hsk] at h
      split_ifs at h
      cases h
      exact (List.suffix_cons _ _).trans (hsk ▸ hs)

/-- `lit(w)`: a terminal that reads the tokens of `w`, with nothing skipped between them. -/
def lit [DecidableEq τ] (w : List τ) : Rule τ Unit where
  parse sk s := if w <+: sk s then some ((), (sk s).drop w.length) else none
  parse_suffix {sk s a r} h := by
    split_ifs at h
    cases h
    exact (List.drop_suffix _ _).trans (sk.run_suffix s)

/-- `p | q`: the second parser is tried where the first fails. -/
def alt (p q : Rule τ α) : Rule τ α where
  parse sk s := match p.parse sk s with
    | some x => some x
    | none => q.parse sk s
  parse_suffix {sk s a r} h := by
    cases hp : p.parse sk s with
    | none =>
      rw [hp] at h
      exact q.parse_suffix h
    | some x =>
      rw [hp] at h
      cases h
      exact p.parse_suffix hp

instance : OrElse (Rule τ α) := ⟨fun p q => alt p (q ())⟩

/-- `p - q`: matches where `p` does and `q` does not. -/
def diff (p : Rule τ α) (q : Rule τ β) : Rule τ α where
  parse sk s := match q.parse sk s with
    | some _ => none
    | none => p.parse sk s
  parse_suffix {sk s a r} h := by
    cases hq : q.parse sk s with
    | none =>
      rw [hq] at h
      exact p.parse_suffix h
    | some _ => simp [hq] at h

/-- `lexeme[p]`: the skipper runs before `p` and not inside it. -/
def lexeme (p : Rule τ α) : Rule τ α where
  parse sk s := p.parse .none (sk s)
  parse_suffix {sk s _ _} h := (p.parse_suffix h).trans (sk.run_suffix s)

/-- The first `n` turns of the loop of `*p`. -/
def manyLoop (p : Rule τ α) (sk : Skipper τ) : ℕ → List τ → List α × List τ
  | 0, s => ([], s)
  | n + 1, s => match p.parse sk s with
    | some (a, r) => (a :: (manyLoop p sk n r).1, (manyLoop p sk n r).2)
    | none => ([], s)

theorem manyLoop_suffix (p : Rule τ α) (sk : Skipper τ) (n : ℕ) (s : List τ) :
    (manyLoop p sk n s).2 <:+ s := by
  induction n generalizing s with
  | zero => exact List.suffix_rfl
  | succ n ih =>
    unfold manyLoop
    split
    · next h => exact (ih _).trans (p.parse_suffix h)
    · exact List.suffix_rfl

/-- `*p`: a parser that reads something matches at most once for each token left. -/
def many (p : Rule τ α) : Rule τ (List α) where
  parse sk s := some (manyLoop p sk s.length s)
  parse_suffix {sk s _ r} h := by
    obtain ⟨-, rfl⟩ := Prod.ext_iff.1 (Option.some.inj h)
    exact manyLoop_suffix p sk s.length s

/-- `+p` -/
def plus (p : Rule τ α) : Rule τ (List α) := do
  let a ← p
  let as ← many p
  return a :: as

/-- `p` without its attribute. -/
def void (p : Rule τ α) : Rule τ Unit := do let _ ← p

/-- `repeat(n)[p]` -/
def times : ℕ → Rule τ α → Rule τ (List α)
  | 0, _ => attr []
  | n + 1, p => do
    let a ← p
    let as ← times n p
    return a :: as

section Parse

variable {p q : Rule τ α} {f : α → Rule τ β} {sk : Skipper τ} {s r : List τ} {a : α}

@[simp] theorem parse_pure : (pure a : Rule τ α).parse sk s = some (a, s) := rfl

@[simp] theorem parse_attr : (attr a : Rule τ α).parse sk s = some (a, s) := rfl

theorem parse_bind : (p >>= f).parse sk s =
    match p.parse sk s with
    | some (a, r) => (f a).parse sk r
    | none => none := rfl

theorem parse_bind_of_some (h : p.parse sk s = some (a, r)) :
    (p >>= f).parse sk s = (f a).parse sk r := by
  rw [parse_bind, h]

theorem parse_bind_of_none (h : p.parse sk s = none) : (p >>= f).parse sk s = none := by
  rw [parse_bind, h]

theorem parse_bind_eq_some {b : β} (h : (p >>= f).parse sk s = some (b, r)) :
    ∃ a t, p.parse sk s = some (a, t) ∧ (f a).parse sk t = some (b, r) := by
  rw [parse_bind] at h
  cases hp : p.parse sk s with
  | none => simp [hp] at h
  | some x =>
    rw [hp] at h
    exact ⟨x.1, x.2, rfl, h⟩

theorem parse_orElse_of_some {x : α × List τ} (h : p.parse sk s = some x) :
    (p <|> q).parse sk s = some x := by
  show (alt p q).parse sk s = some x
  simp only [alt, h]

theorem parse_orElse_of_none (h : p.parse sk s = none) :
    (p <|> q).parse sk s = q.parse sk s := by
  show (alt p q).parse sk s = _
  simp only [alt, h]

theorem parse_orElse_eq_some {x : α × List τ} (h : (p <|> q).parse sk s = some x) :
    p.parse sk s = some x ∨ p.parse sk s = none ∧ q.parse sk s = some x := by
  cases hp : p.parse sk s with
  | none => exact Or.inr ⟨rfl, (parse_orElse_of_none hp).symm.trans h⟩
  | some y => exact Or.inl ((parse_orElse_of_some hp).symm.trans h)

theorem parse_diff_of_some {q : Rule τ β} {x : β × List τ} (h : q.parse sk s = some x) :
    (p.diff q).parse sk s = none := by
  simp only [diff, h]

theorem parse_diff_of_none {q : Rule τ β} (h : q.parse sk s = none) :
    (p.diff q).parse sk s = p.parse sk s := by
  simp only [diff, h]

theorem parse_diff_eq_some {q : Rule τ β} {x : α × List τ} (h : (p.diff q).parse sk s = some x) :
    q.parse sk s = none ∧ p.parse sk s = some x := by
  cases hq : q.parse sk s with
  | none => exact ⟨rfl, (parse_diff_of_none hq).symm.trans h⟩
  | some y => rw [parse_diff_of_some hq] at h; cases h

theorem parse_lexeme : (lexeme p).parse sk s = p.parse .none (sk s) := rfl

theorem parse_token_of_cons {P : τ → Bool} {c : τ} (h : sk s = c :: r) :
    (token P).parse sk s = if P c then some (c, r) else none := by
  simp only [token, h]

theorem parse_token_of_nil {P : τ → Bool} (h : sk s = []) : (token P).parse sk s = none := by
  simp only [token, h]

theorem parse_lit_of_eq [DecidableEq τ] {w : List τ} (h : sk s = w ++ r) : (lit w).parse sk s = some ((), r) := by
  simp only [lit, h, List.prefix_append, if_true, List.drop_left]

theorem parse_lit_of_mismatch [DecidableEq τ] {w : List τ} (h : ¬ w <+: sk s) : (lit w).parse sk s = none := by
  simp only [lit, if_neg h]

theorem parse_lit_eq_some [DecidableEq τ] {w : List τ} {u : Unit} (h : (lit w).parse sk s = some (u, r)) :
    sk s = w ++ r := by
  simp only [lit] at h
  split_ifs at h with hp
  cases h
  exact (List.prefix_iff_eq_append.1 hp).symm

theorem parse_lit_of_head [DecidableEq τ] {c d : τ} {w : List τ} (h : sk s = d :: r) (hne : c ≠ d) :
    (lit (c :: w)).parse sk s = none := by
  refine parse_lit_of_mismatch fun hp => hne ?_
  rw [h, List.cons_prefix_cons] at hp
  exact hp.1

theorem parse_lit_of_nil [DecidableEq τ] {c : τ} {w : List τ} (h : sk s = []) :
    (lit (c :: w)).parse sk s = none := by
  refine parse_lit_of_mismatch fun hp => ?_
  rw [h] at hp
  cases List.prefix_nil.1 hp

end Parse

/-! ### Parsers that skip first

What such a parser does is settled by what the skipper leaves. -/

def SkipsFirst (p : Rule τ α) : Prop :=
  ∀ (sk : Skipper τ) s, p.parse sk (sk s) = p.parse sk s

section SkipsFirst

variable {p q : Rule τ α} {f : α → Rule τ β}

theorem skipsFirst_token (P : τ → Bool) : (token P).SkipsFirst := by
  intro sk s
  simp only [token, sk.run_run]

theorem skipsFirst_lit [DecidableEq τ] (w : List τ) : (lit w).SkipsFirst := by
  intro sk s
  simp only [lit, sk.run_run]

theorem SkipsFirst.bind (hp : p.SkipsFirst) : (p >>= f).SkipsFirst := by
  intro sk s
  rw [parse_bind, parse_bind, hp]

theorem SkipsFirst.orElse (hp : p.SkipsFirst) (hq : q.SkipsFirst) : (p <|> q).SkipsFirst := by
  intro sk s
  show (alt p q).parse sk (sk s) = (alt p q).parse sk s
  simp only [alt, hp sk s, hq sk s]

theorem SkipsFirst.diff {q : Rule τ β} (hp : p.SkipsFirst) (hq : q.SkipsFirst) :
    (p.diff q).SkipsFirst := by
  intro sk s
  simp only [Rule.diff, hp sk s, hq sk s]

theorem skipsFirst_lexeme (p : Rule τ α) : (lexeme p).SkipsFirst := by
  intro sk s
  rw [parse_lexeme, parse_lexeme, sk.run_run]

theorem SkipsFirst.plus (hp : p.SkipsFirst) : (plus p).SkipsFirst := hp.bind

/-- A parser that skips first does the same wherever the skipper leaves the same. -/
theorem SkipsFirst.parse_eq (hp : p.SkipsFirst) {sk : Skipper τ} {s t : List τ}
    (h : sk s = sk t) : p.parse sk s = p.parse sk t := by
  rw [← hp sk s, h, hp sk t]

end SkipsFirst

/-- A match is never empty, so that a loop of such matches ends. -/
def Reads (p : Rule τ α) : Prop :=
  ∀ ⦃sk s a r⦄, p.parse sk s = some (a, r) → r.length < s.length

section Reads

variable {p q : Rule τ α} {f : α → Rule τ β}

theorem parse_length_le {sk : Skipper τ} {s r : List τ} {a : α} (h : p.parse sk s = some (a, r)) :
    r.length ≤ s.length :=
  (p.parse_suffix h).length_le

theorem reads_token (P : τ → Bool) : (token P).Reads := by
  intro sk s a r h
  have hle := sk.length_le s
  cases hsk : sk s with
  | nil => rw [parse_token_of_nil hsk] at h; cases h
  | cons c t =>
    rw [parse_token_of_cons hsk] at h
    split_ifs at h
    cases h
    rw [hsk, List.length_cons] at hle
    omega

theorem reads_lit [DecidableEq τ] {w : List τ} (hw : w ≠ []) : (lit w).Reads := by
  intro sk s a r h
  have hle := sk.length_le s
  have hpos := List.length_pos_iff.2 hw
  rw [parse_lit_eq_some h, List.length_append] at hle
  omega

theorem Reads.bind (hp : p.Reads) : (p >>= f).Reads := by
  intro sk s b r h
  obtain ⟨a, t, ha, hb⟩ := parse_bind_eq_some h
  exact (parse_length_le hb).trans_lt (hp ha)

theorem Reads.bind_right (hf : ∀ a, (f a).Reads) : (p >>= f).Reads := by
  intro sk s b r h
  obtain ⟨a, t, ha, hb⟩ := parse_bind_eq_some h
  exact (hf a hb).trans_le (parse_length_le ha)

theorem Reads.orElse (hp : p.Reads) (hq : q.Reads) : (p <|> q).Reads := by
  intro sk s a r h
  rcases parse_orElse_eq_some h with h | ⟨-, h⟩
  · exact hp h
  · exact hq h

theorem Reads.diff {q : Rule τ β} (hp : p.Reads) : (p.diff q).Reads := by
  intro sk s a r h
  exact hp (parse_diff_eq_some h).2

theorem Reads.lexeme (hp : p.Reads) : (lexeme p).Reads := by
  intro sk s a r h
  exact (hp h).trans_le (sk.length_le s)

theorem Reads.plus (hp : p.Reads) : (plus p).Reads := hp.bind

end Reads

section Many

variable {p : Rule τ α} {sk : Skipper τ} {s r t : List τ} {a : α} {as : List α}

theorem manyLoop_eq (hp : p.Reads) {n m : ℕ} (hn : s.length ≤ n) (hm : s.length ≤ m) :
    manyLoop p sk n s = manyLoop p sk m s := by
  induction n generalizing m s with
  | zero =>
    cases m with
    | zero => rfl
    | succ m =>
      cases h : p.parse sk s with
      | none => simp only [manyLoop, h]
      | some x => have := @hp _ _ x.1 x.2 h; omega
  | succ n ih =>
    cases m with
    | zero =>
      cases h : p.parse sk s with
      | none => simp only [manyLoop, h]
      | some x => have := @hp _ _ x.1 x.2 h; omega
    | succ m =>
      cases h : p.parse sk s with
      | none => simp only [manyLoop, h]
      | some x =>
        have hlt := @hp _ _ x.1 x.2 h
        simp only [manyLoop, h, ih (s := x.2) (m := m) (by omega) (by omega)]

theorem parse_many_of_none (h : p.parse sk s = none) : (many p).parse sk s = some ([], s) := by
  cases hs : s.length with
  | zero => simp only [many, hs, manyLoop]
  | succ n => simp only [many, hs, manyLoop, h]

theorem parse_many_of_some (hp : p.Reads) (h : p.parse sk s = some (a, r))
    (hm : (many p).parse sk r = some (as, t)) : (many p).parse sk s = some (a :: as, t) := by
  have hlt := hp h
  obtain ⟨n, hn⟩ : ∃ n, s.length = n + 1 := ⟨s.length - 1, by omega⟩
  simp only [many, Option.some.injEq] at hm
  simp only [many, hn, manyLoop, h, manyLoop_eq hp (show r.length ≤ n by omega) le_rfl, hm]

theorem parse_many_eq_some (hp : p.Reads) (h : (many p).parse sk s = some (as, t)) :
    p.parse sk s = none ∧ as = [] ∧ t = s ∨
      ∃ a r as', p.parse sk s = some (a, r) ∧ as = a :: as' ∧
        (many p).parse sk r = some (as', t) := by
  cases hs : p.parse sk s with
  | none =>
    rw [parse_many_of_none hs] at h
    cases h
    exact Or.inl ⟨rfl, rfl, rfl⟩
  | some x =>
    obtain ⟨a, r⟩ := x
    obtain ⟨as', t', hm⟩ : ∃ as' t', (many p).parse sk r = some (as', t') := ⟨_, _, rfl⟩
    rw [parse_many_of_some hp hs hm] at h
    cases h
    exact Or.inr ⟨a, r, as', rfl, rfl, hm⟩

theorem parse_plus_of_some (h : p.parse sk s = some (a, r))
    (hm : (many p).parse sk r = some (as, t)) : (plus p).parse sk s = some (a :: as, t) := by
  rw [plus, parse_bind_of_some h, parse_bind_of_some hm]
  rfl

theorem parse_plus_of_none (h : p.parse sk s = none) : (plus p).parse sk s = none := by
  rw [plus, parse_bind_of_none h]

theorem parse_plus_eq_some (hp : p.Reads) (h : (plus p).parse sk s = some (as, t)) :
    as ≠ [] ∧ (many p).parse sk s = some (as, t) := by
  obtain ⟨a, r, ha, h⟩ := parse_bind_eq_some h
  obtain ⟨as', t', hm, h⟩ := parse_bind_eq_some h
  cases h
  exact ⟨List.cons_ne_nil _ _, parse_many_of_some hp ha hm⟩

theorem parse_plus_of_many (hp : p.Reads) (hne : as ≠ [])
    (h : (many p).parse sk s = some (as, t)) : (plus p).parse sk s = some (as, t) := by
  rcases parse_many_eq_some hp h with ⟨-, hnil, -⟩ | ⟨a, r, as', ha, rfl, hm⟩
  · exact absurd hnil hne
  · exact parse_plus_of_some ha hm

end Many

def Accepts (p : Rule τ α) (P : τ → Bool) : Prop :=
  ∀ c r, p.parse .none (c :: r) = none ↔ P c = false

theorem accepts_token (P : τ → Bool) : (token P).Accepts P := by
  intro c r
  rw [parse_token_of_cons rfl]
  cases P c <;> simp

theorem accepts_lit [DecidableEq τ] (d : τ) : (lit [d]).Accepts fun c => d = c := by
  intro c r
  by_cases h : d = c
  · subst h
    simp [parse_lit_of_eq (show Skipper.none (d :: r) = [d] ++ r from rfl)]
  · simp [parse_lit_of_head (w := []) (show Skipper.none (c :: r) = c :: r from rfl) h, h]

theorem Accepts.orElse {p q : Rule τ α} {P Q : τ → Bool} (hp : p.Accepts P) (hq : q.Accepts Q) :
    (p <|> q).Accepts fun c => P c || Q c := by
  intro c r
  cases h : p.parse .none (c :: r) with
  | none => simp [parse_orElse_of_none h, hq c r, (hp c r).1 h]
  | some x =>
    have hP : P c ≠ false := fun hP => by rw [(hp c r).2 hP] at h; cases h
    simp [parse_orElse_of_some h, hP]

theorem Accepts.void {p : Rule τ α} {P : τ → Bool} (hp : p.Accepts P) : (void p).Accepts P := by
  intro c r
  rw [← hp c r]
  cases h : p.parse .none (c :: r) with
  | none => simp [Rule.void, parse_bind_of_none h]
  | some x => simp [Rule.void, parse_bind_of_some (a := x.1) (r := x.2) h]

structure ReadsToken (p : Rule τ τ) (P : τ → Bool) : Prop where
  nil : p.parse .none [] = none
  cons : ∀ c r, p.parse .none (c :: r) = if P c then some (c, r) else none

section ReadsToken

variable {p : Rule τ τ} {P Q : τ → Bool}

theorem readsToken_token (P : τ → Bool) : (token P).ReadsToken P :=
  ⟨rfl, fun _ _ => rfl⟩

theorem ReadsToken.diff {q : Rule τ β} (hp : p.ReadsToken P) (hq : q.Accepts Q) :
    (p.diff q).ReadsToken fun c => P c && !Q c := by
  refine ⟨?_, fun c r => ?_⟩
  · cases h : q.parse .none [] with
    | none => rw [parse_diff_of_none h, hp.nil]
    | some x => rw [parse_diff_of_some h]
  · cases h : q.parse .none (c :: r) with
    | none => rw [parse_diff_of_none h, hp.cons, (hq c r).1 h, Bool.not_false, Bool.and_true]
    | some x =>
      have hQ : Q c = true := by
        cases hQ : Q c with
        | true => rfl
        | false => rw [(hq c r).2 hQ] at h; cases h
      rw [parse_diff_of_some h, hQ, Bool.not_true, Bool.and_false]
      rfl

theorem parse_many_of_readsToken (hp : p.ReadsToken P) (hr : p.Reads) (s : List τ) :
    (many p).parse .none s = some (s.takeWhile P, s.dropWhile P) := by
  induction s with
  | nil => exact parse_many_of_none hp.nil
  | cons c s ih =>
    cases h : P c with
    | true =>
      rw [List.takeWhile_cons_of_pos h, List.dropWhile_cons_of_pos h]
      exact parse_many_of_some hr (by rw [hp.cons, h, if_pos rfl]) ih
    | false =>
      rw [List.takeWhile_cons_of_neg (by simp [h]), List.dropWhile_cons_of_neg (by simp [h])]
      exact parse_many_of_none (by rw [hp.cons, h]; rfl)

theorem parse_lexeme_plus (hp : p.ReadsToken P) (hr : p.Reads) (sk : Skipper τ) (s : List τ) :
    (lexeme (plus p)).parse sk s =
      if (sk s).takeWhile P = [] then none
      else some ((sk s).takeWhile P, (sk s).dropWhile P) := by
  rw [parse_lexeme]
  have hm := parse_many_of_readsToken hp hr (sk s)
  split_ifs with h
  · cases hc : sk s with
    | nil => exact parse_plus_of_none hp.nil
    | cons c r =>
      rw [hc] at h
      refine parse_plus_of_none ?_
      rw [hp.cons, if_neg]
      intro hP
      rw [List.takeWhile_cons_of_pos hP] at h
      cases h
  · exact parse_plus_of_many hr h hm

end ReadsToken

theorem parse_times_lit [DecidableEq τ] (c : τ) (n : ℕ) (s : List τ) :
    (times n (lit [c])).parse .none s =
      if List.replicate n c <+: s then some (List.replicate n (), s.drop n) else none := by
  induction n generalizing s with
  | zero => simp [times]
  | succ n ih =>
    cases s with
    | nil =>
      rw [times, parse_bind_of_none (parse_lit_of_nil rfl), if_neg]
      intro h
      cases List.prefix_nil.1 h
    | cons d s =>
      by_cases hcd : c = d
      · subst hcd
        rw [times, parse_bind_of_some (parse_lit_of_eq (r := s) rfl), parse_bind, ih]
        simp only [List.replicate_succ, List.cons_prefix_cons, true_and]
        by_cases h : List.replicate n c <+: s
        · rw [if_pos h, if_pos h]
          rfl
        · rw [if_neg h, if_neg h]
      · rw [times, parse_bind_of_none (parse_lit_of_head rfl hcd), if_neg]
        intro h
        rw [List.replicate_succ, List.cons_prefix_cons] at h
        exact hcd h.1

end Rule

/-! ### Skippers made of a rule -/

/-- `skip_over`: the rule again and again until it fails. -/
def skipLoop (skip : Rule τ Unit) : ℕ → List τ → List τ
  | 0, s => s
  | n + 1, s => match skip.parse .none s with
    | some (_, r) => skipLoop skip n r
    | none => s

section SkipLoop

variable {skip : Rule τ Unit}

theorem skipLoop_suffix (n : ℕ) (s : List τ) : skipLoop skip n s <:+ s := by
  induction n generalizing s with
  | zero => exact List.suffix_rfl
  | succ n ih =>
    unfold skipLoop
    split
    · next h => exact (ih _).trans (skip.parse_suffix h)
    · exact List.suffix_rfl

theorem skipLoop_eq (hskip : skip.Reads) {n m : ℕ} {s : List τ} (hn : s.length ≤ n)
    (hm : s.length ≤ m) : skipLoop skip n s = skipLoop skip m s := by
  induction n generalizing m s with
  | zero =>
    cases m with
    | zero => rfl
    | succ m =>
      cases h : skip.parse .none s with
      | none => simp only [skipLoop, h]
      | some x => have := @hskip _ _ x.1 x.2 h; omega
  | succ n ih =>
    cases m with
    | zero =>
      cases h : skip.parse .none s with
      | none => simp only [skipLoop, h]
      | some x => have := @hskip _ _ x.1 x.2 h; omega
    | succ m =>
      cases h : skip.parse .none s with
      | none => simp only [skipLoop, h]
      | some x =>
        have hlt := @hskip _ _ x.1 x.2 h
        simp only [skipLoop, h, ih (s := x.2) (m := m) (by omega) (by omega)]

theorem skipLoop_of_some (hskip : skip.Reads) {s r : List τ} {u : Unit}
    (h : skip.parse .none s = some (u, r)) :
    skipLoop skip s.length s = skipLoop skip r.length r := by
  have hlt := hskip h
  obtain ⟨n, hn⟩ : ∃ n, s.length = n + 1 := ⟨s.length - 1, by omega⟩
  simp only [hn, skipLoop, h]
  exact skipLoop_eq hskip (by omega) le_rfl

theorem skipLoop_of_none {n : ℕ} {s : List τ} (h : skip.parse .none s = none) :
    skipLoop skip n s = s := by
  cases n with
  | zero => rfl
  | succ n => simp only [skipLoop, h]

/-- Where skipping ends, the rule fails. -/
theorem parse_skipLoop (hskip : skip.Reads) (s : List τ) :
    skip.parse .none (skipLoop skip s.length s) = none := by
  induction hs : s.length using Nat.strong_induction_on generalizing s with
  | _ n ih =>
    subst hs
    cases h : skip.parse .none s with
    | none => rw [skipLoop_of_none h, h]
    | some x =>
      rw [skipLoop_of_some hskip (u := x.1) (r := x.2) h]
      exact ih _ (@hskip _ _ x.1 x.2 h) _ rfl

end SkipLoop

/-- The skipper that runs a rule until it fails. -/
def Skipper.over (skip : Rule τ Unit) (hskip : skip.Reads) : Skipper τ where
  run s := skipLoop skip s.length s
  run_suffix s := skipLoop_suffix _ s
  run_run s := skipLoop_of_none (parse_skipLoop hskip s)

section Over

variable {skip : Rule τ Unit} {hskip : skip.Reads} {s r : List τ}

theorem Skipper.over_of_none (h : skip.parse .none s = Option.none) : Skipper.over skip hskip s = s :=
  skipLoop_of_none h

theorem Skipper.over_of_some {u : Unit} (h : skip.parse .none s = some (u, r)) :
    Skipper.over skip hskip s = Skipper.over skip hskip r :=
  skipLoop_of_some hskip h

/-- Induction along the turns of the skipper. -/
theorem Skipper.over_induction {motive : List τ → Prop}
    (stop : ∀ s, skip.parse .none s = Option.none → motive s)
    (step : ∀ s u r, skip.parse .none s = some (u, r) → motive r → motive s) (hskip : skip.Reads)
    (s : List τ) : motive s := by
  induction hs : s.length using Nat.strong_induction_on generalizing s with
  | _ n ih =>
    subst hs
    cases h : skip.parse .none s with
    | none => exact stop s h
    | some x => exact step s x.1 x.2 h (ih _ (@hskip _ _ x.1 x.2 h) _ rfl)

end Over

/-- `phrase_parse`: the skipper also runs behind a match. -/
def phraseParse (p : Rule τ α) (sk : Skipper τ) (s : List τ) : Option (α × List τ) :=
  (p.parse sk s).map fun (a, r) => (a, sk r)

theorem phraseParse_of_some {p : Rule τ α} {sk : Skipper τ} {s r : List τ} {a : α}
    (h : p.parse sk s = some (a, r)) : phraseParse p sk s = some (a, sk r) := by
  rw [phraseParse, h]
  rfl

end Qi
