import Embag.MessageDefText

/-! What the skipper of message definitions eats, given as plain list functions, and
where it stops. -/

namespace Embag

open Qi Qi.Rule

namespace RosMsgSkipper

/-- The bytes of a comment: ASCII up to the end of the line. -/
def isCommentChar (c : UInt8) : Bool := isAscii c && !(c = 10 || c = 13)

/-- The bytes of a constant's name: ASCII up to white space or `=`. -/
def isConstantNameChar (c : UInt8) : Bool := isAscii c && !(isSpace c || c = 61)

/-- The bytes of a field's name and of a constant's value: ASCII up to white space or `#`. -/
def isValueChar (c : UInt8) : Bool := isAscii c && !(isSpace c || c = 35)

/-- What `eol` leaves. -/
def eolRest : Bytes → Option Bytes
  | 13 :: 10 :: r => some r
  | 13 :: r => some r
  | 10 :: r => some r
  | _ => none

def commentRest (s : Bytes) : Option Bytes :=
  match s.dropWhile isSpace with
  | 35 :: r => some (r.dropWhile isCommentChar)
  | _ => none

def separatorRest (s : Bytes) : Option Bytes :=
  if separatorLine <+: s then some (s.drop 80) else none

/-- What one turn of the skipper leaves. -/
def skipRest (s : Bytes) : Option Bytes :=
  ((eolRest s).map (List.dropWhile isSpace)) <|> commentRest s <|> separatorRest s <|>
    eolRest (s.dropWhile (· = 32))

theorem eolRest_cons_of_ne {c : UInt8} {r : Bytes} (h10 : c ≠ 10) (h13 : c ≠ 13) :
    eolRest (c :: r) = none := by
  unfold eolRest
  split <;> simp_all

theorem parse_eol (s : Bytes) : eol.parse .none s = (eolRest s).map fun r => ((), r) := by
  have hcrlf (s : Bytes) : (lit (bytes "\r\n")).parse .none s =
      if [13, 10] <+: s then some ((), s.drop 2) else none := rfl
  have hlf (s : Bytes) : (lit (bytes "\n")).parse .none s =
      if [10] <+: s then some ((), s.drop 1) else none := rfl
  have hcr (s : Bytes) : (lit (bytes "\r")).parse .none s =
      if [13] <+: s then some ((), s.drop 1) else none := rfl
  unfold eol
  cases s with
  | nil => rfl
  | cons c r =>
    by_cases h13 : c = 13
    · subst h13
      cases r with
      | nil => rfl
      | cons d r =>
        by_cases h10 : d = 10
        · subst h10
          exact parse_orElse_of_some (by simp [hcrlf])
        · rw [parse_orElse_of_none (by simp [hcrlf, Ne.symm h10]),
            parse_orElse_of_none (by simp [hlf]), hcr]
          simp [eolRest, h10]
    · by_cases h10 : c = 10
      · subst h10
        rw [parse_orElse_of_none (by simp [hcrlf])]
        exact parse_orElse_of_some (by simp [hlf])
      · rw [parse_orElse_of_none (by simp [hcrlf, Ne.symm h13]),
          parse_orElse_of_none (by simp [hlf, Ne.symm h10]), hcr, eolRest_cons_of_ne h10 h13]
        simp [Ne.symm h13]

theorem accepts_eol : eol.Accepts fun c => c = 10 || c = 13 := by
  intro c r
  rw [parse_eol]
  by_cases h10 : c = 10
  · subst h10
    simp [eolRest]
  · by_cases h13 : c = 13
    · subst h13
      cases r with
      | nil => simp [eolRest]
      | cons d r => by_cases hd : d = 10 <;> simp [eolRest, hd]
    · simp [eolRest_cons_of_ne h10 h13, h10, h13]

theorem readsToken_char : char.ReadsToken isAscii := readsToken_token _

theorem reads_char : char.Reads := reads_token _

theorem readsToken_commentChar : (char.diff eol).ReadsToken isCommentChar :=
  readsToken_char.diff accepts_eol

theorem parse_many_space (s : Bytes) :
    (many space).parse .none s = some (s.takeWhile isSpace, s.dropWhile isSpace) :=
  parse_many_of_readsToken (readsToken_token _) (reads_token _) s

theorem parse_many_blank (s : Bytes) : (many (lit (bytes " "))).parse .none s =
    some (List.replicate (s.takeWhile (· = 32)).length (), s.dropWhile (· = 32)) := by
  induction s with
  | nil => exact parse_many_of_none (parse_lit_of_nil rfl)
  | cons c s ih =>
    by_cases h : c = 32
    · subst h
      exact parse_many_of_some (reads_lit (by decide)) (parse_lit_of_eq rfl) ih
    · have hlit : (lit (bytes " ")).parse .none (c :: s) = none :=
        parse_lit_of_head (d := c) rfl (Ne.symm h)
      rw [parse_many_of_none hlit]
      simp [h]

theorem parse_lineNoise (s : Bytes) : lineNoise.parse .none s =
    ((eolRest s).map (List.dropWhile isSpace)).map fun r => ((), r) := by
  rw [lineNoise, parse_bind, parse_eol]
  cases h : eolRest s with
  | none => rfl
  | some r => exact parse_bind_of_some (parse_many_space r)

theorem parse_comment (s : Bytes) :
    comment.parse .none s = (commentRest s).map fun r => ((), r) := by
  rw [comment, parse_bind_of_some (parse_many_space s), commentRest]
  cases hs : s.dropWhile isSpace with
  | nil => exact parse_bind_of_none (parse_lit_of_nil rfl)
  | cons c r =>
    by_cases h : c = 35
    · subst h
      have hlit : (lit (bytes "#")).parse .none (35 :: r) = some ((), r) := parse_lit_of_eq rfl
      rw [parse_bind_of_some hlit]
      exact parse_bind_of_some
        (parse_many_of_readsToken readsToken_commentChar (Reads.diff reads_char) r)
    · have hlit : (lit (bytes "#")).parse .none (c :: r) = none :=
        parse_lit_of_head (d := c) rfl (Ne.symm h)
      rw [parse_bind_of_none hlit]
      split <;> simp_all

theorem parse_separator (s : Bytes) :
    separator.parse .none s = (separatorRest s).map fun r => ((), r) := by
  have htimes : (times 80 (lit (bytes "="))).parse .none s =
      if separatorLine <+: s then some (List.replicate 80 (), s.drop 80) else none := by
    unfold separatorLine
    rw [show bytes "=" = [61] from rfl]
    exact parse_times_lit 61 80 s
  unfold separator separatorRest
  by_cases h : separatorLine <+: s
  · rw [if_pos h] at htimes ⊢
    have heol : eol.parse .none s = none := by
      obtain ⟨t, rfl⟩ := h
      rw [parse_eol, separatorLine_eq, List.cons_append,
        eolRest_cons_of_ne (by decide) (by decide)]
      rfl
    rw [parse_bind_of_some ((parse_diff_of_none heol).trans htimes)]
    rfl
  · rw [if_neg h] at htimes ⊢
    cases heol : eol.parse .none s with
    | none => rw [parse_bind_of_none ((parse_diff_of_none heol).trans htimes)]; rfl
    | some x => rw [parse_bind_of_none (parse_diff_of_some heol)]; rfl

theorem parse_blankLines (s : Bytes) :
    blankLines.parse .none s = (eolRest (s.dropWhile (· = 32))).map fun r => ((), r) := by
  rw [blankLines, parse_bind_of_some (parse_many_blank s), parse_eol]

theorem parse_skip (s : Bytes) : skip.parse .none s = (skipRest s).map fun r => ((), r) := by
  unfold skip skipRest
  cases hn : eolRest s with
  | some r => exact parse_orElse_of_some (by rw [parse_lineNoise, hn]; rfl)
  | none =>
    rw [parse_orElse_of_none (by rw [parse_lineNoise, hn]; rfl)]
    cases hc : commentRest s with
    | some r => exact parse_orElse_of_some (by rw [parse_comment, hc]; rfl)
    | none =>
      rw [parse_orElse_of_none (by rw [parse_comment, hc]; rfl)]
      cases hp : separatorRest s with
      | some r => exact parse_orElse_of_some (by rw [parse_separator, hp]; rfl)
      | none =>
        rw [parse_orElse_of_none (by rw [parse_separator, hp]; rfl),
          parse_orElse_of_none (by rw [parse_eol, hn]; rfl), parse_blankLines]
        rfl

theorem eolRest_of_not_space {c : UInt8} {r : Bytes} (hc : isSpace c = false) :
    eolRest (c :: r) = none := by
  refine eolRest_cons_of_ne ?_ ?_
  · rintro rfl
    exact absurd hc (by decide)
  · rintro rfl
    exact absurd hc (by decide)

theorem commentRest_of_not_space {c : UInt8} {r : Bytes} (hc : isSpace c = false) (hh : c ≠ 35) :
    commentRest (c :: r) = none := by
  rw [commentRest, List.dropWhile_cons_of_neg (by simp [hc])]
  split <;> simp_all

theorem not_separatorLine_prefix_of_ne {c : UInt8} {r : Bytes} (h : c ≠ 61) :
    ¬ separatorLine <+: c :: r := by
  intro hp
  rw [separatorLine_eq, List.cons_prefix_cons] at hp
  exact h hp.1.symm

theorem not_separatorLine_prefix_nil : ¬ separatorLine <+: [] := by
  intro hp
  have hlen := hp.length_le
  rw [length_separatorLine] at hlen
  exact absurd hlen (by decide)

theorem skipRest_eq_none {k : ℕ} {c : UInt8} {r : Bytes} (hc : isSpace c = false) (hh : c ≠ 35)
    (hsep : k = 0 → ¬ separatorLine <+: c :: r) :
    skipRest (List.replicate k 32 ++ c :: r) = none := by
  have hc32 : c ≠ 32 := by
    rintro rfl
    exact absurd hc (by decide)
  have hblank : (List.replicate k 32 ++ c :: r).dropWhile (· = 32) = c :: r := by
    rw [List.dropWhile_append_of_pos (by simp), List.dropWhile_cons_of_neg (by simpa using hc32)]
  have hspace : (List.replicate k 32 ++ c :: r).dropWhile isSpace = c :: r := by
    rw [List.dropWhile_append_of_pos (by intro x hx; rw [List.eq_of_mem_replicate hx]; decide),
      List.dropWhile_cons_of_neg (by simp [hc])]
  have heol : eolRest (List.replicate k 32 ++ c :: r) = none := by
    cases k with
    | zero => exact eolRest_of_not_space hc
    | succ k => exact eolRest_cons_of_ne (by decide) (by decide)
  have hcomment : commentRest (List.replicate k 32 ++ c :: r) = none := by
    rw [commentRest, hspace]
    split <;> simp_all
  have hrule : separatorRest (List.replicate k 32 ++ c :: r) = none := by
    refine if_neg ?_
    cases k with
    | zero => exact hsep rfl
    | succ k => exact not_separatorLine_prefix_of_ne (by decide)
  rw [skipRest, heol, hcomment, hrule, hblank, eolRest_of_not_space hc]
  rfl

theorem skipRest_separatorLine (r : Bytes) : skipRest (separatorLine ++ r) = some r := by
  have hcons : separatorLine ++ r = 61 :: (List.replicate 79 61 ++ r) := by
    rw [separatorLine_eq, List.cons_append]
  have heol : eolRest (separatorLine ++ r) = none := by
    rw [hcons]
    exact eolRest_of_not_space (by decide)
  have hcomment : commentRest (separatorLine ++ r) = none := by
    rw [hcons]
    exact commentRest_of_not_space (by decide) (by decide)
  have hrule : separatorRest (separatorLine ++ r) = some r := by
    rw [separatorRest, if_pos (List.prefix_append _ _)]
    exact congrArg some (List.drop_left' length_separatorLine)
  rw [skipRest, heol, hcomment, hrule]
  rfl

theorem skipRest_nil : skipRest [] = none := by
  have hrule : separatorRest [] = none := if_neg not_separatorLine_prefix_nil
  simp [skipRest, eolRest, commentRest, hrule]

theorem skipRest_newline (r : Bytes) : skipRest (10 :: r) = some (r.dropWhile isSpace) := rfl

/-- A comment is eaten with the white space before it, unless a line ends there at once. -/
theorem skipRest_of_comment {s r : Bytes} (heol : eolRest s = none)
    (h : s.dropWhile isSpace = 35 :: r) : skipRest s = some (r.dropWhile isCommentChar) := by
  have hcomment : commentRest s = some (r.dropWhile isCommentChar) := by simp only [commentRest, h]
  rw [skipRest, heol, hcomment]
  rfl

end RosMsgSkipper

section Skipper

open RosMsgSkipper

variable {s r : Bytes}

theorem skipper_of_none (h : skipRest s = none) : skipper s = s :=
  Skipper.over_of_none (by rw [parse_skip, h]; rfl)

theorem skipper_of_some (h : skipRest s = some r) : skipper s = skipper r :=
  Skipper.over_of_some (u := ()) (by rw [parse_skip, h]; rfl)

theorem skipper_nil : skipper [] = [] := skipper_of_none skipRest_nil

theorem skipper_separatorLine (r : Bytes) : skipper (separatorLine ++ r) = skipper r :=
  skipper_of_some (skipRest_separatorLine r)

theorem skipper_of_plain {c : UInt8} (hc : isSpace c = false) (hh : c ≠ 35) (he : c ≠ 61) :
    skipper (c :: r) = c :: r :=
  skipper_of_none (skipRest_eq_none (k := 0) hc hh fun _ => not_separatorLine_prefix_of_ne he)

theorem skipper_of_not_separatorLine {c : UInt8} (hc : isSpace c = false) (hh : c ≠ 35)
    (h : ¬ separatorLine <+: c :: r) : skipper (c :: r) = c :: r :=
  skipper_of_none (skipRest_eq_none (k := 0) hc hh fun _ => h)

theorem skipper_of_blanks {k : ℕ} {c : UInt8} (hk : k ≠ 0) (hc : isSpace c = false) (hh : c ≠ 35) :
    skipper (List.replicate k 32 ++ c :: r) = List.replicate k 32 ++ c :: r :=
  skipper_of_none (skipRest_eq_none hc hh fun h => absurd h hk)

theorem skipper_newline (r : Bytes) : skipper (10 :: r) = skipper (r.dropWhile isSpace) :=
  skipper_of_some (skipRest_newline r)

/-- Induction along the turns of the skipper. -/
theorem skipper_induction {motive : Bytes → Prop} (stop : ∀ s, skipRest s = none → motive s)
    (step : ∀ s r, skipRest s = some r → motive r → motive s) (s : Bytes) : motive s := by
  refine Skipper.over_induction (fun s h => stop s ?_) (fun s u r h => step s r ?_) reads_skip s
  · rw [parse_skip, Option.map_eq_none_iff] at h
    exact h
  · rw [parse_skip, Option.map_eq_some_iff] at h
    obtain ⟨r', hr', h⟩ := h
    cases h
    exact hr'

end Skipper

end Embag
