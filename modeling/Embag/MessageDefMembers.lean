import Embag.MessageDefGaps

/-! What the rules of the grammar read of one member, whatever text stands behind it. -/

namespace Embag

open Qi Qi.Rule RosMsgSkipper RosMsgGrammar

theorem skipper_blanks (k : ℕ) {x : Bytes} (hx : StartsPlain x) :
    skipper (blanks (k + 1) ++ x) = blanks (k + 1) ++ x := by
  cases x with
  | nil => rw [List.append_nil]; exact skipper_of_none (Gap.skipRest_blanks _)
  | cons c r => exact skipper_of_blanks (Nat.succ_ne_zero k) (hx c rfl).1 (hx c rfl).2

theorem parse_blank_cons (k : ℕ) {x : Bytes} (hx : StartsPlain x) :
    (lit (bytes " ")).parse skipper (blanks (k + 1) ++ x) = some ((), blanks k ++ x) :=
  parse_lit_of_eq (skipper_blanks k hx)

theorem parse_blank_eq_none {x : Bytes} (hx : ∀ c ∈ (skipper x).head?, c ≠ 32) :
    (lit (bytes " ")).parse skipper x = none := by
  cases h : skipper x with
  | nil => exact parse_lit_of_nil h
  | cons c r => exact parse_lit_of_head h (Ne.symm (hx c (by rw [h]; rfl)))

theorem reads_blank : (lit (bytes " ")).Reads := reads_lit (by decide)

theorem parse_many_blanks (k : ℕ) {x : Bytes} (hx : StartsPlain x)
    {us : List Unit} {r : Bytes} (hm : (many (lit (bytes " "))).parse skipper x = some (us, r)) :
    (many (lit (bytes " "))).parse skipper (blanks k ++ x) = some (List.replicate k () ++ us, r) := by
  induction k with
  | zero => exact hm
  | succ k ih => exact parse_many_of_some reads_blank (parse_blank_cons k hx) ih

theorem parse_plus_blanks (k : ℕ) {x : Bytes} (hx : StartsPlain x)
    (hend : ∀ c ∈ (skipper x).head?, c ≠ 32) :
    (plus (lit (bytes " "))).parse skipper (blanks (k + 1) ++ x) =
      some (List.replicate (k + 1) (), x) := by
  have hm := parse_many_blanks k hx (parse_many_of_none (parse_blank_eq_none hend))
  rw [List.append_nil] at hm
  exact parse_plus_of_some (parse_blank_cons k hx) hm

/-- Text behind a name: it does not go on with the name. -/
def EndsName (x : Bytes) : Prop := ∀ c ∈ x.head?, isNameByte c = false

section Words

variable {w x : Bytes}

theorem startsPlain_of_word (hw : ∀ c ∈ w, isNameByte c) (hne : w ≠ []) :
    StartsPlain (w ++ x) := by
  obtain ⟨c, r, rfl⟩ := List.exists_cons_of_ne_nil hne
  have hc := isNameByte_spec (hw c List.mem_cons_self)
  exact startsPlain_cons hc.2.1 hc.2.2.1

theorem skipper_word (hw : ∀ c ∈ w, isNameByte c) (hne : w ≠ []) : skipper (w ++ x) = w ++ x := by
  obtain ⟨c, r, rfl⟩ := List.exists_cons_of_ne_nil hne
  have hc := isNameByte_spec (hw c List.mem_cons_self)
  exact skipper_of_plain hc.2.1 hc.2.2.1 hc.2.2.2.1

theorem head_word_ne_blank (hw : ∀ c ∈ w, isNameByte c) (hne : w ≠ []) :
    ∀ c ∈ (skipper (w ++ x)).head?, c ≠ 32 := by
  rw [skipper_word hw hne]
  obtain ⟨d, r, rfl⟩ := List.exists_cons_of_ne_nil hne
  intro c hc
  obtain rfl : d = c := by simpa using hc
  exact (isNameByte_spec (hw d List.mem_cons_self)).2.2.2.2.2.2.1

theorem parse_plus_word (hw : ∀ c ∈ w, isNameByte c) (hne : w ≠ []) (k : ℕ) :
    (plus (lit (bytes " "))).parse skipper (blanks (k + 1) ++ (w ++ x)) =
      some (List.replicate (k + 1) (), w ++ x) :=
  parse_plus_blanks k (startsPlain_of_word hw hne) (head_word_ne_blank hw hne)

theorem takeWhile_word (hw : ∀ c ∈ w, isNameByte c) (hx : EndsName x) :
    (w ++ x).takeWhile isNameByte = w := by
  rw [List.takeWhile_append_of_pos hw]
  cases x with
  | nil => simp
  | cons c r => simp [hx c rfl]

theorem parse_lexeme_word {p : Rule UInt8 UInt8} {P : UInt8 → Bool} (hp : p.ReadsToken P)
    (hr : p.Reads) (hP : ∀ c, isNameByte c → P c) (hw : ∀ c ∈ w, isNameByte c) (hne : w ≠ []) :
    (lexeme (plus p)).parse skipper (w ++ x) = some (w ++ x.takeWhile P, x.dropWhile P) := by
  have hall : ∀ c ∈ w, P c := fun c hc => hP c (hw c hc)
  have hnil : ¬ w ++ x.takeWhile P = [] := fun h => hne (List.append_eq_nil_iff.1 h).1
  rw [parse_lexeme_plus hp hr, skipper_word hw hne, List.takeWhile_append_of_pos hall,
    List.dropWhile_append_of_pos hall, if_neg hnil]

end Words

theorem parse_typeChar {c : UInt8} (hc : isNameByte c) (r : Bytes) :
    typeChar.parse skipper (c :: r) = some (c, r) := by
  have h := isNameByte_spec hc
  have hs : skipper (c :: r) = c :: r := skipper_of_plain h.2.1 h.2.2.1 h.2.2.2.1
  have hbracket : (lit (bytes "[")).parse skipper (c :: r) = none :=
    parse_lit_of_head hs (Ne.symm h.2.2.2.2.1)
  have hspace : (void space).parse skipper (c :: r) = none := by
    refine parse_bind_of_none ((parse_token_of_cons hs).trans (if_neg ?_))
    simp [h.2.1]
  unfold typeChar
  rw [parse_diff_of_none ((parse_orElse_of_none hbracket).trans hspace)]
  exact (parse_token_of_cons hs).trans (if_pos h.1)

theorem parse_typeChar_bracket (r : Bytes) : typeChar.parse skipper (91 :: r) = none := by
  have hs : skipper (91 :: r) = 91 :: r := skipper_of_plain (by decide) (by decide) (by decide)
  exact parse_diff_of_some (parse_orElse_of_some (parse_lit_of_eq (r := r) hs))

theorem parse_typeChar_blank (k : ℕ) {x : Bytes} (hx : StartsPlain x) :
    typeChar.parse skipper (blanks (k + 1) ++ x) = none := by
  have hs : skipper (blanks (k + 1) ++ x) = 32 :: (blanks k ++ x) := skipper_blanks k hx
  have hbracket : (lit (bytes "[")).parse skipper (blanks (k + 1) ++ x) = none :=
    parse_lit_of_head hs (by decide)
  have hspace : (void space).parse skipper (blanks (k + 1) ++ x) = some ((), blanks k ++ x) :=
    parse_bind_of_some ((parse_token_of_cons hs).trans (if_pos (by decide)))
  exact parse_diff_of_some ((parse_orElse_of_none hbracket).trans hspace)

theorem reads_typeChar : typeChar.Reads := Reads.diff reads_char

theorem parse_plus_typeChar {w x : Bytes} (hw : ∀ c ∈ w, isNameByte c) (hne : w ≠ [])
    (hx : typeChar.parse skipper x = none) :
    (plus typeChar).parse skipper (w ++ x) = some (w, x) := by
  have hmany : ∀ w : Bytes, (∀ c ∈ w, isNameByte c) →
      (many typeChar).parse skipper (w ++ x) = some (w, x) := by
    intro w hw
    induction w with
    | nil => exact parse_many_of_none hx
    | cons c w ih =>
      exact parse_many_of_some reads_typeChar (parse_typeChar (hw c List.mem_cons_self) _)
        (ih fun d hd => hw d (List.mem_cons_of_mem _ hd))
  exact parse_plus_of_many reads_typeChar hne (hmany w hw)

theorem ne_slash_of_identifier {c : UInt8} (h : (isLetter c || isDigit c) = true) : c ≠ 47 := by
  rintro rfl
  exact absurd h (by decide)

/-- Either the package `std_msgs` is written out, or `std_msgs/` is not what follows. -/
theorem TypeName.scope_cases (t : TypeName) {x : Bytes} (hx : EndsName x) :
    t.text = bytes "std_msgs/" ++ t.unscoped ∧ (∀ c ∈ t.unscoped, isNameByte c) ∧
        t.unscoped ≠ [] ∨
      ¬ bytes "std_msgs/" <+: t.text ++ x ∧ t.unscoped = t.text := by
  have hstd : bytes "std_msgs/" = bytes "std_msgs" ++ [47] := rfl
  have hmem : ∀ c ∈ bytes "std_msgs", isNameByte c = true ∧ c ≠ 47 := by
    have hall : (bytes "std_msgs").all (fun c => isNameByte c && c != 47) = true := rfl
    simpa using hall
  -- the part in front of the first slash
  have hfront : ∀ u v : Bytes, bytes "std_msgs/" <+: u ++ v → (∀ c ∈ u, c ≠ 47) →
      u ++ v.takeWhile (· ≠ 47) = bytes "std_msgs" := by
    rintro u v ⟨z, hz⟩ hu
    have htake := congrArg (List.takeWhile (· ≠ 47)) hz
    have hright : (u ++ v).takeWhile (· ≠ 47) = u ++ v.takeWhile (· ≠ 47) :=
      List.takeWhile_append_of_pos fun c hc => by simpa using hu c hc
    rw [hstd, List.append_assoc,
      List.takeWhile_append_of_pos (fun c hc => by simpa using (hmem c hc).2), hright] at htake
    rw [← htake]
    simp
  cases t with
  | name n =>
    refine Or.inr ⟨fun hp => ?_, rfl⟩
    have h := hfront n.text x hp fun c hc => ne_slash_of_identifier (n.valid c hc)
    have hnil : x.takeWhile (· ≠ 47) = [] := by
      cases x with
      | nil => rfl
      | cons c r =>
        by_cases hc : c = 47
        · simp [hc]
        · have hin : c ∈ bytes "std_msgs" := by
            rw [← h, List.takeWhile_cons_of_pos (by simpa using hc)]
            simp
          have := hx c rfl
          rw [(hmem c hin).1] at this
          cases this
    rw [hnil, List.append_nil] at h
    obtain ⟨z, hz⟩ := hp
    rw [text, h, hstd, List.append_assoc, List.append_cancel_left_eq] at hz
    rw [← hz] at hx
    exact absurd (hx 47 rfl) (by decide)
  | path p n =>
    by_cases hp : p.text = bytes "std_msgs"
    · refine Or.inl ⟨?_, ?_, ?_⟩
      · rw [text, unscoped, if_pos hp, hp]
        rfl
      · rw [unscoped, if_pos hp]
        exact n.nameBytes
      · rw [unscoped, if_pos hp]
        exact n.text_ne_nil
    · refine Or.inr ⟨fun hpre => hp ?_, ?_⟩
      · rw [text, List.append_assoc, List.append_assoc] at hpre
        have h := hfront p.text _ hpre fun c hc => ne_slash_of_identifier (p.valid c hc)
        rw [← h, show bytes "/" = [47] from rfl]
        simp
      · rw [unscoped, if_neg hp, text]

theorem parse_type (t : TypeName) {x : Bytes} (hx : EndsName x)
    (hend : typeChar.parse skipper x = none) :
    type.parse skipper (t.text ++ x) = some (t.unscoped, x) := by
  have hs : skipper (t.text ++ x) = t.text ++ x := skipper_word t.nameBytes t.text_ne_nil
  unfold type
  rcases t.scope_cases hx with ⟨htext, hbytes, hne⟩ | ⟨hstd, hunscoped⟩
  · rw [htext, List.append_assoc] at hs ⊢
    refine parse_orElse_of_some ?_
    rw [parse_bind_of_some (parse_lit_of_eq hs)]
    exact parse_plus_typeChar hbytes hne hend
  · have hlit : (lit (bytes "std_msgs/")).parse skipper (t.text ++ x) = none :=
      parse_lit_of_mismatch (by rw [hs]; exact hstd)
    rw [parse_orElse_of_none (parse_bind_of_none hlit), hunscoped]
    exact parse_plus_typeChar t.nameBytes t.text_ne_nil hend

theorem isNameByte_of_isDigit {c : UInt8} (h : isDigit c = true) : isNameByte c = true := by
  rw [isNameByte, h, Bool.or_true, Bool.true_or]

theorem Digits.nameBytes (d : Digits) : ∀ c ∈ d.text, isNameByte c :=
  fun c hc => isNameByte_of_isDigit (d.valid c hc)

def ArraySuffix.Fits : ArraySuffix → Prop
  | none => True
  | dynamic => True
  | fixed digits => decimalValue digits.text < 2 ^ 32

theorem parse_uint (d : Digits) (r : Bytes) :
    uint.parse skipper (d.text ++ 93 :: r) =
      if decimalValue d.text < 2 ^ 32 then some (decimalValue d.text, 93 :: r) else none := by
  have htake : (d.text ++ 93 :: r).takeWhile isDigit = d.text := by
    rw [List.takeWhile_append_of_pos d.valid, List.takeWhile_cons_of_neg (by decide),
      List.append_nil]
  have hdrop : (d.text ++ 93 :: r).dropWhile isDigit = 93 :: r := by
    rw [List.dropWhile_append_of_pos d.valid, List.dropWhile_cons_of_neg (by decide)]
  simp only [uint, skipper_word d.nameBytes d.ne_nil, htake, hdrop, d.ne_nil, false_or]
  by_cases h : decimalValue d.text < 2 ^ 32
  · rw [if_neg (by omega), if_pos h]
  · rw [if_pos (by omega), if_neg h]

theorem parse_uint_bracket (r : Bytes) : uint.parse skipper (93 :: r) = none := by
  have hs : skipper (93 :: r) = 93 :: r := skipper_of_plain (by decide) (by decide) (by decide)
  have htake : (93 :: r).takeWhile isDigit = [] := List.takeWhile_cons_of_neg (by decide)
  simp only [uint, hs, htake, true_or, if_true]

theorem parse_lit_byte {c : UInt8} (hc : isSpace c = false) (hh : c ≠ 35) (he : c ≠ 61)
    (r : Bytes) : (lit [c]).parse skipper (c :: r) = some ((), r) :=
  parse_lit_of_eq (skipper_of_plain hc hh he)

theorem parse_arraySize_none (k : ℕ) {x : Bytes} (hx : StartsPlain x) :
    arraySize.parse skipper (blanks (k + 1) ++ x) = some (0, blanks (k + 1) ++ x) := by
  have hs : skipper (blanks (k + 1) ++ x) = 32 :: (blanks k ++ x) := skipper_blanks k hx
  have hbracket : (lit (bytes "[")).parse skipper (blanks (k + 1) ++ x) = none :=
    parse_lit_of_head hs (by decide)
  exact parse_orElse_of_none (parse_bind_of_none hbracket)

theorem parse_arraySize_dynamic (x : Bytes) :
    arraySize.parse skipper (91 :: 93 :: x) = some (-1, x) := by
  have hopen : (lit (bytes "[")).parse skipper (91 :: 93 :: x) = some ((), 93 :: x) :=
    parse_lit_byte (by decide) (by decide) (by decide) _
  have hclose : (lit (bytes "]")).parse skipper (93 :: x) = some ((), x) :=
    parse_lit_byte (by decide) (by decide) (by decide) _
  refine parse_orElse_of_some ?_
  rw [parse_bind_of_some hopen,
    parse_bind_of_some (parse_orElse_of_none (parse_bind_of_none (parse_uint_bracket x)))]
  exact parse_bind_of_some hclose

theorem parse_arraySize_fixed (d : Digits) (x : Bytes) (hd : decimalValue d.text < 2 ^ 32) :
    arraySize.parse skipper (91 :: (d.text ++ 93 :: x)) =
      some (toInt32 (decimalValue d.text), x) := by
  have hopen : (lit (bytes "[")).parse skipper (91 :: (d.text ++ 93 :: x)) =
      some ((), d.text ++ 93 :: x) :=
    parse_lit_byte (by decide) (by decide) (by decide) _
  have hclose : (lit (bytes "]")).parse skipper (93 :: x) = some ((), x) :=
    parse_lit_byte (by decide) (by decide) (by decide) _
  refine parse_orElse_of_some ?_
  rw [parse_bind_of_some hopen, parse_bind_of_some
    (parse_orElse_of_some (parse_bind_of_some ((parse_uint d x).trans (if_pos hd))))]
  exact parse_bind_of_some hclose

/-- A size that is no `unsigned int` leaves the field a scalar in front of a bracket. -/
theorem parse_arraySize_unfit (d : Digits) (x : Bytes) (hd : ¬ decimalValue d.text < 2 ^ 32) :
    arraySize.parse skipper (91 :: (d.text ++ 93 :: x)) =
      some (0, 91 :: (d.text ++ 93 :: x)) := by
  have hopen : (lit (bytes "[")).parse skipper (91 :: (d.text ++ 93 :: x)) =
      some ((), d.text ++ 93 :: x) :=
    parse_lit_byte (by decide) (by decide) (by decide) _
  have hclose : (lit (bytes "]")).parse skipper (d.text ++ 93 :: x) = none := by
    obtain ⟨c, r, hc⟩ := List.exists_cons_of_ne_nil d.ne_nil
    have hs := skipper_word (x := 93 :: x) d.nameBytes d.ne_nil
    rw [hc] at hs ⊢
    refine parse_lit_of_head hs ?_
    rintro rfl
    exact absurd (d.valid 93 (by rw [hc]; exact List.mem_cons_self)) (by decide)
  refine parse_orElse_of_none ?_
  rw [parse_bind_of_some hopen, parse_bind_of_some
    (parse_orElse_of_none (parse_bind_of_none ((parse_uint d x).trans (if_neg hd))))]
  exact parse_bind_of_none hclose

def constantTail : Rule UInt8 Bytes := do
  let _ ← many (lit (bytes " "))
  let _ ← lit (bytes "=")
  let _ ← many (lit (bytes " "))
  constantValue

theorem readsToken_constantNameChar :
    (char.diff (void space <|> lit (bytes "="))).ReadsToken isConstantNameChar := by
  have h := readsToken_char.diff ((accepts_token isSpace).void.orElse (accepts_lit (61 : UInt8)))
  refine ⟨h.nil, fun c r => ?_⟩
  rw [isConstantNameChar]
  simp only [eq_comm (a := c)]
  exact h.cons c r

theorem readsToken_valueChar :
    (char.diff (void space <|> eol <|> lit (bytes "#"))).ReadsToken isValueChar := by
  have h := readsToken_char.diff
    ((accepts_token isSpace).void.orElse (accepts_eol.orElse (accepts_lit (35 : UInt8))))
  refine ⟨h.nil, fun c r => ?_⟩
  have hP : isValueChar c =
      (isAscii c && !(isSpace c || ((decide (c = 10) || decide (c = 13)) || decide (35 = c)))) := by
    by_cases h10 : c = 10
    · subst h10
      decide
    · by_cases h13 : c = 13
      · subst h13
        decide
      · simp [isValueChar, h10, h13, eq_comm]
  rw [hP]
  exact h.cons c r

theorem isConstantNameChar_of_nameByte {c : UInt8} (h : isNameByte c = true) :
    isConstantNameChar c = true := by
  have hc := isNameByte_spec h
  simp [isConstantNameChar, hc]

theorem isValueChar_of_nameByte {c : UInt8} (h : isNameByte c = true) : isValueChar c = true := by
  have hc := isNameByte_spec h
  simp [isValueChar, hc]

theorem endsName_blanks (k : ℕ) (x : Bytes) : EndsName (blanks (k + 1) ++ x) := by
  intro c hc
  obtain rfl : 32 = c := by simpa [blanks, List.replicate_succ] using hc
  decide

theorem endsName_bracket (x : Bytes) : EndsName (91 :: x) := by
  intro c hc
  obtain rfl : 91 = c := by simpa using hc
  decide

theorem parse_constant (t : TypeName) (k : ℕ) (n : Identifier) (x : Bytes) :
    constant.parse skipper (t.text ++ (blanks (k + 1) ++ (n.text ++ x))) =
      (constantTail.parse skipper (x.dropWhile isConstantNameChar)).map fun vr =>
        (⟨t.unscoped, n.text ++ x.takeWhile isConstantNameChar, vr.1⟩, vr.2) := by
  have hplain : StartsPlain (n.text ++ x) := startsPlain_of_word n.nameBytes n.text_ne_nil
  have htype := parse_type t (endsName_blanks k (n.text ++ x)) (parse_typeChar_blank k hplain)
  have hname : constantName.parse skipper (n.text ++ x) =
      some (n.text ++ x.takeWhile isConstantNameChar, x.dropWhile isConstantNameChar) :=
    parse_lexeme_word readsToken_constantNameChar (Reads.diff reads_char)
      (fun _ => isConstantNameChar_of_nameByte) n.nameBytes n.text_ne_nil
  unfold constant constantTail
  rw [parse_bind_of_some htype,
    parse_bind_of_some (parse_plus_word n.nameBytes n.text_ne_nil k), parse_bind_of_some hname]
  -- the rest of the rule is the tail, with the attribute put together
  generalize x.dropWhile isConstantNameChar = y
  cases h₁ : (many (lit (bytes " "))).parse skipper y with
  | none => simp only [parse_bind_of_none h₁, Option.map_none]
  | some r₁ =>
    rw [parse_bind_of_some h₁, parse_bind_of_some h₁]
    cases h₂ : (lit (bytes "=")).parse skipper r₁.2 with
    | none => simp only [parse_bind_of_none h₂, Option.map_none]
    | some r₂ =>
      rw [parse_bind_of_some h₂, parse_bind_of_some h₂]
      cases h₃ : (many (lit (bytes " "))).parse skipper r₂.2 with
      | none => simp only [parse_bind_of_none h₃, Option.map_none]
      | some r₃ =>
        rw [parse_bind_of_some h₃, parse_bind_of_some h₃]
        cases h₄ : constantValue.parse skipper r₃.2 with
        | none => rw [parse_bind_of_none h₄]; rfl
        | some r₄ => rw [parse_bind_of_some h₄]; rfl

theorem parse_constant_bracket (t : TypeName) (x : Bytes) :
    constant.parse skipper (t.text ++ 91 :: x) = none := by
  have hs : skipper (91 :: x) = 91 :: x := skipper_of_plain (by decide) (by decide) (by decide)
  have hblank : (lit (bytes " ")).parse skipper (91 :: x) = none :=
    parse_lit_of_head hs (by decide)
  unfold constant
  rw [parse_bind_of_some (parse_type t (endsName_bracket x) (parse_typeChar_bracket x)),
    parse_bind_of_none (parse_plus_of_none hblank)]

/-- Text behind a field's name or a constant's value. -/
def EndsValue (x : Bytes) : Prop := ∀ c ∈ x.head?, isValueChar c = false

theorem EndsValue.takeWhile {x : Bytes} (h : EndsValue x) : x.takeWhile isValueChar = [] := by
  cases x with
  | nil => rfl
  | cons c r => exact List.takeWhile_cons_of_neg (by simp [h c rfl])

theorem EndsValue.dropWhile {x : Bytes} (h : EndsValue x) : x.dropWhile isValueChar = x := by
  cases x with
  | nil => rfl
  | cons c r => exact List.dropWhile_cons_of_neg (by simp [h c rfl])

theorem parse_fieldName (n : Identifier) {x : Bytes} (hx : EndsValue x) :
    fieldName.parse skipper (n.text ++ x) = some (n.text, x) := by
  have h := parse_lexeme_word (x := x) readsToken_valueChar (Reads.diff reads_char)
    (fun _ => isValueChar_of_nameByte) n.nameBytes n.text_ne_nil
  rw [hx.takeWhile, hx.dropWhile, List.append_nil] at h
  exact h

theorem fixed_text_append (d : Digits) (x : Bytes) :
    (ArraySuffix.fixed d).text ++ x = 91 :: (d.text ++ 93 :: x) := by
  simp [ArraySuffix.text, show bytes "[" = [91] from rfl, show bytes "]" = [93] from rfl]

theorem parse_arraySize (a : ArraySuffix) (ha : a.Fits) (k : ℕ) {x : Bytes} (hx : StartsPlain x) :
    arraySize.parse skipper (a.text ++ (blanks (k + 1) ++ x)) =
      some (a.size, blanks (k + 1) ++ x) := by
  cases a with
  | none => exact parse_arraySize_none k hx
  | dynamic => exact parse_arraySize_dynamic _
  | fixed d =>
    rw [fixed_text_append]
    exact parse_arraySize_fixed d _ ha

theorem parse_type_suffix (t : TypeName) (a : ArraySuffix) (k : ℕ) {x : Bytes}
    (hx : StartsPlain x) :
    type.parse skipper (t.text ++ (a.text ++ (blanks (k + 1) ++ x))) =
      some (t.unscoped, a.text ++ (blanks (k + 1) ++ x)) := by
  cases a with
  | none => exact parse_type t (endsName_blanks k x) (parse_typeChar_blank k hx)
  | dynamic => exact parse_type t (endsName_bracket _) (parse_typeChar_bracket _)
  | fixed d =>
    rw [fixed_text_append]
    exact parse_type t (endsName_bracket _) (parse_typeChar_bracket _)

theorem parse_field (t : TypeName) (a : ArraySuffix) (ha : a.Fits) (k : ℕ) (n : Identifier)
    {x : Bytes} (hx : EndsValue x) :
    field.parse skipper (t.text ++ (a.text ++ (blanks (k + 1) ++ (n.text ++ x)))) =
      some (⟨t.unscoped, a.size, n.text⟩, x) := by
  have hplain : StartsPlain (n.text ++ x) := startsPlain_of_word n.nameBytes n.text_ne_nil
  unfold field
  rw [parse_bind_of_some (parse_type_suffix t a k hplain),
    parse_bind_of_some (parse_arraySize a ha k hplain),
    parse_bind_of_some (parse_plus_word n.nameBytes n.text_ne_nil k),
    parse_bind_of_some (parse_fieldName n hx)]
  rfl

theorem parse_field_unfit (t : TypeName) (d : Digits) (hd : ¬ decimalValue d.text < 2 ^ 32)
    (x : Bytes) : field.parse skipper (t.text ++ ((ArraySuffix.fixed d).text ++ x)) = none := by
  have hs (y : Bytes) : skipper (91 :: y) = 91 :: y :=
    skipper_of_plain (by decide) (by decide) (by decide)
  have hblank (y : Bytes) : (lit (bytes " ")).parse skipper (91 :: y) = none :=
    parse_lit_of_head (hs y) (by decide)
  unfold field
  rw [fixed_text_append,
    parse_bind_of_some (parse_type t (endsName_bracket _) (parse_typeChar_bracket _)),
    parse_bind_of_some (parse_arraySize_unfit d x hd),
    parse_bind_of_none (parse_plus_of_none (hblank _))]

end Embag
