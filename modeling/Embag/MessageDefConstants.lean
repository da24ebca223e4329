import Embag.MessageDefMembers

/-! The rule `constant` behind the name: where it finds no `=`, and which value it
reads where it does. Runs of 80 `=` are separators to the skipper, also inside a line. -/

namespace Embag

open Qi Qi.Rule RosMsgSkipper RosMsgGrammar

def valueTail : Rule UInt8 Bytes := do
  let _ ← many (lit (bytes " "))
  constantValue

/-- A loop of blanks and what skips first behind it do the same wherever the skipper
leaves the same. -/
theorem parse_blanks_bind_skipper {α : Type} {p : Rule UInt8 α} (hp : p.SkipsFirst) (s : Bytes) :
    (do let _ ← many (lit (bytes " ")); p : Rule UInt8 α).parse skipper (skipper s) =
      (do let _ ← many (lit (bytes " ")); p : Rule UInt8 α).parse skipper s := by
  have hlit := skipsFirst_lit (bytes " ") skipper s
  cases h : (lit (bytes " ")).parse skipper s with
  | none =>
    rw [parse_bind_of_some (parse_many_of_none h),
      parse_bind_of_some (parse_many_of_none (hlit.trans h)), hp]
  | some x =>
    obtain ⟨as, t, hm⟩ : ∃ as t, (many (lit (bytes " "))).parse skipper x.2 = some (as, t) :=
      ⟨_, _, rfl⟩
    rw [parse_bind_of_some (parse_many_of_some reads_blank h hm),
      parse_bind_of_some (parse_many_of_some reads_blank (hlit.trans h) hm)]

theorem parse_valueTail_skipper (s : Bytes) :
    valueTail.parse skipper (skipper s) = valueTail.parse skipper s :=
  parse_blanks_bind_skipper (skipsFirst_lexeme _) s

theorem parse_constantTail_skipper (s : Bytes) :
    constantTail.parse skipper (skipper s) = constantTail.parse skipper s :=
  parse_blanks_bind_skipper (SkipsFirst.bind (skipsFirst_lit _)) s

theorem parse_valueTail_separator (x : Bytes) :
    valueTail.parse skipper (separatorLine ++ x) = valueTail.parse skipper x := by
  rw [← parse_valueTail_skipper, skipper_separatorLine, parse_valueTail_skipper]

theorem parse_constantTail_separator (x : Bytes) :
    constantTail.parse skipper (separatorLine ++ x) = constantTail.parse skipper x := by
  rw [← parse_constantTail_skipper, skipper_separatorLine, parse_constantTail_skipper]

theorem parse_blanks_bind {α : Type} (p : Rule UInt8 α) (k : ℕ) {x : Bytes} (hx : StartsPlain x) :
    (do let _ ← many (lit (bytes " ")); p : Rule UInt8 α).parse skipper (blanks k ++ x) =
      (do let _ ← many (lit (bytes " ")); p : Rule UInt8 α).parse skipper x := by
  obtain ⟨us, r, hm⟩ : ∃ us r, (many (lit (bytes " "))).parse skipper x = some (us, r) :=
    ⟨_, _, rfl⟩
  rw [parse_bind_of_some (parse_many_blanks k hx hm), parse_bind_of_some hm]

def IsConstantValue (v : Bytes) : Prop := v ≠ [] ∧ ∀ c ∈ v, isValueChar c

theorem parse_constantValue (s : Bytes) : constantValue.parse skipper s =
    if (skipper s).takeWhile isValueChar = [] then none
    else some ((skipper s).takeWhile isValueChar, (skipper s).dropWhile isValueChar) :=
  parse_lexeme_plus readsToken_valueChar (Reads.diff reads_char) skipper s

theorem isConstantValue_of_parse {s v r : Bytes}
    (h : constantValue.parse skipper s = some (v, r)) : IsConstantValue v := by
  rw [parse_constantValue] at h
  split_ifs at h with hnil
  cases h
  exact ⟨hnil, fun c hc => List.mem_takeWhile_imp hc⟩

theorem isConstantValue_of_parse_constantTail {s v r : Bytes}
    (h : constantTail.parse skipper s = some (v, r)) : IsConstantValue v := by
  obtain ⟨_, _, -, h⟩ := parse_bind_eq_some h
  obtain ⟨_, _, -, h⟩ := parse_bind_eq_some h
  obtain ⟨_, _, -, h⟩ := parse_bind_eq_some h
  exact isConstantValue_of_parse h

theorem isValueChar_spec {c : UInt8} (h : isValueChar c = true) :
    isSpace c = false ∧ c ≠ 35 ∧ c ≠ 32 := by
  simp only [isValueChar, Bool.and_eq_true, Bool.not_eq_true', Bool.or_eq_false_iff,
    decide_eq_false_iff_not] at h
  refine ⟨h.2.1, h.2.2, ?_⟩
  rintro rfl
  exact absurd h.2.1 (by decide)

theorem EndsValue.ne_equals {x : Bytes} (hx : EndsValue x) : ∀ c ∈ x.head?, c ≠ 61 := by
  rintro c hc rfl
  exact absurd (hx 61 hc) (by decide)

/-- A separator that starts in front of a value's end does not reach beyond it. -/
theorem separatorLine_prefix_value {x : Bytes} (hx : EndsValue x) (w : Bytes) :
    separatorLine <+: w ++ x ↔ separatorLine <+: w := by
  refine ⟨fun h => ?_, fun h => h.trans (List.prefix_append _ _)⟩
  rcases List.prefix_or_prefix_of_prefix h (List.prefix_append w x) with hw | ⟨z, hz⟩
  · exact hw
  · cases z with
    | nil => rw [← hz, List.append_nil]
    | cons c z =>
      rw [← hz, List.prefix_append_right_inj] at h
      obtain ⟨y, rfl⟩ := h
      have hc : c ∈ separatorLine := by rw [← hz]; simp
      exact absurd (eq_of_mem_separatorLine hc) (hx.ne_equals c rfl)

theorem skipper_value {w x : Bytes} (hw : IsConstantValue w) (hx : EndsValue x)
    (hsep : ¬ separatorLine <+: w) : skipper (w ++ x) = w ++ x := by
  obtain ⟨hne, hall⟩ := hw
  obtain ⟨c, r, rfl⟩ := List.exists_cons_of_ne_nil hne
  have hc := isValueChar_spec (hall c List.mem_cons_self)
  exact skipper_of_not_separatorLine hc.1 hc.2.1
    fun h => hsep ((separatorLine_prefix_value hx _).1 h)

theorem startsPlain_value {w : Bytes} (hw : IsConstantValue w) (x : Bytes) :
    StartsPlain (w ++ x) := by
  obtain ⟨hne, hall⟩ := hw
  obtain ⟨c, r, rfl⟩ := List.exists_cons_of_ne_nil hne
  have hc := isValueChar_spec (hall c List.mem_cons_self)
  exact startsPlain_cons hc.1 hc.2.1

theorem parse_valueTail_value {w x : Bytes} (hw : IsConstantValue w) (hx : EndsValue x)
    (hsep : ¬ separatorLine <+: w) : valueTail.parse skipper (w ++ x) = some (w, x) := by
  have hs := skipper_value hw hx hsep
  have hblank : (lit (bytes " ")).parse skipper (w ++ x) = none := by
    refine parse_blank_eq_none fun c hc => ?_
    rw [hs, List.head?_append_of_ne_nil _ hw.1] at hc
    exact (isValueChar_spec (hw.2 c (List.mem_of_mem_head? hc))).2.2
  have htake : (w ++ x).takeWhile isValueChar = w := by
    rw [List.takeWhile_append_of_pos hw.2, hx.takeWhile, List.append_nil]
  have hdrop : (w ++ x).dropWhile isValueChar = x := by
    rw [List.dropWhile_append_of_pos hw.2, hx.dropWhile]
  rw [valueTail, parse_bind_of_some (parse_many_of_none hblank), parse_constantValue, hs, htake,
    hdrop, if_neg hw.1]

theorem parse_constantTail_equals {y : Bytes} (hsep : ¬ separatorLine <+: 61 :: y) :
    constantTail.parse skipper (61 :: y) = valueTail.parse skipper y := by
  have hs : skipper (61 :: y) = 61 :: y :=
    skipper_of_not_separatorLine (by decide) (by decide) hsep
  have hblank : (lit (bytes " ")).parse skipper (61 :: y) = none :=
    parse_lit_of_head hs (by decide)
  have hequals : (lit (bytes "=")).parse skipper (61 :: y) = some ((), y) := parse_lit_of_eq hs
  rw [constantTail, parse_bind_of_some (parse_many_of_none hblank), parse_bind_of_some hequals]
  rfl

theorem parse_constantTail_of_ne {c : UInt8} {y : Bytes} (hc : isSpace c = false) (hh : c ≠ 35)
    (he : c ≠ 61) : constantTail.parse skipper (c :: y) = none := by
  have hs : skipper (c :: y) = c :: y := skipper_of_plain hc hh he
  have hblank : (lit (bytes " ")).parse skipper (c :: y) = none := by
    refine parse_lit_of_head hs ?_
    rintro rfl
    exact absurd hc (by decide)
  have hequals : (lit (bytes "=")).parse skipper (c :: y) = none :=
    parse_lit_of_head hs (Ne.symm he)
  rw [constantTail, parse_bind_of_some (parse_many_of_none hblank), parse_bind_of_none hequals]

/-- Text behind a value in which the rest of the rule finds neither an `=` nor a value
that starts with one. -/
structure EndsConstant (x : Bytes) : Prop where
  endsValue : EndsValue x
  no_equals : constantTail.parse skipper x = none
  no_value : ∀ {v r}, valueTail.parse skipper x = some (v, r) → v.head? ≠ some 61

section Cut

variable {x : Bytes}

theorem length_le_of_parse_valueTail (hx : EndsConstant x) (w : Bytes)
    (hw : ∀ c ∈ w, isValueChar c) {v r : Bytes}
    (h : valueTail.parse skipper (w ++ x) = some (v, r)) (hv : v.head? = some 61) :
    v.length ≤ w.length := by
  induction hn : w.length using Nat.strong_induction_on generalizing w with
  | _ n ih =>
    subst hn
    by_cases hsep : separatorLine <+: w
    · obtain ⟨w', rfl⟩ := hsep
      have hlen : w'.length < (separatorLine ++ w').length := by simp [length_separatorLine]
      rw [List.append_assoc, parse_valueTail_separator] at h
      exact (ih _ hlen w' (fun c hc => hw c (List.mem_append_right _ hc)) h rfl).trans hlen.le
    · by_cases hne : w = []
      · subst hne
        exact absurd hv (hx.no_value h)
      · rw [parse_valueTail_value ⟨hne, hw⟩ hx.endsValue hsep] at h
        cases h
        exact le_rfl

theorem length_lt_of_parse_constantTail (hx : EndsConstant x) (w : Bytes)
    (hw : ∀ c ∈ w, isValueChar c) {v r : Bytes}
    (h : constantTail.parse skipper (w ++ x) = some (v, r)) (hv : v.head? = some 61) :
    v.length < w.length := by
  induction hn : w.length using Nat.strong_induction_on generalizing w with
  | _ n ih =>
    subst hn
    by_cases hsep : separatorLine <+: w
    · obtain ⟨w', rfl⟩ := hsep
      have hlen : w'.length < (separatorLine ++ w').length := by simp [length_separatorLine]
      rw [List.append_assoc, parse_constantTail_separator] at h
      exact (ih _ hlen w' (fun c hc => hw c (List.mem_append_right _ hc)) h rfl).trans hlen
    · cases w with
      | nil =>
        rw [List.nil_append, hx.no_equals] at h
        cases h
      | cons c w =>
        have hc := isValueChar_spec (hw c List.mem_cons_self)
        by_cases he : c = 61
        · subst he
          have hsep' := mt (separatorLine_prefix_value hx.endsValue _).1 hsep
          rw [List.cons_append] at h hsep'
          rw [parse_constantTail_equals hsep'] at h
          exact Nat.lt_succ_of_le (length_le_of_parse_valueTail hx w
            (fun d hd => hw d (List.mem_cons_of_mem _ hd)) h hv)
        · rw [List.cons_append, parse_constantTail_of_ne hc.1 hc.2.1 he] at h
          cases h

/-- The constant's value is what the rule reads: ASCII without white space and `#`, and
no run of 80 `=` starts at the `=` in front of it or at its first byte. -/
structure ValueOk (after : ℕ) (value : Bytes) : Prop where
  isValue : IsConstantValue value
  atEquals : ¬ separatorLine <+: 61 :: (blanks after ++ value)
  atValue : ¬ separatorLine <+: value

theorem parse_constantTail_of_valueOk {before after : ℕ} {v : Bytes} (hv : ValueOk after v)
    (hx : EndsValue x) :
    constantTail.parse skipper (blanks before ++ 61 :: (blanks after ++ (v ++ x))) =
      some (v, x) := by
  have hsep : ¬ separatorLine <+: 61 :: (blanks after ++ (v ++ x)) := by
    have h := mt (separatorLine_prefix_value hx (61 :: (blanks after ++ v))).1 hv.atEquals
    rw [List.cons_append, List.append_assoc] at h
    exact h
  have hblanks : constantTail.parse skipper (blanks before ++ 61 :: (blanks after ++ (v ++ x))) =
      constantTail.parse skipper (61 :: (blanks after ++ (v ++ x))) :=
    parse_blanks_bind _ before (startsPlain_cons (by decide) (by decide))
  have hblanks' : valueTail.parse skipper (blanks after ++ (v ++ x)) =
      valueTail.parse skipper (v ++ x) :=
    parse_blanks_bind _ after (startsPlain_value hv.isValue x)
  rw [hblanks, parse_constantTail_equals hsep, hblanks',
    parse_valueTail_value hv.isValue hx hv.atValue]

theorem parse_constantTail_ne {before after : ℕ} {v r : Bytes} (hv : ¬ ValueOk after v)
    (hx : EndsConstant x) :
    constantTail.parse skipper (blanks before ++ 61 :: (blanks after ++ (v ++ x))) ≠
      some (v, r) := by
  intro h
  have hvalue : IsConstantValue v := isConstantValue_of_parse_constantTail h
  have hblanks : constantTail.parse skipper (blanks before ++ 61 :: (blanks after ++ (v ++ x))) =
      constantTail.parse skipper (61 :: (blanks after ++ (v ++ x))) :=
    parse_blanks_bind _ before (startsPlain_cons (by decide) (by decide))
  have hsub : ∀ {u w : Bytes}, v = u ++ w → ∀ c ∈ w, isValueChar c :=
    fun hw c hc => hvalue.2 c (by rw [hw]; exact List.mem_append_right _ hc)
  rw [hblanks] at h
  by_cases hequals : separatorLine <+: 61 :: (blanks after ++ v)
  · -- the `=` of the constant is the first of a separator
    cases after with
    | succ k =>
      obtain ⟨w, hw⟩ := hequals
      rw [separatorLine_eq] at hw
      exact absurd (List.cons.inj (List.cons.inj hw).2).1 (by decide)
    | zero =>
      obtain ⟨w, hw⟩ := hequals
      rw [separatorLine_eq] at hw
      have hv79 : v = List.replicate 79 61 ++ w := ((List.cons.inj hw).2).symm
      have hcut : 61 :: (blanks 0 ++ (v ++ x)) = separatorLine ++ (w ++ x) := by
        rw [hv79, List.append_assoc, separatorLine_eq]
        rfl
      rw [hcut, parse_constantTail_separator] at h
      have hlt := length_lt_of_parse_constantTail hx w (hsub hv79) h (by rw [hv79]; rfl)
      rw [hv79, List.length_append, List.length_replicate] at hlt
      omega
  · by_cases hat : separatorLine <+: v
    · obtain ⟨w, hw⟩ := hat
      have hsep : ¬ separatorLine <+: 61 :: (blanks after ++ (v ++ x)) := by
        have h' := mt (separatorLine_prefix_value hx.endsValue (61 :: (blanks after ++ v))).1 hequals
        rw [List.cons_append, List.append_assoc] at h'
        exact h'
      have hblanks' : valueTail.parse skipper (blanks after ++ (v ++ x)) =
          valueTail.parse skipper (v ++ x) :=
        parse_blanks_bind _ after (startsPlain_value hvalue x)
      rw [parse_constantTail_equals hsep, hblanks', ← hw, List.append_assoc,
        parse_valueTail_separator] at h
      have hle := length_le_of_parse_valueTail hx w (hsub hw.symm) h
        (by rw [separatorLine_eq]; rfl)
      rw [List.length_append, length_separatorLine] at hle
      omega
    · exact hv ⟨hvalue, hequals, hat⟩

end Cut

theorem Gap.skipped_newline {g : Gap} (hg : g.CommentFree) : Gap.Skipped (.newline :: g) := by
  have hwhite : g.dropWhile Gap.isWhite = [] := by
    rw [List.dropWhile_eq_nil_iff]
    intro p hp
    cases p with
    | comment c => exact absurd hp (hg c)
    | blank => rfl
    | newline => rfl
  rw [Gap.Skipped, Gap.skipper_newline, hwhite]
  exact skipper_nil

theorem Gap.residue_blanks {g : Gap} (hg : g.CommentFree) : ∃ k, skipper g.text = blanks k := by
  have h := g.residue fun c hc => absurd hc (hg c)
  generalize skipper g.text = s at h
  cases h with
  | nil ascii => exact ⟨0, rfl⟩
  | blanks k indents => exact ⟨k + 1, rfl⟩
  | comment c b r mem mem' ascii => exact absurd mem (hg c)

theorem parse_blanks_bind_gap {α : Type} {p : Rule UInt8 α} (hp : p.SkipsFirst) {g : Gap}
    (hg : g.CommentFree) {x : Bytes} (hx : StartsPlain x)
    (hend : ∀ c ∈ (skipper x).head?, c ≠ 32) :
    (do let _ ← many (lit (bytes " ")); p : Rule UInt8 α).parse skipper (g.text ++ x) =
      p.parse skipper x := by
  have hstop := parse_many_of_none (parse_blank_eq_none hend)
  obtain ⟨k, hk⟩ := Gap.residue_blanks hg
  have hs := g.skipper_text_append hx
  rw [hk] at hs
  rw [← parse_blanks_bind_skipper hp, hs]
  cases k with
  | zero =>
    rw [if_pos (show blanks 0 = [] from rfl), parse_blanks_bind_skipper hp,
      parse_bind_of_some hstop]
  | succ k =>
    rw [if_neg (show blanks (k + 1) ≠ [] from List.cons_ne_nil _ _), parse_blanks_bind p (k + 1) hx,
      parse_bind_of_some hstop]

/-- Behind a gap without comments the rule `constant` finds no `=`, and no value it
finds starts with one. -/
theorem endsConstant_gap {g : Gap} (hg : g.CommentFree) {x : Bytes}
    (hend : EndsValue (g.text ++ x)) (hx : StartsPlain x) (hblank : ∀ c ∈ (skipper x).head?, c ≠ 32)
    (hequals : ∀ c ∈ (skipper x).head?, c ≠ 61) : EndsConstant (g.text ++ x) := by
  refine ⟨hend, ?_, ?_⟩
  · have h := parse_blanks_bind_gap
      (p := do let _ ← lit (bytes "="); let _ ← many (lit (bytes " ")); constantValue)
      (SkipsFirst.bind (skipsFirst_lit _)) hg hx hblank
    refine h.trans (parse_bind_of_none ?_)
    cases hs : skipper x with
    | nil => exact parse_lit_of_nil hs
    | cons c r => exact parse_lit_of_head hs (Ne.symm (hequals c (by rw [hs]; rfl)))
  · intro v r h hv
    have hvalue : valueTail.parse skipper (g.text ++ x) = constantValue.parse skipper x :=
      parse_blanks_bind_gap (skipsFirst_lexeme _) hg hx hblank
    rw [hvalue, parse_constantValue] at h
    split_ifs at h with hnil
    cases h
    cases hs : skipper x with
    | nil => rw [hs] at hnil; exact hnil rfl
    | cons c t =>
      rw [hs] at hv hnil
      by_cases hc : isValueChar c = true
      · rw [List.takeWhile_cons_of_pos hc] at hv
        exact hequals c (by rw [hs]; rfl) (by simpa using hv)
      · rw [List.takeWhile_cons_of_neg hc] at hv
        cases hv

end Embag
