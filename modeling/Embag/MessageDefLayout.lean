import Embag.MessageDefConstants

/-! When the grammar reads a laid out definition as what it stands for. What it has to
give back is left open, so that a reading of the syntax tree can be compared as well as
the tree itself. -/

namespace Embag

open Qi Qi.Rule RosMsgSkipper RosMsgGrammar

/-- The rule `member` reads the item as what it stands for, in front of `x`. A scalar
field must not go on as a constant: behind its name, and the bytes the rule for a
constant's name adds to it, no `=` and value may follow. -/
def Item.Ok (x : Bytes) : Item → Prop
  | .field _ .none _ _ => constantTail.parse skipper (x.dropWhile isConstantNameChar) = none
  | .field _ array _ _ => array.Fits
  | .constant _ _ _ _ after value => ValueOk after value

/-- Enough is known about the text behind the item to exclude that its value is read there. -/
def Item.Determined (x : Bytes) : Item → Prop
  | .field _ _ _ _ => True
  | .constant _ _ _ _ after value => ValueOk after value ∨ EndsConstant x

theorem parse_member_of_constant {s r : Bytes} {c : ConstantDef}
    (h : constant.parse skipper s = some (c, r)) :
    member.parse skipper s = some (.constant c, r) :=
  parse_orElse_of_some (parse_bind_of_some h)

theorem parse_member_of_field {s r : Bytes} {f : FieldInfo}
    (hc : constant.parse skipper s = none) (h : field.parse skipper s = some (f, r)) :
    member.parse skipper s = some (.field f, r) :=
  (parse_orElse_of_none (parse_bind_of_none hc)).trans (parse_bind_of_some h)

theorem parse_member_eq_some {s r : Bytes} {m : MemberInfo}
    (h : member.parse skipper s = some (m, r)) :
    (∃ c, constant.parse skipper s = some (c, r) ∧ m = .constant c) ∨
      constant.parse skipper s = none ∧ ∃ f, field.parse skipper s = some (f, r) ∧ m = .field f := by
  rcases parse_orElse_eq_some h with h | ⟨hn, h⟩
  · obtain ⟨c, t, hc, h⟩ := parse_bind_eq_some h
    cases h
    exact Or.inl ⟨c, hc, rfl⟩
  · obtain ⟨f, t, hf, h⟩ := parse_bind_eq_some h
    cases h
    refine Or.inr ⟨?_, f, hf, rfl⟩
    cases hc : constant.parse skipper s with
    | none => rfl
    | some c => rw [parse_bind_of_some (a := c.1) (r := c.2) hc] at hn; cases hn

theorem field_text_append (t : TypeName) (a : ArraySuffix) (k : ℕ) (n : Identifier) (x : Bytes) :
    (Item.field t a k n).text ++ x =
      t.text ++ (a.text ++ (blanks (k + 1) ++ (n.text ++ x))) := by
  simp only [Item.text, List.append_assoc]

theorem constant_text_append (t : TypeName) (k : ℕ) (n : Identifier) (before after : ℕ)
    (v x : Bytes) : (Item.constant t k n before after v).text ++ x =
      t.text ++ (blanks (k + 1) ++ (n.text ++ (blanks before ++
        61 :: (blanks after ++ (v ++ x))))) := by
  simp only [Item.text, List.append_assoc, List.cons_append]

theorem parse_constant_item (t : TypeName) (k : ℕ) (n : Identifier) (before after : ℕ)
    (v x : Bytes) : constant.parse skipper ((Item.constant t k n before after v).text ++ x) =
      (constantTail.parse skipper (blanks before ++ 61 :: (blanks after ++ (v ++ x)))).map
        fun vr => (⟨t.unscoped, n.text, vr.1⟩, vr.2) := by
  have hstop : ∀ y : Bytes, (blanks before ++ 61 :: y).takeWhile isConstantNameChar = [] ∧
      (blanks before ++ 61 :: y).dropWhile isConstantNameChar = blanks before ++ 61 :: y := by
    intro y
    cases before with
    | zero => exact ⟨rfl, rfl⟩
    | succ k => exact ⟨rfl, rfl⟩
  rw [constant_text_append, parse_constant, (hstop _).1, (hstop _).2, List.append_nil]

theorem parse_constant_array (t : TypeName) {a : ArraySuffix} (ha : a ≠ .none) (x : Bytes) :
    constant.parse skipper (t.text ++ (a.text ++ x)) = none := by
  cases a with
  | none => exact absurd rfl ha
  | dynamic => exact parse_constant_bracket t _
  | fixed d =>
    rw [fixed_text_append]
    exact parse_constant_bracket t _

theorem parse_member_of_ok {i : Item} {x : Bytes} (hx : EndsValue x) (h : i.Ok x) :
    member.parse skipper (i.text ++ x) = some (i.info, x) := by
  cases i with
  | constant t k n before after v =>
    refine parse_member_of_constant ?_
    rw [parse_constant_item, parse_constantTail_of_valueOk h hx]
    rfl
  | field t a k n =>
    by_cases ha : a = .none
    · subst ha
      refine parse_member_of_field ?_ ?_
      · rw [field_text_append]
        exact (parse_constant t k n x).trans (by rw [show constantTail.parse skipper _ = none from h]; rfl)
      · rw [field_text_append]
        exact parse_field t .none trivial k n hx
    · have hfits : a.Fits := by
        cases a with
        | none => exact trivial
        | dynamic => exact h
        | fixed d => exact h
      rw [field_text_append]
      exact parse_member_of_field (parse_constant_array t ha _) (parse_field t a hfits k n hx)

/-- An item that is not read as what it stands for is read as something of the other
kind, or as a constant of another value, or not at all. -/
theorem parse_member_of_not_ok {i : Item} {x r : Bytes} {m : MemberInfo} (hdet : i.Determined x)
    (h : ¬ i.Ok x) (hm : member.parse skipper (i.text ++ x) = some (m, r)) :
    match i with
    | .field _ _ _ _ => ∃ c, m = .constant c
    | .constant _ _ _ _ _ value => ∀ c, m = .constant c → c.value ≠ value := by
  cases i with
  | constant t k n before after v =>
    rintro c rfl hvalue
    rcases parse_member_eq_some hm with ⟨c', hc, he⟩ | ⟨-, f, -, he⟩
    · cases he
      rw [parse_constant_item, Option.map_eq_some_iff] at hc
      obtain ⟨⟨v', r'⟩, htail, hpair⟩ := hc
      cases hpair
      obtain rfl : v' = v := hvalue
      exact parse_constantTail_ne h (hdet.resolve_left h) htail
    · cases he
  | field t a k n =>
    rcases parse_member_eq_some hm with ⟨c, -, he⟩ | ⟨hc, f, hf, -⟩
    · exact ⟨c, he⟩
    · cases a with
      | none =>
        rw [field_text_append] at hc
        have hnone := (parse_constant t k n x).symm.trans hc
        rw [Option.map_eq_none_iff] at hnone
        exact absurd hnone h
      | dynamic => exact absurd trivial h
      | fixed d =>
        rw [field_text_append, parse_field_unfit t d h] at hf
        cases hf

/-- What of a syntax tree is compared with what the text stands for. -/
structure Comparison (β : Type) where
  read : MemberInfo → β
  meant : Item → β
  /-- The tree the grammar is to build says what the item says. -/
  Exact : Item → Prop
  read_info : ∀ i, read i.info = meant i ↔ Exact i
  field_of_read : ∀ {m t a k n}, read m = meant (.field t a k n) → ∃ f, m = .field f
  constant_of_read : ∀ {m t k n before after v},
    read m = meant (.constant t k n before after v) → ∃ c, m = .constant c ∧ c.value = v

variable {β : Type} (cmp : Comparison β)

theorem Comparison.ok_of_read {i : Item} {x r : Bytes} {m : MemberInfo} (hx : EndsValue x)
    (hdet : i.Determined x) (hm : member.parse skipper (i.text ++ x) = some (m, r))
    (hread : cmp.read m = cmp.meant i) : i.Ok x ∧ cmp.Exact i ∧ r = x := by
  by_cases h : i.Ok x
  · rw [parse_member_of_ok hx h] at hm
    cases hm
    exact ⟨h, (cmp.read_info i).1 hread, rfl⟩
  · have hne := parse_member_of_not_ok hdet h hm
    cases i with
    | field t a k n =>
      obtain ⟨c, rfl⟩ := hne
      obtain ⟨f, hf⟩ := cmp.field_of_read hread
      cases hf
    | constant t k n before after v =>
      obtain ⟨c, hc, hv⟩ := cmp.constant_of_read hread
      exact absurd hv (hne c hc)

/-- The skipper stops at a byte that starts no rule. -/
def Stuck (s : Bytes) : Prop := ∃ c r, skipper s = c :: r ∧ (c = 32 ∨ isAscii c = false)

def memberRule : Rule UInt8 MemberInfo := member.diff (lit (bytes "MSG: "))

theorem skipsFirst_typeChar : typeChar.SkipsFirst :=
  SkipsFirst.diff (skipsFirst_token _) ((skipsFirst_lit _).orElse (skipsFirst_token _).bind)

theorem skipsFirst_type : type.SkipsFirst :=
  SkipsFirst.orElse (SkipsFirst.bind (skipsFirst_lit _)) skipsFirst_typeChar.plus

theorem skipsFirst_memberRule : memberRule.SkipsFirst :=
  SkipsFirst.diff
    (SkipsFirst.orElse (SkipsFirst.bind (SkipsFirst.bind skipsFirst_type))
      (SkipsFirst.bind (SkipsFirst.bind skipsFirst_type)))
    (skipsFirst_lit _)

theorem reads_type : type.Reads :=
  Reads.orElse (Reads.bind (reads_lit (by decide))) reads_typeChar.plus

theorem reads_memberRule : memberRule.Reads :=
  Reads.diff (Reads.orElse (Reads.bind (Reads.bind reads_type))
    (Reads.bind (Reads.bind reads_type)))

theorem parse_memberRule_of_type {s : Bytes} (h : type.parse skipper s = none) :
    memberRule.parse skipper s = none := by
  have hconstant : constant.parse skipper s = none := parse_bind_of_none h
  have hfield : field.parse skipper s = none := parse_bind_of_none h
  have hmember : member.parse skipper s = none :=
    (parse_orElse_of_none (parse_bind_of_none hconstant)).trans (parse_bind_of_none hfield)
  unfold memberRule
  cases hlit : (lit (bytes "MSG: ")).parse skipper s with
  | none => rw [parse_diff_of_none hlit, hmember]
  | some x => rw [parse_diff_of_some hlit]

theorem parse_type_of_typeChar {s : Bytes} (hlit : (lit (bytes "std_msgs/")).parse skipper s = none)
    (h : typeChar.parse skipper s = none) : type.parse skipper s = none :=
  (parse_orElse_of_none (parse_bind_of_none hlit)).trans (parse_plus_of_none h)

theorem parse_memberRule_of_nil {s : Bytes} (h : skipper s = []) :
    memberRule.parse skipper s = none := by
  refine parse_memberRule_of_type (parse_type_of_typeChar (parse_lit_of_nil h) ?_)
  have hchar : char.parse skipper s = none := parse_token_of_nil h
  unfold typeChar
  cases hstop : (lit (bytes "[") <|> void space).parse skipper s with
  | none => rw [parse_diff_of_none hstop, hchar]
  | some x => rw [parse_diff_of_some hstop]

theorem Stuck.parse_memberRule {s : Bytes} (h : Stuck s) :
    memberRule.parse skipper s = none := by
  obtain ⟨c, r, hs, hc⟩ := h
  have hne : (115 : UInt8) ≠ c := by
    rintro rfl
    exact absurd hc (by decide)
  refine parse_memberRule_of_type (parse_type_of_typeChar (parse_lit_of_head hs hne) ?_)
  rcases hc with rfl | hc
  · have hbracket : (lit (bytes "[")).parse skipper s = none := parse_lit_of_head hs (by decide)
    have hspace : (void space).parse skipper s = some ((), r) :=
      parse_bind_of_some ((parse_token_of_cons hs).trans (if_pos (by decide)))
    exact parse_diff_of_some ((parse_orElse_of_none hbracket).trans hspace)
  · have hchar : char.parse skipper s = none :=
      (parse_token_of_cons hs).trans (if_neg (by simp [hc]))
    unfold typeChar
    cases hstop : (lit (bytes "[") <|> void space).parse skipper s with
    | none => rw [parse_diff_of_none hstop, hchar]
    | some x => rw [parse_diff_of_some hstop]

theorem Stuck.parse_embeddedTypeDefinition {s : Bytes} (h : Stuck s) :
    embeddedTypeDefinition.parse skipper s = none := by
  obtain ⟨c, r, hs, hc⟩ := h
  have hne : (77 : UInt8) ≠ c := by
    rintro rfl
    exact absurd hc (by decide)
  have hlong : (lit (bytes "MSG: std_msgs/")).parse skipper s = none := parse_lit_of_head hs hne
  have hshort : (lit (bytes "MSG: ")).parse skipper s = none := parse_lit_of_head hs hne
  exact parse_bind_of_none (parse_bind_of_none ((parse_orElse_of_none hlong).trans hshort))

theorem Stuck.skipper_ne_nil {s : Bytes} (h : Stuck s) : skipper s ≠ [] := by
  obtain ⟨c, r, hs, -⟩ := h
  rw [hs]
  exact List.cons_ne_nil _ _

/-- A gap without carriage returns in its comments is skipped, or nothing is read behind it. -/
theorem Gap.stuck_of_not_skipped {g : Gap} (hcr : g.CrFree) (h : ¬ g.Skipped) {x : Bytes}
    (hx : StartsPlain x) : Stuck (g.text ++ x) := by
  rw [Gap.Skipped] at h
  have hs := g.skipper_text_append hx
  rw [if_neg h] at hs
  have hr := g.residue hcr
  unfold Stuck
  rw [hs]
  generalize skipper g.text = s at hr h
  cases hr with
  | nil ascii => exact absurd rfl h
  | blanks k indents => exact ⟨32, _, rfl, Or.inl rfl⟩
  | comment c b r mem mem' ascii => exact ⟨b, _, rfl, Or.inr ascii⟩

theorem Placed.EndsLine.endsValue {p : Placed} {x : Bytes} (h : p.EndsLine x) :
    EndsValue (p.gap.text ++ x) := by
  cases hg : p.gap with
  | nil =>
    rcases h with ⟨q, hq, -⟩ | rfl
    · rw [hg] at hq; cases hq
    · simp [EndsValue]
  | cons q g =>
    intro c hc
    cases q with
    | blank => cases hc; decide
    | newline => cases hc; decide
    | comment d => cases hc; decide

theorem Item.text_append (i : Item) (x : Bytes) : ∃ (t : TypeName) (y : Bytes),
    i.text ++ x = t.text ++ y ∧ (y.head? = some 91 ∨ y.head? = some 32) := by
  cases i with
  | constant t k n before after v =>
    exact ⟨t, _, constant_text_append t k n before after v x, Or.inr rfl⟩
  | field t a k n =>
    refine ⟨t, _, field_text_append t a k n x, ?_⟩
    cases a with
    | none => exact Or.inr rfl
    | dynamic => exact Or.inl rfl
    | fixed d => exact Or.inl rfl

theorem Item.startsPlain (i : Item) (x : Bytes) : StartsPlain (i.text ++ x) := by
  obtain ⟨t, y, h, -⟩ := i.text_append x
  rw [h]
  exact startsPlain_of_word t.nameBytes t.text_ne_nil

theorem Item.skipper_text (i : Item) (x : Bytes) : skipper (i.text ++ x) = i.text ++ x := by
  obtain ⟨t, y, h, -⟩ := i.text_append x
  rw [h]
  exact skipper_word t.nameBytes t.text_ne_nil

theorem parse_memberRule_item (i : Item) (x : Bytes) :
    memberRule.parse skipper (i.text ++ x) = member.parse skipper (i.text ++ x) := by
  refine parse_diff_of_none (parse_lit_of_mismatch ?_)
  rw [i.skipper_text]
  rintro ⟨z, hz⟩
  obtain ⟨t, y, h, hy⟩ := i.text_append x
  rw [h] at hz
  have hname : EndsName y := by
    intro c hc
    rcases hy with hy | hy
    · rw [hy] at hc; cases hc; decide
    · rw [hy] at hc; cases hc; decide
  have htake := congrArg (List.takeWhile isNameByte) hz
  have hmsg : (bytes "MSG: " ++ z).takeWhile isNameByte = bytes "MSG" := rfl
  rw [takeWhile_word t.nameBytes hname, hmsg] at htake
  rw [← htake, show bytes "MSG: " = bytes "MSG" ++ bytes ": " from rfl, List.append_assoc,
    List.append_cancel_left_eq] at hz
  rw [← hz] at hy
  rcases hy with hy | hy
  · exact absurd hy (by rw [show bytes ": " = [58, 32] from rfl]; simp)
  · exact absurd hy (by rw [show bytes ": " = [58, 32] from rfl]; simp)

theorem startsPlain_embeddedText (es : List EmbeddedText) : StartsPlain (embeddedText es) := by
  cases es with
  | nil => exact startsPlain_nil
  | cons e es =>
    rw [embeddedText, separatorLine_eq, List.cons_append]
    exact startsPlain_cons (by decide) (by decide)

theorem startsPlain_membersText (ps : List Placed) (es : List EmbeddedText) :
    StartsPlain (membersText ps (embeddedText es)) := by
  cases ps with
  | nil => exact startsPlain_embeddedText es
  | cons p ps => exact p.item.startsPlain _

structure Comparison.PlacedOk (p : Placed) (x : Bytes) : Prop where
  item : p.item.Ok (p.gap.text ++ x)
  exact : cmp.Exact p.item
  gap : p.gap.Skipped

def Placed.Determined (p : Placed) (x : Bytes) : Prop := p.item.Determined (p.gap.text ++ x)

/-- The loop over members reads well placed members, up to a text it reads none from. -/
theorem parse_members {ps : List Placed} {es : List EmbeddedText} {s : Bytes}
    (hlines : MembersAll Placed.EndsLine ps (embeddedText es))
    (hok : MembersAll cmp.PlacedOk ps (embeddedText es))
    (hs : skipper s = skipper (membersText ps (embeddedText es)))
    (hend : memberRule.parse skipper (embeddedText es) = none) :
    ∃ r, (many memberRule).parse skipper s = some (ps.map fun p => p.item.info, r) ∧
      skipper r = skipper (embeddedText es) := by
  induction ps generalizing s with
  | nil =>
    have hnone := (skipsFirst_memberRule.parse_eq hs).trans hend
    exact ⟨s, parse_many_of_none hnone, hs⟩
  | cons p ps ih =>
    obtain ⟨hp, hps⟩ := hok
    have hread := parse_member_of_ok hlines.1.endsValue hp.item
    have hstart := (skipsFirst_memberRule.parse_eq hs).trans
      ((parse_memberRule_item p.item _).trans hread)
    obtain ⟨r, hmany, hr⟩ := ih hlines.2 hps (hp.gap.skipper_eq (startsPlain_membersText ps es))
    exact ⟨r, parse_many_of_some reads_memberRule hstart hmany, hr⟩

/-- A loop over members that reads what they say, and does not get stuck behind them, has
found all of them well placed. -/
theorem membersAll_of_parse {ps : List Placed} {es : List EmbeddedText} {s r : Bytes}
    {ms : List MemberInfo} (hlines : MembersAll Placed.EndsLine ps (embeddedText es))
    (hcr : ∀ p ∈ ps, p.gap.CrFree)
    (hdet : MembersAll Placed.Determined ps (embeddedText es))
    (hs : skipper s = skipper (membersText ps (embeddedText es)))
    (hparse : (many memberRule).parse skipper s = some (ms, r))
    (hread : ms.map cmp.read = ps.map fun p => cmp.meant p.item) (hr : ¬ Stuck r) :
    MembersAll cmp.PlacedOk ps (embeddedText es) ∧ skipper r = skipper (embeddedText es) := by
  induction ps generalizing s ms with
  | nil =>
    rw [List.map_nil, List.map_eq_nil_iff] at hread
    subst hread
    rcases parse_many_eq_some reads_memberRule hparse with ⟨-, -, rfl⟩ | ⟨a, t, as, -, h, -⟩
    · exact ⟨trivial, hs⟩
    · cases h
  | cons p ps ih =>
    rcases parse_many_eq_some reads_memberRule hparse with ⟨-, rfl, -⟩ | ⟨m, t, ms', hm, rfl, hmany⟩
    · cases hread
    · rw [List.map_cons, List.map_cons, List.cons.injEq] at hread
      rw [skipsFirst_memberRule.parse_eq hs, membersText, parse_memberRule_item] at hm
      obtain ⟨hitem, hexact, rfl⟩ := cmp.ok_of_read hlines.1.endsValue hdet.1 hm hread.1
      have hplain := startsPlain_membersText ps es
      by_cases hgap : p.gap.Skipped
      · have hrest := ih hlines.2 (fun q hq => hcr q (List.mem_cons_of_mem _ hq)) hdet.2
          (hgap.skipper_eq hplain) hmany hread.2
        exact ⟨⟨⟨hitem, hexact, hgap⟩, hrest.1⟩, hrest.2⟩
      · have hstuck := Gap.stuck_of_not_skipped (hcr p List.mem_cons_self) hgap hplain
        rw [parse_many_of_none hstuck.parse_memberRule] at hmany
        cases hmany
        exact absurd hstuck hr

structure Comparison.EmbeddedOk (e : EmbeddedText) (x : Bytes) : Prop where
  before : Gap.Skipped (.newline :: e.before)
  after : Gap.Skipped (.newline :: e.after)
  ne_nil : e.members ≠ []
  members : MembersAll cmp.PlacedOk e.members x

def EmbeddedText.nameLine (e : EmbeddedText) (x : Bytes) : Bytes :=
  bytes "MSG: " ++ (e.name.text ++ (Gap.text (.newline :: e.after) ++ membersText e.members x))

theorem startsPlain_nameLine (e : EmbeddedText) (x : Bytes) : StartsPlain (e.nameLine x) :=
  startsPlain_cons (by decide) (by decide)

theorem skipper_nameLine (e : EmbeddedText) (x : Bytes) :
    skipper (e.nameLine x) = e.nameLine x :=
  skipper_of_plain (by decide) (by decide) (by decide)

theorem skipper_embeddedText_cons (e : EmbeddedText) (es : List EmbeddedText) :
    skipper (embeddedText (e :: es)) =
      skipper (Gap.text (.newline :: e.before) ++ e.nameLine (embeddedText es)) := by
  rw [embeddedText, skipper_separatorLine]
  rfl

theorem parse_memberRule_nameLine (e : EmbeddedText) (x : Bytes) :
    memberRule.parse skipper (e.nameLine x) = none :=
  parse_diff_of_some (parse_lit_of_eq (skipper_nameLine e x))

theorem parse_embeddedTypeName (e : EmbeddedText) (x : Bytes) :
    embeddedTypeName.parse skipper (e.nameLine x) = some (e.name.unscoped,
      Gap.text (.newline :: e.after) ++ membersText e.members x) := by
  have hs := skipper_nameLine e x
  have hend : EndsName (Gap.text (.newline :: e.after) ++ membersText e.members x) := by
    intro c hc
    cases hc
    decide
  have hline : (Gap.text (.newline :: e.after) ++ membersText e.members x).takeWhile
      isCommentChar = [] := rfl
  have hline' : (Gap.text (.newline :: e.after) ++ membersText e.members x).dropWhile
      isCommentChar = Gap.text (.newline :: e.after) ++ membersText e.members x := rfl
  have hbyte : ∀ c, isNameByte c = true → isCommentChar c = true := by
    intro c hc
    have h := isNameByte_spec hc
    simp [isCommentChar, h]
  unfold embeddedTypeName
  rcases e.name.scope_cases hend with ⟨htext, hbytes, hne⟩ | ⟨hstd, hunscoped⟩
  · have hlit : (lit (bytes "MSG: std_msgs/")).parse skipper (e.nameLine x) = some ((),
        e.name.unscoped ++ (Gap.text (.newline :: e.after) ++ membersText e.members x)) := by
      refine parse_lit_of_eq (hs.trans ?_)
      rw [EmbeddedText.nameLine, htext, List.append_assoc]
      rfl
    rw [parse_bind_of_some (parse_orElse_of_some hlit),
      parse_lexeme_word readsToken_commentChar (Reads.diff reads_char) hbyte hbytes hne, hline,
      hline', List.append_nil]
  · have hlong : (lit (bytes "MSG: std_msgs/")).parse skipper (e.nameLine x) = none := by
      refine parse_lit_of_mismatch fun hp => hstd ?_
      rw [hs, EmbeddedText.nameLine,
        show bytes "MSG: std_msgs/" = bytes "MSG: " ++ bytes "std_msgs/" from rfl,
        List.prefix_append_right_inj] at hp
      exact hp
    have hshort : (lit (bytes "MSG: ")).parse skipper (e.nameLine x) = some ((),
        e.name.text ++ (Gap.text (.newline :: e.after) ++ membersText e.members x)) :=
      parse_lit_of_eq hs
    rw [parse_bind_of_some ((parse_orElse_of_none hlong).trans hshort),
      parse_lexeme_word readsToken_commentChar (Reads.diff reads_char) hbyte e.name.nameBytes
        e.name.text_ne_nil, hline, hline', List.append_nil, hunscoped]

theorem skipsFirst_embeddedTypeDefinition : embeddedTypeDefinition.SkipsFirst :=
  SkipsFirst.bind (SkipsFirst.bind ((skipsFirst_lit _).orElse (skipsFirst_lit _)))

theorem reads_embeddedTypeDefinition : embeddedTypeDefinition.Reads :=
  Reads.bind (Reads.bind ((reads_lit (by decide)).orElse (reads_lit (by decide))))

theorem parse_embeddedTypeDefinition_of_nil {s : Bytes} (h : skipper s = []) :
    embeddedTypeDefinition.parse skipper s = none := by
  have hlong : (lit (bytes "MSG: std_msgs/")).parse skipper s = none := parse_lit_of_nil h
  have hshort : (lit (bytes "MSG: ")).parse skipper s = none := parse_lit_of_nil h
  exact parse_bind_of_none (parse_bind_of_none ((parse_orElse_of_none hlong).trans hshort))

theorem parse_memberRule_embeddedText {es : List EmbeddedText}
    (hok : EmbeddedAll cmp.EmbeddedOk es) : memberRule.parse skipper (embeddedText es) = none := by
  cases es with
  | nil => exact parse_memberRule_of_nil skipper_nil
  | cons e es =>
    have hs := (skipper_embeddedText_cons e es).trans
      (hok.1.before.skipper_eq (startsPlain_nameLine e _))
    rw [skipsFirst_memberRule.parse_eq hs]
    exact parse_memberRule_nameLine e _

theorem parse_embedded {es : List EmbeddedText} {s : Bytes}
    (hlines : EmbeddedAll (fun e x => MembersAll Placed.EndsLine e.members x) es)
    (hok : EmbeddedAll cmp.EmbeddedOk es) (hs : skipper s = skipper (embeddedText es)) :
    ∃ r, (many embeddedTypeDefinition).parse skipper s = some (es.map EmbeddedText.info, r) ∧
      skipper r = [] := by
  induction es generalizing s with
  | nil =>
    rw [embeddedText, skipper_nil] at hs
    exact ⟨s, parse_many_of_none (parse_embeddedTypeDefinition_of_nil hs), hs⟩
  | cons e es ih =>
    obtain ⟨he, hes⟩ := hok
    have hstart := hs.trans ((skipper_embeddedText_cons e es).trans
      (he.before.skipper_eq (startsPlain_nameLine e _)))
    obtain ⟨r, hmembers, hr⟩ := parse_members cmp hlines.1 he.members
      (he.after.skipper_eq (startsPlain_membersText e.members es))
      (parse_memberRule_embeddedText cmp hes)
    have hne : (e.members.map fun p => p.item.info) ≠ [] := by
      rw [Ne, List.map_eq_nil_iff]
      exact he.ne_nil
    have hplus : (plus memberRule).parse skipper
        (Gap.text (.newline :: e.after) ++ membersText e.members (embeddedText es)) =
          some (e.members.map fun p => p.item.info, r) :=
      parse_plus_of_many reads_memberRule hne hmembers
    have hdef : embeddedTypeDefinition.parse skipper s = some (e.info, r) := by
      rw [skipsFirst_embeddedTypeDefinition.parse_eq hstart, embeddedTypeDefinition,
        parse_bind_of_some (parse_embeddedTypeName e _)]
      exact parse_bind_of_some hplus
    obtain ⟨r', hmany, hr'⟩ := ih hlines.2 hes hr
    exact ⟨r', parse_many_of_some reads_embeddedTypeDefinition hdef hmany, hr'⟩

def Comparison.EmbeddedAgrees (y : EmbeddedInfo) (e : EmbeddedText) : Prop :=
  y.typeName = e.name.unscoped ∧ y.members.map cmp.read = e.members.map fun p => cmp.meant p.item

theorem embeddedAll_of_parse {es : List EmbeddedText} {s r : Bytes} {ys : List EmbeddedInfo}
    (hlines : EmbeddedAll (fun e x => MembersAll Placed.EndsLine e.members x) es)
    (hcr : ∀ e ∈ es, Gap.CrFree e.before ∧ Gap.CrFree e.after ∧ ∀ p ∈ e.members, p.gap.CrFree)
    (hdet : EmbeddedAll (fun e x => MembersAll Placed.Determined e.members x) es)
    (hs : skipper s = skipper (embeddedText es))
    (hparse : (many embeddedTypeDefinition).parse skipper s = some (ys, r))
    (hread : List.Forall₂ cmp.EmbeddedAgrees ys es) (hr : skipper r = []) :
    EmbeddedAll cmp.EmbeddedOk es := by
  induction hread generalizing s with
  | nil => trivial
  | @cons y e ys es hy hys ih =>
    obtain ⟨hbefore, hafter, hmembers⟩ := hcr e List.mem_cons_self
    have hcr' : ∀ {g : Gap}, g.CrFree → Gap.CrFree (.newline :: g) := by
      intro g hg c hc
      rcases List.mem_cons.1 hc with h | h
      · cases h
      · exact hg c h
    rcases parse_many_eq_some reads_embeddedTypeDefinition hparse with
      ⟨-, h, -⟩ | ⟨y', t, ys', hy', h, hmany⟩
    · cases h
    · cases h
      have hstart := hs.trans (skipper_embeddedText_cons e es)
      by_cases hskipBefore : Gap.Skipped (.newline :: e.before)
      · rw [skipsFirst_embeddedTypeDefinition.parse_eq
          (hstart.trans (hskipBefore.skipper_eq (startsPlain_nameLine e _))),
          embeddedTypeDefinition, parse_bind_of_some (parse_embeddedTypeName e _)] at hy'
        obtain ⟨ms, t', hplus, hpure⟩ := parse_bind_eq_some hy'
        cases hpure
        have hplain := startsPlain_membersText e.members es
        by_cases hskipAfter : Gap.Skipped (.newline :: e.after)
        · obtain ⟨hne, hloop⟩ := parse_plus_eq_some reads_memberRule hplus
          have hstuck : ¬ Stuck t := by
            intro hstuck
            rw [parse_many_of_none hstuck.parse_embeddedTypeDefinition] at hmany
            cases hmany
            exact hstuck.skipper_ne_nil hr
          have hok := membersAll_of_parse cmp hlines.1 hmembers hdet.1 (hskipAfter.skipper_eq hplain) hloop
            hy.2 hstuck
          have hne' : e.members ≠ [] := by
            intro h
            have hmap := hy.2
            rw [h, List.map_nil, List.map_eq_nil_iff] at hmap
            exact hne hmap
          exact ⟨⟨hskipBefore, hskipAfter, hne', hok.1⟩,
            ih hlines.2 (fun e he => hcr e (List.mem_cons_of_mem _ he)) hdet.2 hok.2 hmany⟩
        · have hstuck := Gap.stuck_of_not_skipped (hcr' hafter) hskipAfter hplain
          have hnone : (plus memberRule).parse skipper _ = none :=
            parse_plus_of_none hstuck.parse_memberRule
          cases hnone.symm.trans hplus
      · have hstuck : Stuck s := by
          obtain ⟨c, r', h, hc⟩ := Gap.stuck_of_not_skipped (hcr' hbefore) hskipBefore
            (startsPlain_nameLine e (embeddedText es))
          exact ⟨c, r', hstart.trans h, hc⟩
        cases hstuck.parse_embeddedTypeDefinition.symm.trans hy'

/-! ### Whole definitions -/

namespace DefinitionText

structure Ok (d : DefinitionText) : Prop where
  lead : d.lead.Skipped
  members : MembersAll cmp.PlacedOk d.members (embeddedText d.embedded)
  embedded : EmbeddedAll cmp.EmbeddedOk d.embedded

def CrFree (d : DefinitionText) : Prop :=
  d.lead.CrFree ∧ (∀ p ∈ d.members, p.gap.CrFree) ∧
    ∀ e ∈ d.embedded, Gap.CrFree e.before ∧ Gap.CrFree e.after ∧ ∀ p ∈ e.members, p.gap.CrFree

def Determined (d : DefinitionText) : Prop :=
  MembersAll Placed.Determined d.members (embeddedText d.embedded) ∧
    EmbeddedAll (fun e x => MembersAll Placed.Determined e.members x) d.embedded

def Agrees (ast : MsgDefInfo) (d : DefinitionText) : Prop :=
  ast.members.map cmp.read = (d.members.map fun p => cmp.meant p.item) ∧
    List.Forall₂ cmp.EmbeddedAgrees ast.embeddedDefinitions d.embedded

theorem phraseParse_msg {d : DefinitionText} (hok : d.Ok cmp) :
    phraseParse msg skipper d.text = some (d.info, []) := by
  have hstart := hok.lead.skipper_eq (startsPlain_membersText d.members d.embedded)
  obtain ⟨r, hmembers, hr⟩ := parse_members cmp d.lines hok.members hstart
    (parse_memberRule_embeddedText cmp hok.embedded)
  obtain ⟨r', hembedded, hr'⟩ := parse_embedded cmp d.embeddedLines hok.embedded hr
  have hmsg : msg.parse skipper d.text = some (d.info, r') := by
    have hmembers' : (many (member.diff (lit (bytes "MSG: ")))).parse skipper d.text = _ := hmembers
    unfold msg
    rw [parse_bind_of_some hmembers', parse_bind_of_some hembedded]
    rfl
  rw [phraseParse_of_some hmsg, hr']

/-- A definition without carriage returns in its comments that is read as what it says,
up to its end, is well laid out. -/
theorem ok_of_phraseParse {d : DefinitionText} (hcr : d.CrFree) (hdet : d.Determined)
    {ast : MsgDefInfo} (h : phraseParse msg skipper d.text = some (ast, []))
    (hread : Agrees cmp ast d) : d.Ok cmp := by
  rw [phraseParse, Option.map_eq_some_iff] at h
  obtain ⟨⟨ast', r⟩, hmsg, hpair⟩ := h
  obtain ⟨rfl, hr⟩ := Prod.ext_iff.1 hpair
  obtain ⟨ms, t, hmembers, h⟩ := parse_bind_eq_some hmsg
  obtain ⟨ys, t', hembedded, h⟩ := parse_bind_eq_some h
  cases h
  have hplain := startsPlain_membersText d.members d.embedded
  by_cases hlead : d.lead.Skipped
  · have hstuck : ¬ Stuck t := by
      intro hstuck
      rw [parse_many_of_none hstuck.parse_embeddedTypeDefinition] at hembedded
      cases hembedded
      exact hstuck.skipper_ne_nil hr
    have hok := membersAll_of_parse cmp d.lines hcr.2.1 hdet.1 (hlead.skipper_eq hplain) hmembers
      hread.1 hstuck
    exact ⟨hlead, hok.1,
      embeddedAll_of_parse cmp d.embeddedLines hcr.2.2 hdet.2 hok.2 hembedded hread.2 hr⟩
  · have hstuck := Gap.stuck_of_not_skipped hcr.1 hlead hplain
    have hnone : (many (member.diff (lit (bytes "MSG: ")))).parse skipper d.text =
        some ([], d.text) := parse_many_of_none hstuck.parse_memberRule
    cases hnone.symm.trans hmembers
    have hstuck' : Stuck d.text := hstuck
    rw [parse_many_of_none hstuck'.parse_embeddedTypeDefinition] at hembedded
    cases hembedded
    exact absurd hr hstuck'.skipper_ne_nil

end DefinitionText

/-- What an item needs to be read as what it stands for, where no comment follows it. -/
def Item.Sound : Item → Prop
  | .field _ array _ _ => array.Fits
  | .constant _ _ _ _ after value => ValueOk after value

theorem head_skipper_membersText (ps : List Placed) {es : List EmbeddedText}
    (hes : ∀ e ∈ es, Gap.CommentFree e.before) :
    ∀ c ∈ (skipper (membersText ps (embeddedText es))).head?, c ≠ 32 ∧ c ≠ 61 := by
  intro c hc
  cases ps with
  | cons p ps =>
    rw [membersText, p.item.skipper_text] at hc
    obtain ⟨t, y, h, -⟩ := p.item.text_append (p.gap.text ++ membersText ps (embeddedText es))
    rw [h, List.head?_append_of_ne_nil _ t.text_ne_nil] at hc
    have hspec := isNameByte_spec (t.nameBytes c (List.mem_of_mem_head? hc))
    exact ⟨hspec.2.2.2.2.2.2.1, hspec.2.2.2.1⟩
  | nil =>
    cases es with
    | nil =>
      rw [membersText, embeddedText, skipper_nil] at hc
      cases hc
    | cons e es =>
      have hskip := Gap.skipped_newline (hes e List.mem_cons_self)
      rw [membersText, skipper_embeddedText_cons,
        hskip.skipper_eq (startsPlain_nameLine e _), skipper_nameLine] at hc
      cases hc
      decide

theorem Placed.endsConstant {p : Placed} (hp : p.gap.CommentFree) (ps : List Placed)
    {es : List EmbeddedText} (hes : ∀ e ∈ es, Gap.CommentFree e.before)
    (hline : p.EndsLine (membersText ps (embeddedText es))) :
    EndsConstant (p.gap.text ++ membersText ps (embeddedText es)) :=
  endsConstant_gap hp hline.endsValue (startsPlain_membersText ps es)
    (fun c hc => (head_skipper_membersText ps hes c hc).1)
    fun c hc => (head_skipper_membersText ps hes c hc).2

theorem Placed.EndsLine.dropWhile_constantNameChar {p : Placed} {x : Bytes} (h : p.EndsLine x)
    (hp : p.gap.CommentFree) :
    (p.gap.text ++ x).dropWhile isConstantNameChar = p.gap.text ++ x := by
  cases hg : p.gap with
  | nil =>
    rcases h with ⟨q, hq, -⟩ | rfl
    · rw [hg] at hq; cases hq
    · rfl
  | cons q g =>
    cases q with
    | blank => rfl
    | newline => rfl
    | comment d => exact absurd (by rw [hg]; exact List.mem_cons_self) (hp d)

theorem Placed.ok_iff_sound {p : Placed} (hp : p.gap.CommentFree) (ps : List Placed)
    {es : List EmbeddedText} (hes : ∀ e ∈ es, Gap.CommentFree e.before)
    (hline : p.EndsLine (membersText ps (embeddedText es))) :
    p.item.Ok (p.gap.text ++ membersText ps (embeddedText es)) ↔ p.item.Sound := by
  have hend := p.endsConstant hp ps hes hline
  have hdrop := hline.dropWhile_constantNameChar hp
  generalize p.item = i
  cases i with
  | constant t k n before after v => rfl
  | field t a k n =>
    cases a with
    | none =>
      rw [Item.Ok, hdrop]
      exact ⟨fun _ => trivial, fun _ => hend.no_equals⟩
    | dynamic => rfl
    | fixed d => rfl

theorem membersAll_iff_of_commentFree {ps : List Placed} {es : List EmbeddedText}
    (hlines : MembersAll Placed.EndsLine ps (embeddedText es))
    (hps : ∀ p ∈ ps, p.gap.CommentFree) (hes : ∀ e ∈ es, Gap.CommentFree e.before) :
    MembersAll cmp.PlacedOk ps (embeddedText es) ↔
      ∀ p ∈ ps, p.item.Sound ∧ cmp.Exact p.item ∧ p.gap.Skipped := by
  induction ps with
  | nil => simp [MembersAll]
  | cons p ps ih =>
    have hp := hps p List.mem_cons_self
    have hsound := p.ok_iff_sound hp ps hes hlines.1
    rw [MembersAll, ih hlines.2 fun q hq => hps q (List.mem_cons_of_mem _ hq),
      List.forall_mem_cons]
    refine and_congr_left fun _ => ⟨fun h => ?_, fun h => ?_⟩
    · exact ⟨hsound.1 h.item, h.exact, h.gap⟩
    · exact ⟨hsound.2 h.1, h.2.1, h.2.2⟩

theorem membersAll_determined_of_commentFree {ps : List Placed} {es : List EmbeddedText}
    (hlines : MembersAll Placed.EndsLine ps (embeddedText es))
    (hps : ∀ p ∈ ps, p.gap.CommentFree) (hes : ∀ e ∈ es, Gap.CommentFree e.before) :
    MembersAll Placed.Determined ps (embeddedText es) := by
  induction ps with
  | nil => trivial
  | cons p ps ih =>
    refine ⟨?_, ih hlines.2 fun q hq => hps q (List.mem_cons_of_mem _ hq)⟩
    have hend := p.endsConstant (hps p List.mem_cons_self) ps hes hlines.1
    unfold Placed.Determined
    cases p.item with
    | constant t k n before after v => exact Or.inr hend
    | field t a k n => exact trivial

namespace DefinitionText

def CommentFree (d : DefinitionText) : Prop :=
  d.lead.CommentFree ∧ (∀ p ∈ d.members, p.gap.CommentFree) ∧
    ∀ e ∈ d.embedded, Gap.CommentFree e.before ∧ Gap.CommentFree e.after ∧
      ∀ p ∈ e.members, p.gap.CommentFree

theorem CommentFree.crFree {d : DefinitionText} (h : d.CommentFree) : d.CrFree := by
  have hcr : ∀ {g : Gap}, g.CommentFree → g.CrFree := fun hg c hc => absurd hc (hg c)
  exact ⟨hcr h.1, fun p hp => hcr (h.2.1 p hp), fun e he =>
    ⟨hcr (h.2.2 e he).1, hcr (h.2.2 e he).2.1, fun p hp => hcr ((h.2.2 e he).2.2 p hp)⟩⟩

theorem CommentFree.determined {d : DefinitionText} (h : d.CommentFree) : d.Determined := by
  have hes : ∀ e ∈ d.embedded, Gap.CommentFree e.before := fun e he => (h.2.2 e he).1
  refine ⟨membersAll_determined_of_commentFree d.lines h.2.1 hes, ?_⟩
  have hall : ∀ e ∈ d.embedded, ∀ p ∈ e.members, p.gap.CommentFree :=
    fun e he => (h.2.2 e he).2.2
  have hlines := d.embeddedLines
  generalize d.embedded = es at hes hall hlines
  induction es with
  | nil => trivial
  | cons e es ih =>
    rw [List.forall_mem_cons] at hes hall
    exact ⟨membersAll_determined_of_commentFree hlines.1 hall.1 hes.2,
      ih hes.2 hall.2 hlines.2⟩

def allMembers (d : DefinitionText) : List Placed :=
  d.members ++ d.embedded.flatMap EmbeddedText.members

theorem agrees_info (d : DefinitionText) (h : ∀ p ∈ d.allMembers, cmp.Exact p.item) :
    Agrees cmp d.info d := by
  have hmembers : ∀ ps : List Placed, (∀ p ∈ ps, cmp.Exact p.item) →
      (ps.map fun p => p.item.info).map cmp.read = ps.map fun p => cmp.meant p.item := by
    intro ps hps
    rw [List.map_map]
    exact List.map_congr_left fun p hp => (cmp.read_info p.item).2 (hps p hp)
  refine ⟨hmembers _ fun p hp => h p (List.mem_append_left _ hp), ?_⟩
  rw [info, List.forall₂_map_left_iff, List.forall₂_same]
  refine fun e he => ⟨rfl, hmembers _ fun p hp => h p ?_⟩
  exact List.mem_append_right _ (List.mem_flatMap.2 ⟨e, he, hp⟩)

theorem CommentFree.ok_iff {d : DefinitionText} (h : d.CommentFree) :
    d.Ok cmp ↔ d.lead.Skipped ∧
      (∀ p ∈ d.allMembers, p.item.Sound ∧ cmp.Exact p.item ∧ p.gap.Skipped) ∧
      ∀ e ∈ d.embedded, e.members ≠ [] := by
  have hes : ∀ e ∈ d.embedded, Gap.CommentFree e.before := fun e he => (h.2.2 e he).1
  have hmembers := membersAll_iff_of_commentFree cmp d.lines h.2.1 hes
  have hembedded : EmbeddedAll cmp.EmbeddedOk d.embedded ↔ ∀ e ∈ d.embedded, e.members ≠ [] ∧
      ∀ p ∈ e.members, p.item.Sound ∧ cmp.Exact p.item ∧ p.gap.Skipped := by
    have hall := h.2.2
    have hlines := d.embeddedLines
    generalize d.embedded = es at hall hes hlines
    induction es with
    | nil => simp [EmbeddedAll]
    | cons e es ih =>
      rw [List.forall_mem_cons] at hes hall
      have he := membersAll_iff_of_commentFree cmp hlines.1 hall.1.2.2 hes.2
      rw [EmbeddedAll, List.forall_mem_cons]
      refine and_congr ⟨fun h => ⟨h.ne_nil, he.1 h.members⟩, fun h => ?_⟩
        (ih hall.2 hes.2 hlines.2)
      exact ⟨Gap.skipped_newline hall.1.1, Gap.skipped_newline hall.1.2.1, h.1, he.2 h.2⟩
  constructor
  · intro hok
    refine ⟨hok.lead, fun p hp => ?_, fun e he => (hembedded.1 hok.embedded e he).1⟩
    rw [allMembers, List.mem_append, List.mem_flatMap] at hp
    rcases hp with hp | ⟨e, he, hp⟩
    · exact hmembers.1 hok.members p hp
    · exact (hembedded.1 hok.embedded e he).2 p hp
  · rintro ⟨hlead, hall, hne⟩
    refine ⟨hlead, hmembers.2 fun p hp => hall p (List.mem_append_left _ hp),
      hembedded.2 fun e he => ⟨hne e he, fun p hp => hall p ?_⟩⟩
    exact List.mem_append_right _ (List.mem_flatMap.2 ⟨e, he, hp⟩)

end DefinitionText

end Embag
