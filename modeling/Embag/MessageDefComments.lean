import Embag.MessageDefPrinter

/-! Comments, blank lines and indentation added to a printed definition, and when they
leave the syntax tree as it is. -/

namespace Embag

open Qi Qi.Rule RosMsgSkipper RosMsgGrammar

/-- Reading over blanks: the skipper and single blanks in turn. -/
inductive AfterBlanks : Bytes → Bytes → Prop
  | stop {s : Bytes} (h : ∀ c ∈ (skipper s).head?, c ≠ 32) : AfterBlanks s (skipper s)
  | blank {s r t : Bytes} (h : skipper s = 32 :: r) (rest : AfterBlanks r t) : AfterBlanks s t

theorem AfterBlanks.parse {s t : Bytes} (h : AfterBlanks s t) :
    ∃ us r, (many (lit (bytes " "))).parse skipper s = some (us, r) ∧ skipper r = t := by
  induction h with
  | @stop s h => exact ⟨[], s, parse_many_of_none (parse_blank_eq_none h), rfl⟩
  | blank h rest ih =>
    obtain ⟨us, r, hm, hr⟩ := ih
    exact ⟨() :: us, r, parse_many_of_some reads_blank (parse_lit_of_eq h) hm, hr⟩

theorem afterBlanks_of_parse {s r : Bytes} {us : List Unit}
    (h : (many (lit (bytes " "))).parse skipper s = some (us, r)) : AfterBlanks s (skipper r) := by
  induction us generalizing s with
  | nil =>
    rcases parse_many_eq_some reads_blank h with ⟨hnone, -, rfl⟩ | ⟨a, t, as, -, hcons, -⟩
    · refine .stop fun c hc => ?_
      rintro rfl
      cases hs : skipper r with
      | nil => rw [hs] at hc; cases hc
      | cons d t =>
        rw [hs] at hc
        cases hc
        have hsome : (lit (bytes " ")).parse skipper r = some ((), t) := parse_lit_of_eq hs
        rw [hsome] at hnone
        cases hnone
    · cases hcons
  | cons u us ih =>
    rcases parse_many_eq_some reads_blank h with ⟨-, hnil, -⟩ | ⟨a, t, as, ha, hcons, hm⟩
    · cases hnil
    · cases hcons
      exact .blank (parse_lit_eq_some ha) (ih hm)

/-- What follows a field's name makes the line a constant: behind the bytes a constant's
name takes in and blanks stands an `=`, and behind that and blanks a byte of a value. -/
def GoesOnAsConstant (x : Bytes) : Prop :=
  ∃ r c t, AfterBlanks (x.dropWhile isConstantNameChar) (61 :: r) ∧ AfterBlanks r (c :: t) ∧
    isValueChar c

theorem goesOnAsConstant_iff (x : Bytes) : GoesOnAsConstant x ↔
    constantTail.parse skipper (x.dropWhile isConstantNameChar) ≠ none := by
  constructor
  · rintro ⟨r, c, t, hequals, hvalue, hc⟩ hnone
    obtain ⟨us, r₁, hm₁, hr₁⟩ := hequals.parse
    obtain ⟨us', r₂, hm₂, hr₂⟩ := hvalue.parse
    have hlit : (lit (bytes "=")).parse skipper r₁ = some ((), r) := parse_lit_of_eq hr₁
    rw [constantTail, parse_bind_of_some hm₁, parse_bind_of_some hlit, parse_bind_of_some hm₂,
      parse_constantValue, hr₂, List.takeWhile_cons_of_pos hc, if_neg (List.cons_ne_nil _ _)]
      at hnone
    cases hnone
  · intro h
    cases hp : constantTail.parse skipper (x.dropWhile isConstantNameChar) with
    | none => exact absurd hp h
    | some vr =>
      obtain ⟨us, r₁, hm₁, hp⟩ := parse_bind_eq_some hp
      obtain ⟨u, r, hlit, hp⟩ := parse_bind_eq_some hp
      obtain ⟨us', r₂, hm₂, hp⟩ := parse_bind_eq_some hp
      have hequals := afterBlanks_of_parse hm₁
      rw [parse_lit_eq_some hlit] at hequals
      have hvalue := afterBlanks_of_parse hm₂
      rw [parse_constantValue] at hp
      split_ifs at hp with hnil
      cases hs : skipper r₂ with
      | nil => rw [hs] at hnil; exact absurd rfl hnil
      | cons c t =>
        rw [hs] at hvalue hnil
        refine ⟨r, c, t, hequals, hvalue, ?_⟩
        by_contra hc
        exact hnil (List.takeWhile_cons_of_neg hc)

namespace DefinitionText

/-- The definition printed with other gaps: a run of blanks or a comment behind a member,
lines inserted, and items indented. -/
def Decorates (d : DefinitionText) (a : Definition) : Prop :=
  d.members.map Placed.item = a.members.map Member.item ∧
    List.Forall₂ (fun (e : EmbeddedText) (b : EmbeddedDefinition) => e.name = b.name ∧
      e.members.map Placed.item = b.members.map Member.item) d.embedded a.embedded

end DefinitionText

def Item.IsScalarField : Item → Prop
  | .field _ .none _ _ => True
  | _ => False

/-- The skipper eats the gap behind the member, and a field does not go on as a constant. -/
structure Placed.LaidOut (p : Placed) (x : Bytes) : Prop where
  gap : p.gap.Skipped
  name : p.item.IsScalarField → ¬ GoesOnAsConstant (p.gap.text ++ x)

structure EmbeddedText.LaidOut (e : EmbeddedText) (x : Bytes) : Prop where
  before : Gap.Skipped (.newline :: e.before)
  after : Gap.Skipped (.newline :: e.after)
  members : MembersAll Placed.LaidOut e.members x

structure DefinitionText.LaidOut (d : DefinitionText) : Prop where
  lead : d.lead.Skipped
  members : MembersAll Placed.LaidOut d.members (embeddedText d.embedded)
  embedded : EmbeddedAll EmbeddedText.LaidOut d.embedded

theorem Item.ok_iff_of_sound {i : Item} (hi : i.Sound) (x : Bytes) :
    i.Ok x ↔ (i.IsScalarField → ¬ GoesOnAsConstant x) := by
  cases i with
  | constant t k n before after v => exact ⟨fun _ h => h.elim, fun _ => hi⟩
  | field t a k n =>
    cases a with
    | none =>
      rw [goesOnAsConstant_iff, not_not]
      exact ⟨fun h _ => h, fun h => h trivial⟩
    | dynamic => exact ⟨fun _ h => h.elim, fun _ => hi⟩
    | fixed d => exact ⟨fun _ h => h.elim, fun _ => hi⟩

theorem membersAll_iff_laidOut {ps : List Placed} (hps : ∀ p ∈ ps, p.item.Sound) (x : Bytes) :
    MembersAll Comparison.tree.PlacedOk ps x ↔ MembersAll Placed.LaidOut ps x := by
  induction ps with
  | nil => exact Iff.rfl
  | cons p ps ih =>
    have hitem := Item.ok_iff_of_sound (hps p List.mem_cons_self)
      (p.gap.text ++ membersText ps x)
    refine and_congr ⟨fun h => ?_, fun h => ?_⟩ (ih fun q hq => hps q (List.mem_cons_of_mem _ hq))
    · exact ⟨h.gap, hitem.1 h.item⟩
    · exact ⟨hitem.2 h.name, trivial, h.gap⟩

theorem embeddedAll_iff_laidOut {es : List EmbeddedText}
    (hes : ∀ e ∈ es, e.members ≠ [] ∧ ∀ p ∈ e.members, p.item.Sound) :
    EmbeddedAll Comparison.tree.EmbeddedOk es ↔ EmbeddedAll EmbeddedText.LaidOut es := by
  induction es with
  | nil => exact Iff.rfl
  | cons e es ih =>
    obtain ⟨hne, hsound⟩ := hes e List.mem_cons_self
    have hmembers := membersAll_iff_laidOut hsound (embeddedText es)
    refine and_congr ⟨fun h => ?_, fun h => ?_⟩ (ih fun f hf => hes f (List.mem_cons_of_mem _ hf))
    · exact ⟨h.before, h.after, hmembers.1 h.members⟩
    · exact ⟨h.before, h.after, hne, hmembers.2 h.members⟩

theorem membersAll_determined_of_sound {ps : List Placed} (hps : ∀ p ∈ ps, p.item.Sound)
    (x : Bytes) : MembersAll Placed.Determined ps x := by
  induction ps with
  | nil => trivial
  | cons p ps ih =>
    refine ⟨?_, ih fun q hq => hps q (List.mem_cons_of_mem _ hq)⟩
    have hp := hps p List.mem_cons_self
    unfold Placed.Determined
    cases hi : p.item with
    | constant t k n before after v => exact Or.inl (by rw [hi] at hp; exact hp)
    | field t a k n => exact trivial

theorem embeddedAll_determined_of_sound {es : List EmbeddedText}
    (hes : ∀ e ∈ es, ∀ p ∈ e.members, p.item.Sound) :
    EmbeddedAll (fun e x => MembersAll Placed.Determined e.members x) es := by
  induction es with
  | nil => trivial
  | cons e es ih =>
    exact ⟨membersAll_determined_of_sound (hes e List.mem_cons_self) _,
      ih fun f hf => hes f (List.mem_cons_of_mem _ hf)⟩

namespace DefinitionText

section Decorates

variable {d : DefinitionText} {a : Definition}

theorem map_info_of_map_item {ps : List Placed} {ms : List Member}
    (h : ps.map Placed.item = ms.map Member.item) :
    ps.map (fun p => p.item.info) = ms.map Member.info := by
  have hmap := congrArg (List.map Item.info) h
  rw [List.map_map, List.map_map] at hmap
  exact hmap.trans (List.map_congr_left fun m _ => m.item_info)

theorem Decorates.info_eq (h : d.Decorates a) : d.info = a.info := by
  have hembedded : d.embedded.map EmbeddedText.info = a.embedded.map EmbeddedDefinition.info := by
    have hes := h.2
    generalize d.embedded = es, a.embedded = bs at hes
    induction hes with
    | nil => rfl
    | cons he hes ih =>
      rw [List.map_cons, List.map_cons, ih, EmbeddedText.info, EmbeddedDefinition.info, he.1,
        map_info_of_map_item he.2]
  rw [info, Definition.info, map_info_of_map_item h.1, hembedded]

theorem Decorates.agrees (h : d.Decorates a) : Agrees Comparison.tree a.info d := by
  rw [← h.info_eq]
  exact d.agrees_info Comparison.tree fun p hp => trivial

theorem sound_of_map_item {ps : List Placed} {ms : List Member}
    (h : ps.map Placed.item = ms.map Member.item)
    (hms : ∀ m ∈ ms, ∀ v ∈ m.value?, Readable v) : ∀ p ∈ ps, p.item.Sound := by
  intro p hp
  have hmem := List.mem_map_of_mem (f := Placed.item) hp
  rw [h] at hmem
  obtain ⟨m, hm, hitem⟩ := List.mem_map.1 hmem
  rw [← hitem]
  exact m.sound_iff.2 (hms m hm)

theorem Decorates.embedded_sound (h : d.Decorates a) (hvalues : ∀ v ∈ a.values, Readable v) :
    ∀ e ∈ d.embedded, e.members ≠ [] ∧ ∀ p ∈ e.members, p.item.Sound := by
  have hms : ∀ b ∈ a.embedded, ∀ m ∈ b.members, ∀ v ∈ m.value?, Readable v := by
    intro b hb m hm v hv
    refine hvalues v (List.mem_filterMap.2 ⟨m, ?_, hv⟩)
    exact List.mem_append_right _ (List.mem_flatMap.2 ⟨b, hb, hm⟩)
  have hes := h.2
  generalize d.embedded = es, a.embedded = bs at hes hms
  induction hes with
  | nil => simp
  | @cons e b es bs he hes ih =>
    rw [List.forall_mem_cons] at hms ⊢
    refine ⟨⟨fun hnil => b.ne_nil ?_, sound_of_map_item he.2 hms.1⟩, ih hms.2⟩
    have hmap := he.2
    rw [hnil, List.map_nil, eq_comm, List.map_eq_nil_iff] at hmap
    exact hmap

theorem Decorates.members_sound (h : d.Decorates a) (hvalues : ∀ v ∈ a.values, Readable v) :
    ∀ p ∈ d.members, p.item.Sound := by
  refine sound_of_map_item h.1 fun m hm v hv => hvalues v (List.mem_filterMap.2 ⟨m, ?_, hv⟩)
  exact List.mem_append_left _ hm

theorem Decorates.ok_iff (h : d.Decorates a) (hvalues : ∀ v ∈ a.values, Readable v) :
    d.Ok Comparison.tree ↔ d.LaidOut := by
  have hmembers := membersAll_iff_laidOut (h.members_sound hvalues) (embeddedText d.embedded)
  have hembedded := embeddedAll_iff_laidOut (h.embedded_sound hvalues)
  constructor
  · intro hok
    exact ⟨hok.lead, hmembers.1 hok.members, hembedded.1 hok.embedded⟩
  · intro hlaid
    exact ⟨hlaid.lead, hmembers.2 hlaid.members, hembedded.2 hlaid.embedded⟩

end Decorates

end DefinitionText

theorem parseInfo_print {a : Definition} (hvalues : ∀ v ∈ a.values, Readable v) :
    parseInfo a.print = .ok a.info := by
  have h := DefinitionText.phraseParse_msg _ (a.placed_ok_iff.2 hvalues)
  rw [a.placed_text, a.placed_info] at h
  exact parseInfo_eq_ok_iff.2 h

/-- The text is accepted like the printed definition, and says the same. -/
def KeepsSchema (text : Bytes) (a : Definition) (name : Bytes) (m : MsgDef) : Prop :=
  parseMsgDef text name = .ok m ∧ parseInfo text = parseInfo a.print

/-- Decorations leave a printed definition as it is, where the skipper eats every gap and
no field goes on as a constant; without carriage returns in the comments, only there. -/
theorem keepsSchema_iff {a : Definition} (hvalues : ∀ v ∈ a.values, Readable v)
    {d : DefinitionText} (hd : d.Decorates a) {name : Bytes} {m : MsgDef}
    (h : parseMsgDef a.print name = .ok m) :
    (d.LaidOut → KeepsSchema d.text a name m) ∧
      (d.CrFree → (KeepsSchema d.text a name m ↔ d.LaidOut)) := by
  have hok := hd.ok_iff hvalues
  have hkeeps : d.LaidOut → KeepsSchema d.text a name m := by
    intro hlaid
    have hparse := DefinitionText.phraseParse_msg _ (hok.2 hlaid)
    rw [hd.info_eq] at hparse
    have hinfo : parseInfo d.text = parseInfo a.print :=
      (parseInfo_eq_ok_iff.2 hparse).trans (parseInfo_print hvalues).symm
    refine ⟨?_, hinfo⟩
    rw [parseMsgDef, hinfo]
    exact h
  refine ⟨hkeeps, fun hcr => ⟨fun hsame => ?_, hkeeps⟩⟩
  have hparse := parseInfo_eq_ok_iff.1 (hsame.2.trans (parseInfo_print hvalues))
  have hdet : d.Determined := ⟨membersAll_determined_of_sound (hd.members_sound hvalues) _,
    embeddedAll_determined_of_sound fun e he => (hd.embedded_sound hvalues e he).2⟩
  exact hok.1 (DefinitionText.ok_of_phraseParse _ hcr hdet hparse hd.agrees)

def plainField : Definition where
  members := [.field (.name (.of (bytes "int32") rfl)) .scalar
    (.of (bytes "a") rfl)]
  embedded := []

def commentedField (comment : Comment) : DefinitionText where
  lead := []
  members := [{
    item := .field (.name (.of (bytes "int32") rfl)) .none 0
      (.of (bytes "a") rfl)
    gap := [.comment comment] }]
  embedded := []
  lines := ⟨Or.inl ⟨_, List.mem_cons_self, by simp⟩, trivial⟩
  embeddedLines := trivial

def anAxis : Comment := ⟨bytes " an axis", by decide⟩

theorem laidOut_anAxis : (commentedField anAxis).LaidOut := by
  refine ⟨rfl, ⟨⟨?_, fun _ => ?_⟩, trivial⟩, trivial⟩
  · unfold Gap.Skipped
    decide +kernel
  · rw [goesOnAsConstant_iff, not_not]
    decide +kernel

theorem crFree_anAxis : (commentedField anAxis).CrFree := by
  refine ⟨nofun, fun p hp c hc => ?_, nofun⟩
  cases List.mem_singleton.1 hp
  cases List.mem_singleton.1 hc
  decide

theorem keepsSchema_commentedField :
    ∃ m, parseMsgDef plainField.print (bytes "pkg/A") = .ok m ∧
      KeepsSchema (commentedField anAxis).text plainField (bytes "pkg/A") m ∧
      (KeepsSchema (commentedField anAxis).text plainField (bytes "pkg/A") m ↔ (commentedField anAxis).LaidOut) := by
  obtain ⟨m, hm⟩ : ∃ m, parseMsgDef plainField.print (bytes "pkg/A") = .ok m := ⟨_, rfl⟩
  obtain ⟨hkeeps, hiff⟩ := @keepsSchema_iff plainField (fun v hv => by cases hv) (commentedField anAxis)
    ⟨rfl, .nil⟩ _ m hm
  exact ⟨m, hm, hkeeps laidOut_anAxis, hiff crFree_anAxis⟩

/-- The comment `#x=1` behind the name `a` makes the field a constant `a#x`. -/
theorem not_keepsSchema_commentedField :
    ∃ m, parseMsgDef plainField.print (bytes "pkg/A") = .ok m ∧
      (commentedField ⟨bytes "x=1", by decide⟩).Decorates plainField ∧
      ¬ KeepsSchema (commentedField ⟨bytes "x=1", by decide⟩).text plainField
        (bytes "pkg/A") m := by
  refine ⟨_, rfl, ⟨rfl, .nil⟩, fun h => ?_⟩
  have hdiffer : parseInfo (commentedField ⟨bytes "x=1", by decide⟩).text ≠
      parseInfo plainField.print := by decide +kernel
  exact hdiffer h.2

end Embag
