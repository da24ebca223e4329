import Embag.MsgDefBuild
import Embag.MessageDefLayout

/-! The message definition language without comments, what its texts mean, and which of
them the parser reads as what they mean. -/

namespace Embag

open Qi Qi.Rule RosMsgSkipper RosMsgGrammar Loops

inductive ArrayKind where
  | scalar
  | dynamic
  | fixed (n : ℤ)
  deriving DecidableEq

/-- The array an `arraySize` stands for. -/
def ArrayKind.ofSize (n : ℤ) : ArrayKind :=
  if n = 0 then scalar else if n = -1 then dynamic else fixed n

/-- A member as the language has it; a type of `std_msgs` goes without its package. -/
inductive RosMember where
  | field (type : Bytes) (array : ArrayKind) (name : Bytes)
  | constant (type name value : Bytes)
  deriving DecidableEq

def ArraySuffix.kind : ArraySuffix → ArrayKind
  | none => .scalar
  | dynamic => .dynamic
  | fixed digits => .fixed (decimalValue digits.text)

def Item.meaning : Item → RosMember
  | field type array _ name => .field type.unscoped array.kind name.text
  | constant type _ name _ _ value => .constant type.unscoped name.text value

def MemberInfo.meaning : MemberInfo → RosMember
  | field info => .field info.typeName (.ofSize info.arraySize) info.fieldName
  | constant info => .constant info.typeName info.constantName info.value

/-- The size is one that an `arraySize` can say. -/
def ArraySuffix.InRange : ArraySuffix → Prop
  | none => True
  | dynamic => True
  | fixed digits => 1 ≤ decimalValue digits.text ∧ decimalValue digits.text < 2 ^ 31

def Item.InRange : Item → Prop
  | field _ array _ _ => array.InRange
  | constant _ _ _ _ _ _ => True

theorem toInt32_lt (n : ℕ) : toInt32 n < 2 ^ 31 := by
  have h : toInt32 n < _ := Int.bmod_lt (x := (n : ℤ)) (m := 2 ^ 32) (by norm_num)
  push_cast at h
  omega

theorem ArrayKind.ofSize_size_iff (digits : Digits) :
    ofSize (ArraySuffix.fixed digits).size = .fixed (decimalValue digits.text) ↔
      1 ≤ decimalValue digits.text ∧ decimalValue digits.text < 2 ^ 31 := by
  have hlt := toInt32_lt (decimalValue digits.text)
  rw [ArraySuffix.size]
  constructor
  · intro h
    unfold ofSize at h
    split_ifs at h with hzero hneg
    have hsize : toInt32 (decimalValue digits.text) = decimalValue digits.text := by
      injection h
    omega
  · rintro ⟨hpos, hbound⟩
    have hsize : toInt32 (decimalValue digits.text) = decimalValue digits.text :=
      Int.bmod_eq_of_le_mul_two (by push_cast; omega) (by push_cast; omega)
    rw [hsize, ofSize, if_neg (by omega), if_neg (by omega)]

def Comparison.meaning : Comparison RosMember where
  read := MemberInfo.meaning
  meant := Item.meaning
  Exact := Item.InRange
  read_info i := by
    cases i with
    | constant t k n before after v => simp [Item.info, MemberInfo.meaning, Item.meaning, Item.InRange]
    | field t a k n =>
      cases a with
      | none => exact iff_of_true rfl trivial
      | dynamic => exact iff_of_true rfl trivial
      | fixed digits =>
        rw [Item.InRange, ArraySuffix.InRange, ← ArrayKind.ofSize_size_iff]
        simp [Item.info, MemberInfo.meaning, Item.meaning, ArraySuffix.kind]
  field_of_read := by
    intro m t a k n h
    cases m with
    | field f => exact ⟨f, rfl⟩
    | constant c => simp [MemberInfo.meaning, Item.meaning] at h
  constant_of_read := by
    intro m t k n before after v h
    cases m with
    | field f => simp [MemberInfo.meaning, Item.meaning] at h
    | constant c =>
      simp only [MemberInfo.meaning, Item.meaning, RosMember.constant.injEq] at h
      exact ⟨c, rfl, h.2.2⟩

namespace TypeName

def IsBuiltin : TypeName → Prop
  | name n => (primitiveTypeMap.lookup n.text).isSome
  | path _ _ => False

/-- The type meant by a name without a package, in a definition of `package`. -/
def inPackage (package : Identifier) : TypeName → TypeName
  | name n => if n.text = bytes "Header" then path (.of (bytes "std_msgs") rfl) n else path package n
  | path p n => path p n

end TypeName

namespace Item

/-- The value of a constant is on one line and trimmed; only a string may be empty, or hold
blanks or a `#`. -/
def IsRos : Item → Prop
  | field _ _ _ _ => True
  | constant type _ _ _ _ value => 10 ∉ value ∧ (∀ c ∈ value.head?, isSpace c = false) ∧
      (∀ c ∈ value.getLast?, isSpace c = false) ∧
      (type.text ≠ bytes "string" → value ≠ [] ∧ ∀ c ∈ value, isSpace c = false ∧ c ≠ 35)

def Complete (embedded : List EmbeddedText) (package : Identifier) : Item → Prop
  | field type _ _ _ =>
    type.IsBuiltin ∨ ∃ e ∈ embedded, e.name.text = (type.inPackage package).text
  | constant _ _ _ _ _ _ => True

/-- What the parser can read: no size out of range, and values `constant_value` takes. -/
def Supported : Item → Prop
  | field _ array _ _ => array.InRange
  | constant _ _ _ _ after value => ValueOk after value

end Item

namespace DefinitionText

/-- The text of a definition of `package`, with all definitions it needs. -/
structure IsRos (d : DefinitionText) (package : Identifier) : Prop where
  commentFree : d.CommentFree
  constants : ∀ p ∈ d.allMembers, p.item.IsRos
  qualified : ∀ e ∈ d.embedded, ∃ p n, e.name = .path p n
  complete : ∀ p ∈ d.members, p.item.Complete d.embedded package
  embeddedComplete : ∀ e ∈ d.embedded, ∀ p n, e.name = .path p n →
    ∀ q ∈ e.members, q.item.Complete d.embedded p

/-- The parser accepts the text, and the schema it builds is what the text means. -/
def ReadsAs (d : DefinitionText) (name : Bytes) : Prop :=
  ∃ ast m, parseInfo d.text = .ok ast ∧ parseMsgDef d.text name = .ok m ∧
    Agrees Comparison.meaning ast d ∧ m.BuiltFrom ast name

/-- Nothing in the text is out of the parser's reach. -/
structure Supported (d : DefinitionText) : Prop where
  lead : ¬ d.lead.Indents
  items : ∀ p ∈ d.allMembers, p.item.Supported
  gaps : ∀ p ∈ d.allMembers, ¬ p.gap.Indents
  embedded : ∀ e ∈ d.embedded, e.members ≠ []

end DefinitionText

namespace TypeName

theorem unscoped_congr {t t' : TypeName} (h : t.text = t'.text) : t.unscoped = t'.unscoped := by
  have hends : EndsName [] := fun c hc => nomatch hc
  rcases t.scope_cases hends with ⟨ht, -⟩ | ⟨hn, ht⟩
  · rcases t'.scope_cases hends with ⟨ht', -⟩ | ⟨hn', -⟩
    · rw [ht, ht'] at h
      exact List.append_cancel_left h
    · rw [← h, ht] at hn'
      exact absurd (by simp) hn'
  · rcases t'.scope_cases hends with ⟨ht', -⟩ | ⟨-, ht'⟩
    · rw [h, ht'] at hn
      exact absurd (by simp) hn
    · rw [ht, ht', h]

theorem type_ne_object_of_isBuiltin {t : TypeName} (h : t.IsBuiltin) {f : FieldDef}
    (hf : f.typeName = t.unscoped) : f.type ≠ .object := by
  have hmap : ∀ e ∈ primitiveTypeMap, e.2 ≠ .object := by decide
  cases t with
  | path p n => exact absurd h (by simp [IsBuiltin])
  | name n =>
    obtain ⟨type, htype⟩ := Option.isSome_iff_exists.1 h
    obtain ⟨l₁, l₂, hl, -⟩ := List.lookup_eq_some_iff.1 htype
    have hname : f.typeName = n.text := hf
    rw [FieldDef.type, hname, htype, Option.getD_some]
    exact hmap (n.text, type) (by rw [hl]; simp)

end TypeName

theorem BaseMsgDef.scope_path (members : List MemberInfo) (p n : Identifier) :
    (ofInfo members (TypeName.path p n).text).scope = p.text := by
  have hslash : ∀ c ∈ p.text, (c != '/'.toUInt8) = true := fun c hc =>
    bne_iff_ne.2 (ne_slash_of_identifier (p.valid c hc))
  have hname : (ofInfo members (TypeName.path p n).text).name = p.text ++ (47 :: n.text) := by
    simp only [ofInfo, TypeName.text, List.append_assoc]
    rfl
  have hmem : '/'.toUInt8 ∈ p.text ++ (47 :: n.text) :=
    List.mem_append_right _ List.mem_cons_self
  rw [scope, hname, if_pos hmem, List.takeWhile_append_of_pos hslash,
    List.takeWhile_cons_of_neg (by decide), List.append_nil]

/-- A field of a definition in `package` finds its type: as it is written, or with the
package that the definition's scope names. -/
theorem resolvable_of_complete {definitionMap : DefinitionMap} {scope : Bytes}
    {package : Identifier} {t : TypeName} {f : FieldDef} (hf : f.typeName = t.unscoped)
    (hscope : package.text ≠ bytes "std_msgs" → scope = package.text)
    (h : t.IsBuiltin ∨ (t.inPackage package).unscoped ∈ definitionMap) :
    f.Resolvable definitionMap scope := by
  intro hobj
  have hmem := h.resolve_left fun hb => t.type_ne_object_of_isBuiltin hb hf hobj
  rw [hf]
  cases t with
  | path p n => exact Or.inl hmem
  | name n =>
    rw [TypeName.inPackage] at hmem
    split_ifs at hmem with hheader
    · exact Or.inl hmem
    · by_cases hstd : package.text = bytes "std_msgs"
      · rw [TypeName.unscoped, if_pos hstd] at hmem
        exact Or.inl hmem
      · rw [TypeName.unscoped, if_neg hstd] at hmem
        rw [hscope hstd]
        exact Or.inr hmem

namespace DefinitionText

variable {d : DefinitionText} {ast : MsgDefInfo}

theorem mem_of_agrees {ms : List MemberInfo} {ps : List Placed}
    (h : ms.map MemberInfo.meaning = ps.map fun p => p.item.meaning) {f : FieldInfo}
    (hf : MemberInfo.field f ∈ ms) :
    ∃ p ∈ ps, ∃ t a k n, p.item = .field t a k n ∧ f.typeName = t.unscoped := by
  have hmem := List.mem_map_of_mem (f := MemberInfo.meaning) hf
  rw [h] at hmem
  obtain ⟨p, hp, hmeaning⟩ := List.mem_map.1 hmem
  cases hi : p.item with
  | constant t k n before after v =>
    rw [hi] at hmeaning
    cases hmeaning
  | field t a k n =>
    rw [hi] at hmeaning
    simp only [Item.meaning, MemberInfo.meaning, RosMember.field.injEq] at hmeaning
    exact ⟨p, hp, t, a, k, n, hi, hmeaning.1.symm⟩

theorem complete_of_agrees (hread : Agrees Comparison.meaning ast d) {ms : List MemberInfo}
    {ps : List Placed} (h : ms.map MemberInfo.meaning = ps.map fun p => p.item.meaning)
    {package : Identifier} (hps : ∀ p ∈ ps, p.item.Complete d.embedded package) {name : Bytes}
    (hscope : package.text ≠ bytes "std_msgs" → (BaseMsgDef.ofInfo ms name).scope = package.text) :
    MsgDef.Complete ast ms name := by
  intro m hm f hf
  cases m with
  | constant c => cases hf
  | field info =>
    cases hf
    obtain ⟨p, hp, t, a, k, n, hitem, htype⟩ := mem_of_agrees h hm
    have hcomplete := hps p hp
    rw [hitem] at hcomplete
    refine resolvable_of_complete htype hscope (hcomplete.imp_right ?_)
    rintro ⟨e, he, htext⟩
    rw [MsgDef.mem_embeddedDefinitions, ← TypeName.unscoped_congr htext]
    obtain ⟨y, hy, hagrees⟩ := forall₂_mem_right hread.2 he
    exact ⟨y, hy, hagrees.1⟩

theorem IsRos.complete_ast {package : Identifier} (name : Identifier) (h : d.IsRos package)
    (hread : Agrees Comparison.meaning ast d) :
    MsgDef.Complete ast ast.members (TypeName.path package name).text ∧
      ∀ y ∈ ast.embeddedDefinitions, MsgDef.Complete ast y.members y.typeName := by
  refine ⟨complete_of_agrees hread hread.1 h.complete fun _ => BaseMsgDef.scope_path _ _ _, ?_⟩
  intro y hy
  obtain ⟨e, he, hname, hmembers⟩ := forall₂_mem_right hread.2.flip hy
  obtain ⟨p, n, hpath⟩ := h.qualified e he
  refine complete_of_agrees hread hmembers (h.embeddedComplete e he p n hpath) fun hstd => ?_
  rw [hname, hpath, TypeName.unscoped, if_neg hstd]
  exact BaseMsgDef.scope_path _ p n

theorem Item.supported_iff (i : Item) : i.Supported ↔ i.Sound ∧ i.InRange := by
  cases i with
  | constant t k n before after v => exact ⟨fun h => ⟨h, trivial⟩, And.left⟩
  | field t a k n =>
    cases a with
    | none => exact iff_of_true trivial ⟨trivial, trivial⟩
    | dynamic => exact iff_of_true trivial ⟨trivial, trivial⟩
    | fixed digits =>
      refine ⟨fun h => ⟨?_, h⟩, And.right⟩
      exact lt_trans h.2 (by norm_num)

theorem ok_iff_supported (h : d.CommentFree) : d.Ok Comparison.meaning ↔ d.Supported := by
  have hskipped : ∀ {g : Gap}, g.CommentFree → (g.Skipped ↔ ¬ g.Indents) := by
    intro g hg
    rw [Gap.skipped_iff fun c hc => absurd hc (hg c)]
    exact and_iff_right fun c hc => absurd hc (hg c)
  have hgaps : ∀ p ∈ d.allMembers, p.gap.CommentFree := by
    intro p hp
    rw [allMembers, List.mem_append, List.mem_flatMap] at hp
    rcases hp with hp | ⟨e, he, hp⟩
    · exact h.2.1 p hp
    · exact (h.2.2 e he).2.2 p hp
  rw [h.ok_iff, hskipped h.1]
  constructor
  · rintro ⟨hlead, hall, hne⟩
    exact ⟨hlead, fun p hp => (Item.supported_iff _).2 ⟨(hall p hp).1, (hall p hp).2.1⟩,
      fun p hp => (hskipped (hgaps p hp)).1 (hall p hp).2.2, hne⟩
  · rintro ⟨hlead, hitems, hindents, hne⟩
    refine ⟨hlead, fun p hp => ?_, hne⟩
    have hitem := (Item.supported_iff _).1 (hitems p hp)
    exact ⟨hitem.1, hitem.2, (hskipped (hgaps p hp)).2 (hindents p hp)⟩

/-- A text of the language is read as what it means if and only if nothing in it is out
of the parser's reach. -/
theorem readsAs_iff {package name : Identifier} (h : d.IsRos package) :
    d.ReadsAs (TypeName.path package name).text ↔ d.Supported := by
  have hok := ok_iff_supported h.commentFree
  constructor
  · rintro ⟨ast, m, hparse, -, hread, -⟩
    exact hok.1 (ok_of_phraseParse _ h.commentFree.crFree h.commentFree.determined
      (parseInfo_eq_ok_iff.1 hparse) hread)
  · intro hsupported
    have hparse := parseInfo_eq_ok_iff.2 (phraseParse_msg _ (hok.2 hsupported))
    have hread : Agrees Comparison.meaning d.info d :=
      agrees_info _ d fun p hp => ((Item.supported_iff _).1 (hsupported.items p hp)).2
    obtain ⟨hmembers, hembedded⟩ := h.complete_ast name hread
    obtain ⟨m, hm⟩ := MsgDef.ofInfo_ok hmembers hembedded
    refine ⟨d.info, m, hparse, ?_, hread, MsgDef.builtFrom_of_ofInfo hm⟩
    rw [parseMsgDef, hparse]
    exact hm

theorem isIdentifier_string : isIdentifier (bytes "string") := rfl

theorem isIdentifier_pkg : isIdentifier (bytes "pkg") := rfl

/-- A greeting, and a field whose type is embedded. -/
def greetingNode : DefinitionText where
  lead := []
  members := [
    { item := .constant (.name (.of (bytes "string") isIdentifier_string)) 0 (.of (bytes "GREETING") rfl) 0 0
        (bytes "hello")
      gap := [.newline] },
    { item := .field (.name (.of (bytes "Node") rfl)) .dynamic 0 (.of (bytes "nodes") rfl)
      gap := [.newline] }]
  embedded := [{
    before := []
    name := .path (.of (bytes "pkg") isIdentifier_pkg) (.of (bytes "Node") rfl)
    after := []
    members := [
      { item := .field (.name (.of (bytes "int8") rfl)) .none 0 (.of (bytes "x") rfl)
        gap := [.newline] }] }]
  lines := ⟨Or.inl ⟨_, List.mem_cons_self, nofun⟩, Or.inl ⟨_, List.mem_cons_self, nofun⟩, trivial⟩
  embeddedLines := ⟨⟨Or.inl ⟨_, List.mem_cons_self, nofun⟩, trivial⟩, trivial⟩

theorem greetingNode_isRos : greetingNode.IsRos (.of (bytes "pkg") isIdentifier_pkg) where
  commentFree := by simp [greetingNode, CommentFree, Gap.CommentFree]
  constants := by
    simp only [greetingNode, allMembers, List.flatMap_cons, List.flatMap_nil, List.append_nil, List.cons_append,
      List.nil_append, List.forall_mem_cons]
    refine ⟨⟨by decide, by decide +kernel, by decide +kernel, fun h => absurd rfl h⟩, trivial, trivial, ?_⟩
    simp
  qualified := by simp [greetingNode]
  complete := by
    simp only [greetingNode, List.forall_mem_cons]
    exact ⟨trivial, Or.inr ⟨_, List.mem_cons_self, rfl⟩, by simp⟩
  embeddedComplete := by
    intro e he p n hname q hq
    cases List.mem_singleton.1 he
    cases hname
    cases List.mem_singleton.1 hq
    exact Or.inl (by unfold TypeName.IsBuiltin; decide)

theorem not_indents_newline : ¬ Gap.Indents [.newline] := fun h => by
  have hskip := h.skipper_ne_nil
  exact hskip (by decide +kernel)

theorem valueOk_hello : ValueOk 0 (bytes "hello") := by
  refine ⟨⟨List.cons_ne_nil _ _, by decide +kernel⟩, fun h => ?_, fun h => ?_⟩
  all_goals
    have hlength := h.length_le
    rw [length_separatorLine] at hlength
    exact absurd hlength (by decide +kernel)

theorem supported_greetingNode : greetingNode.Supported where
  lead := nofun
  items := by
    simp only [greetingNode, allMembers, List.flatMap_cons, List.flatMap_nil, List.append_nil, List.cons_append,
      List.nil_append, List.forall_mem_cons]
    exact ⟨valueOk_hello, trivial, trivial, by simp⟩
  gaps := by
    simp only [greetingNode, allMembers, List.flatMap_cons, List.flatMap_nil, List.append_nil, List.cons_append,
      List.nil_append, List.forall_mem_cons, not_indents_newline]
    simp
  embedded := by simp [greetingNode]
theorem readsAs_greetingNode : greetingNode.ReadsAs (bytes "pkg/A") :=
  (@readsAs_iff _ (.of (bytes "pkg") isIdentifier_pkg) (.of (bytes "A") rfl) greetingNode_isRos).2
    supported_greetingNode

def greeting (value : Bytes) : DefinitionText where
  lead := []
  members := [{
    item := .constant (.name (.of (bytes "string") isIdentifier_string)) 0 (.of (bytes "GREETING") rfl) 0 0 value
    gap := [.newline] }]
  embedded := []
  lines := ⟨Or.inl ⟨_, List.mem_cons_self, nofun⟩, trivial⟩
  embeddedLines := trivial

theorem greeting_isRos {value : Bytes} (hline : 10 ∉ value)
    (hhead : ∀ c ∈ value.head?, isSpace c = false)
    (hlast : ∀ c ∈ value.getLast?, isSpace c = false) (package : Identifier) :
    (greeting value).IsRos package where
  commentFree := by simp [greeting, CommentFree, Gap.CommentFree]
  constants := by
    intro p hp
    cases List.mem_singleton.1 hp
    exact ⟨hline, hhead, hlast, fun h => absurd rfl h⟩
  qualified := by simp [greeting]
  complete := by
    intro p hp
    cases List.mem_singleton.1 hp
    exact trivial
  embeddedComplete := by simp [greeting]

/-- The value of `string GREETING=hello world` ends at the blank for the parser. -/
theorem not_readsAs_greeting :
    (greeting (bytes "hello world")).IsRos (.of (bytes "pkg") isIdentifier_pkg) ∧
      ¬ (greeting (bytes "hello world")).ReadsAs (bytes "pkg/A") := by
  refine ⟨greeting_isRos (by decide) (by decide +kernel) (by decide +kernel) _, ?_⟩
  rintro ⟨ast, m, hparse, -⟩
  have hthrows : parseInfo (greeting (bytes "hello world")).text =
      .error (.runtimeError (bytes "Message definition parsing failed at:  world\n")) := by
    decide +kernel
  rw [hthrows] at hparse
  cases hparse

end DefinitionText

end Embag
