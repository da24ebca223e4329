import Embag.MessageDefLanguage
import Embag.MessageParser

/-! The definitions that the fields of a message definition point to, and those that they name.
The package `std_msgs` is taken off on both sides, so that one of its types can be taken for a
builtin one or for that of the package in which it is used. -/

namespace Embag

open Qi Qi.Rule RosMsgSkipper RosMsgGrammar Loops

/-- Neither a builtin type nor a type of the definition's own package is taken for the one that
is named. -/
def TypeName.Unshadowed (embedded : List EmbeddedText) (package : Identifier) (t : TypeName) : Prop :=
  ∀ p n, t.inPackage package = .path p n → p.text = bytes "std_msgs" →
    primitiveTypeMap.lookup n.text = none ∧
      (package.text = bytes "std_msgs" ∨ ∀ e ∈ embedded, e.name.text ≠ (path package n).text)

def Item.Unshadowed (embedded : List EmbeddedText) (package : Identifier) : Item → Prop
  | field type _ _ _ => ¬ type.IsBuiltin → type.Unshadowed embedded package
  | constant _ _ _ _ _ _ => True

def PointsTo (m : MsgDef) (f : FieldDef) (e : EmbeddedText) : Prop :=
  ∃ d, m.typeDefinition f = .ok d ∧ d.name = e.name.unscoped ∧
    d.members.map MemberDef.info = e.info.members

namespace DefinitionText

/-- The definitions that a definition of `package` needs are embedded, each once. -/
structure IsComplete (d : DefinitionText) (package : Identifier) : Prop where
  qualified : ∀ e ∈ d.embedded, ∃ p n, e.name = .path p n
  distinct : (d.embedded.map fun e => e.name.text).Nodup
  members : ∀ p ∈ d.members, p.item.Complete d.embedded package
  embedded : ∀ e ∈ d.embedded, ∀ p n, e.name = .path p n → ∀ q ∈ e.members, q.item.Complete d.embedded p

/-- A field whose type is not builtin points to the definition of the type it names. -/
def MemberResolves (d : DefinitionText) (m : MsgDef) (package : Identifier) (p : Placed)
    (member : MemberDef) : Prop :=
  ∀ t a k n, p.item = .field t a k n → ¬ t.IsBuiltin → ∃ f, member = .field f ∧
    ∃ e ∈ d.embedded, e.name.text = (t.inPackage package).text ∧ PointsTo m f e

/-- The schema of the text is made, and all its fields point to the definitions they name. -/
def Resolves (d : DefinitionText) (text : Bytes) (package name : Identifier) : Prop :=
  ∃ m, parseMsgDef text (TypeName.path package name).text = .ok m ∧
    List.Forall₂ (d.MemberResolves m package) d.members m.members ∧
    ∀ e ∈ d.embedded, ∀ p n, e.name = .path p n → ∃ d', m.embeddedDefinitionMap.lookup e.name.unscoped = some d' ∧
      List.Forall₂ (d.MemberResolves m p) e.members d'.members

/-- No reference to a type of `std_msgs` is taken for another. -/
def Unshadowed (d : DefinitionText) (package : Identifier) : Prop :=
  (∀ p ∈ d.members, p.item.Unshadowed d.embedded package) ∧
    ∀ e ∈ d.embedded, ∀ p n, e.name = .path p n → ∀ q ∈ e.members, q.item.Unshadowed d.embedded p

end DefinitionText

section Names

variable {p n : Identifier}

theorem Identifier.notMem_slash (n : Identifier) : (47 : UInt8) ∉ n.text :=
  fun h => ne_slash_of_identifier (n.valid 47 h) rfl

theorem text_path (p n : Identifier) : (TypeName.path p n).text = p.text ++ 47 :: n.text := by
  rw [TypeName.text, List.append_assoc]
  rfl

theorem unscoped_of_std (h : p.text = bytes "std_msgs") : (TypeName.path p n).unscoped = n.text := by
  rw [TypeName.unscoped, if_pos h]

theorem unscoped_of_ne (h : p.text ≠ bytes "std_msgs") :
    (TypeName.path p n).unscoped = p.text ++ 47 :: n.text := by
  rw [TypeName.unscoped, if_neg h, ← text_path]
  rfl

theorem path_inj {x y : Bytes} : p.text ++ 47 :: n.text = x ++ 47 :: y ↔ p.text = x ∧ n.text = y := by
  rw [List.append_cons_inj_of_notMem p.notMem_slash n.notMem_slash, eq_self_iff_true, true_and]

theorem lookup_of_slash {s : Bytes} (h : (47 : UInt8) ∈ s) : primitiveTypeMap.lookup s = none := by
  have hmap : ∀ e ∈ primitiveTypeMap, (47 : UInt8) ∉ e.1 := by decide
  rw [List.lookup_eq_none_iff]
  intro e he
  rw [bne_iff_ne]
  rintro rfl
  exact hmap e he h

theorem scope_of_std {members : List MemberInfo} (h : p.text = bytes "std_msgs") :
    (BaseMsgDef.ofInfo members (TypeName.path p n).unscoped).scope = [] := by
  rw [unscoped_of_std h]
  exact if_neg n.notMem_slash

end Names

namespace DefinitionText

section Lookups

variable {d : DefinitionText} {package : Identifier}

theorem mem_definitions {key : Bytes} :
    key ∈ MsgDef.embeddedDefinitions d.info ↔ ∃ e ∈ d.embedded, e.name.unscoped = key := by
  rw [MsgDef.mem_embeddedDefinitions]
  constructor
  · rintro ⟨i, hi, hname⟩
    obtain ⟨e, he, rfl⟩ := List.mem_map.1 hi
    exact ⟨e, he, hname⟩
  · rintro ⟨e, he, hname⟩
    exact ⟨e.info, List.mem_map_of_mem he, hname⟩

theorem mem_definitions_scoped (hqualified : ∀ e ∈ d.embedded, ∃ p n, e.name = .path p n) {scope s : Bytes} :
    scope ++ bytes "/" ++ s ∈ MsgDef.embeddedDefinitions d.info ↔
      ∃ e ∈ d.embedded, ∃ p n, e.name = .path p n ∧ p.text ≠ bytes "std_msgs" ∧ p.text = scope ∧ n.text = s := by
  have hslash : scope ++ bytes "/" ++ s = scope ++ 47 :: s := by
    rw [List.append_assoc]
    rfl
  rw [mem_definitions, hslash]
  constructor
  · rintro ⟨e, he, hname⟩
    obtain ⟨p, n, hpath⟩ := hqualified e he
    rw [hpath] at hname
    by_cases hstd : p.text = bytes "std_msgs"
    · rw [unscoped_of_std hstd] at hname
      exact absurd (by rw [hname]; simp) n.notMem_slash
    · rw [unscoped_of_ne hstd, path_inj] at hname
      exact ⟨e, he, p, n, hpath, hstd, hname⟩
  · rintro ⟨e, he, p, n, hpath, hstd, rfl, rfl⟩
    exact ⟨e, he, by rw [hpath, unscoped_of_ne hstd]⟩

def ScopeOf (package : Identifier) (scope : Bytes) : Prop :=
  (package.text ≠ bytes "std_msgs" → scope = package.text) ∧
    (package.text = bytes "std_msgs" → scope = bytes "std_msgs" ∨ scope = [])

theorem ScopeOf.eq_of_eq {scope : Bytes} (h : ScopeOf package scope) {p : Identifier}
    (hp : p.text = scope) (hstd : p.text ≠ bytes "std_msgs") : package.text = p.text := by
  by_cases hpackage : package.text = bytes "std_msgs"
  · rcases h.2 hpackage with hscope | hscope
    · exact absurd (hp.trans hscope) hstd
    · exact absurd (hp.trans hscope) p.text_ne_nil
  · rw [hp, h.1 hpackage]

variable {scope : Bytes} {f : FieldDef} {t : TypeName}

theorem foundDefinition_eq (hnone : f.typeDefinition = none) (definitionMap : DefinitionMap) :
    f.foundDefinition definitionMap scope =
      if scope ++ bytes "/" ++ f.typeName ∈ definitionMap then some (scope ++ bytes "/" ++ f.typeName)
      else if f.typeName ∈ definitionMap then some f.typeName else none := by
  rw [FieldDef.foundDefinition, hnone]

theorem inPackage_cases (t : TypeName) (package : Identifier) :
    (∃ p n, t.inPackage package = .path p n ∧ p.text = bytes "std_msgs" ∧ t.unscoped = n.text) ∨
    (∃ n, t = .name n ∧ t.inPackage package = .path package n ∧ package.text ≠ bytes "std_msgs") ∨
    ∃ p n, t = .path p n ∧ t.inPackage package = .path p n ∧ p.text ≠ bytes "std_msgs" := by
  cases t with
  | path p n =>
    by_cases hstd : p.text = bytes "std_msgs"
    · exact .inl ⟨p, n, rfl, hstd, unscoped_of_std hstd⟩
    · exact .inr (.inr ⟨p, n, rfl, rfl, hstd⟩)
  | name n =>
    rw [TypeName.inPackage]
    split_ifs with hheader
    · exact .inl ⟨_, n, rfl, rfl, rfl⟩
    · by_cases hstd : package.text = bytes "std_msgs"
      · exact .inl ⟨package, n, rfl, hstd, rfl⟩
      · exact .inr (.inl ⟨n, rfl, rfl, hstd⟩)

theorem ne_of_inPackage {p n p' n' : Identifier} (ht : t.inPackage package = .path p n)
    (hp : p.text ≠ bytes "std_msgs") (ht' : t.inPackage package = .path p' n') : p'.text ≠ bytes "std_msgs" := by
  rw [ht, TypeName.path.injEq] at ht'
  rwa [← ht'.1]

theorem unshadowed_of_ne {p n : Identifier} (ht : t.inPackage package = .path p n)
    (hp : p.text ≠ bytes "std_msgs") : t.Unshadowed d.embedded package :=
  fun _ _ ht' hstd => absurd hstd (ne_of_inPackage ht hp ht')

theorem unshadowed_iff {p n : Identifier} (ht : t.inPackage package = .path p n) (hp : p.text = bytes "std_msgs") :
    t.Unshadowed d.embedded package ↔ primitiveTypeMap.lookup n.text = none ∧
      (package.text = bytes "std_msgs" ∨ ∀ e ∈ d.embedded, e.name.text ≠ (TypeName.path package n).text) := by
  constructor
  · intro h
    exact h p n ht hp
  · intro h p' n' ht' _
    rw [ht, TypeName.path.injEq] at ht'
    rwa [← ht'.2]

/-- A type of `std_msgs` is not under its name with the scope in front exactly if the package of
the definition has no type of that name. -/
theorem notMem_scoped_iff (hqualified : ∀ e ∈ d.embedded, ∃ p n, e.name = .path p n)
    (hscope : ScopeOf package scope) (n : Identifier) :
    scope ++ bytes "/" ++ n.text ∉ MsgDef.embeddedDefinitions d.info ↔
      package.text = bytes "std_msgs" ∨ ∀ e ∈ d.embedded, e.name.text ≠ (TypeName.path package n).text := by
  rw [mem_definitions_scoped hqualified]
  constructor
  · intro hnone
    by_cases hstd : package.text = bytes "std_msgs"
    · exact .inl hstd
    · refine .inr fun e he htext => hnone ?_
      obtain ⟨p, n', hpath⟩ := hqualified e he
      rw [hpath, text_path, text_path, path_inj] at htext
      exact ⟨e, he, p, n', hpath, by rwa [htext.1], htext.1.trans (hscope.1 hstd).symm, htext.2⟩
  · rintro hor ⟨e, he, p, n', hpath, hp, hscope', hn⟩
    have hpackage := hscope.eq_of_eq hscope' hp
    have hne := hor.resolve_left (by rwa [hpackage])
    apply hne e he
    rw [hpath, text_path, text_path, hpackage, hn]

theorem foundDefinition_of_std {n : Identifier} (hname : f.typeName = n.text) (hnone : f.typeDefinition = none)
    (hmem : n.text ∈ MsgDef.embeddedDefinitions d.info) :
    f.foundDefinition (MsgDef.embeddedDefinitions d.info) scope = some n.text ↔
      scope ++ bytes "/" ++ n.text ∉ MsgDef.embeddedDefinitions d.info := by
  rw [foundDefinition_eq hnone, hname]
  constructor
  · intro hfound hscoped
    rw [if_pos hscoped, Option.some.injEq] at hfound
    exact n.notMem_slash (by rw [← hfound, List.append_assoc]; simp [bytes])
  · intro hscoped
    rw [if_neg hscoped, if_pos hmem]

/-- What the pointer of an object field is set to is the type that is named, unless that is
shadowed. -/
theorem foundDefinition_iff (hqualified : ∀ e ∈ d.embedded, ∃ p n, e.name = .path p n)
    (hscope : ScopeOf package scope) (hname : f.typeName = t.unscoped) (hnone : f.typeDefinition = none)
    (hobj : f.type = .object) (hpresent : ∃ e ∈ d.embedded, e.name.text = (t.inPackage package).text) :
    f.foundDefinition (MsgDef.embeddedDefinitions d.info) scope = some (t.inPackage package).unscoped ↔
      t.Unshadowed d.embedded package := by
  have hmem : (t.inPackage package).unscoped ∈ MsgDef.embeddedDefinitions d.info := by
    obtain ⟨e, he, htext⟩ := hpresent
    exact mem_definitions.2 ⟨e, he, TypeName.unscoped_congr htext⟩
  rcases inPackage_cases t package with ⟨p, n, ht, hp, hu⟩ | ⟨n, rfl, ht, hp⟩ | ⟨p, n, rfl, ht, hp⟩
  · rw [hu] at hname
    have hlookup : primitiveTypeMap.lookup n.text = none := by
      rw [← Option.not_isSome_iff_eq_none, ← hname, f.lookup_isSome_iff, not_not]
      exact hobj
    rw [ht, unscoped_of_std hp] at hmem
    rw [unshadowed_iff ht hp, ← notMem_scoped_iff hqualified hscope, ht, unscoped_of_std hp,
      foundDefinition_of_std hname hnone hmem, and_iff_right hlookup]
  · -- the scope in front makes it the name that is embedded
    have hscoped : scope ++ bytes "/" ++ f.typeName = (TypeName.path package n).unscoped := by
      rw [hname, hscope.1 hp, unscoped_of_ne hp, List.append_assoc]
      rfl
    rw [ht] at hmem ⊢
    rw [foundDefinition_eq hnone, hscoped, if_pos hmem]
    exact iff_of_true rfl (unshadowed_of_ne ht hp)
  · have hscoped : scope ++ bytes "/" ++ f.typeName ∉ MsgDef.embeddedDefinitions d.info := by
      rw [mem_definitions_scoped hqualified]
      rintro ⟨e, he, p', n', -, -, -, hn'⟩
      rw [hname, unscoped_of_ne hp] at hn'
      exact n'.notMem_slash (by rw [hn']; simp)
    rw [ht] at hmem ⊢
    rw [foundDefinition_eq hnone, if_neg hscoped, hname, if_pos hmem]
    exact iff_of_true rfl (unshadowed_of_ne ht hp)

/-- A field whose type is not builtin is an object field, unless it names a type of `std_msgs`
that is called like a builtin one. -/
theorem type_eq_object_iff (package : Identifier) (hname : f.typeName = t.unscoped) (hbuiltin : ¬ t.IsBuiltin) :
    f.type = .object ↔ ∀ p n, t.inPackage package = .path p n → p.text = bytes "std_msgs" →
      primitiveTypeMap.lookup n.text = none := by
  have hlookup : f.type = .object ↔ primitiveTypeMap.lookup t.unscoped = none := by
    rw [← hname, ← not_iff_not, ← Ne, ← f.lookup_isSome_iff, Option.isSome_iff_ne_none]
  rw [hlookup]
  rcases inPackage_cases t package with ⟨p, n, ht, hp, hu⟩ | ⟨n, rfl, ht, hp⟩ | ⟨p, n, rfl, ht, hp⟩
  · rw [hu]
    constructor
    · intro hnone p' n' ht' _
      rw [ht, TypeName.path.injEq] at ht'
      rwa [← ht'.2]
    · intro h
      exact h p n ht hp
  · refine iff_of_true ?_ fun p' n' ht' hstd => absurd hstd (ne_of_inPackage ht hp ht')
    rw [← Option.not_isSome_iff_eq_none]
    exact hbuiltin
  · refine iff_of_true ?_ fun p' n' ht' hstd => absurd hstd (ne_of_inPackage ht hp ht')
    apply lookup_of_slash
    rw [unscoped_of_ne hp]
    simp

end Lookups

/-! ### The schema that is made -/

section Schemas

variable {d : DefinitionText} {m : MsgDef} {package : Identifier} {scope : Bytes}

/-- The definitions that are embedded are those of the text, under their names. -/
def Stores (d : DefinitionText) (m : MsgDef) : Prop :=
  ∀ e ∈ d.embedded, ∃ d', m.embeddedDefinitionMap.lookup e.name.unscoped = some d' ∧
    d'.name = e.name.unscoped ∧ d'.members.map MemberDef.info = e.info.members

def InitializedIn (d : DefinitionText) (scope : Bytes) (p : Placed) (member : MemberDef) : Prop :=
  (MemberDef.ofInfo p.item.info).initializeType (MsgDef.embeddedDefinitions d.info) scope = .ok member

theorem Stores.pointsTo_iff (h : d.Stores m) {f : FieldDef} (hobj : f.type = .object) {key : Bytes}
    (hkey : f.typeDefinition = some key) (hmem : key ∈ MsgDef.embeddedDefinitions d.info) {e : EmbeddedText}
    (he : e ∈ d.embedded) : PointsTo m f e ↔ key = e.name.unscoped := by
  have htype : ∀ d', m.embeddedDefinitionMap.lookup key = some d' → m.typeDefinition f = .ok d' := by
    intro d' hd'
    unfold MsgDef.typeDefinition
    rw [if_neg (not_not_intro hobj), hkey, Option.bind_some, hd']
  constructor
  · rintro ⟨d', hd', hname, -⟩
    obtain ⟨e', he', hkey'⟩ := mem_definitions.1 hmem
    obtain ⟨d'', hlookup, hname', -⟩ := h e' he'
    rw [htype d'' (by rw [← hkey', hlookup]), Except.ok.injEq] at hd'
    rw [← hkey', ← hname', hd', hname]
  · rintro rfl
    obtain ⟨d', hlookup, hname, hmembers⟩ := h e he
    exact ⟨d', htype d' hlookup, hname, hmembers⟩

theorem Stores.exists_pointsTo_iff (h : d.Stores m) {f : FieldDef} (hobj : f.type = .object) {key : Bytes}
    (hkey : f.typeDefinition = some key) (hmem : key ∈ MsgDef.embeddedDefinitions d.info) {t : TypeName}
    (hpresent : ∃ e ∈ d.embedded, e.name.text = t.text) :
    (∃ e ∈ d.embedded, e.name.text = t.text ∧ PointsTo m f e) ↔ key = t.unscoped := by
  constructor
  · rintro ⟨e, he, htext, hpoints⟩
    rw [(h.pointsTo_iff hobj hkey hmem he).1 hpoints]
    exact TypeName.unscoped_congr htext
  · intro heq
    obtain ⟨e, he, htext⟩ := hpresent
    refine ⟨e, he, htext, (h.pointsTo_iff hobj hkey hmem he).2 ?_⟩
    rw [heq]
    exact (TypeName.unscoped_congr htext).symm

theorem exists_of_setTypeDefinition {f f' : FieldDef} {definitionMap : DefinitionMap} (hobj : f.type = .object)
    (h : f.setTypeDefinition definitionMap scope = .ok f') :
    ∃ key, f.foundDefinition definitionMap scope = some key ∧ f' = { f with typeDefinition := some key } := by
  unfold FieldDef.setTypeDefinition at h
  rw [if_neg (not_not_intro hobj)] at h
  cases hkey : f.foundDefinition definitionMap scope with
  | none =>
    rw [hkey] at h
    cases h
  | some key =>
    rw [hkey] at h
    cases h
    exact ⟨key, rfl, rfl⟩

/-- A field of a definition of `package` points to the definition it names exactly if that is not
shadowed. -/
theorem field_resolves_iff (h : d.Stores m) (hqualified : ∀ e ∈ d.embedded, ∃ p n, e.name = .path p n)
    (hscope : ScopeOf package scope) {t : TypeName} (hbuiltin : ¬ t.IsBuiltin) {f : FieldDef}
    (hname : f.typeName = t.unscoped) (hnone : f.typeDefinition = none)
    (hpresent : ∃ e ∈ d.embedded, e.name.text = (t.inPackage package).text) {member : MemberDef}
    (hinit : MemberDef.initializeType (MsgDef.embeddedDefinitions d.info) scope (.field f) = .ok member) :
    (∃ f', member = .field f' ∧ ∃ e ∈ d.embedded, e.name.text = (t.inPackage package).text ∧ PointsTo m f' e) ↔
      t.Unshadowed d.embedded package := by
  rw [MemberDef.initializeType] at hinit
  by_cases hobj : f.type = .object
  · rw [if_pos hobj, map_eq_ok] at hinit
    obtain ⟨f', hset, rfl⟩ := hinit
    obtain ⟨key, hkey, rfl⟩ := exists_of_setTypeDefinition hobj hset
    have hmem := FieldDef.mem_of_foundDefinition hnone hkey
    have hfound := foundDefinition_iff hqualified hscope hname hnone hobj hpresent
    rw [hkey, Option.some.injEq] at hfound
    rw [← hfound, ← h.exists_pointsTo_iff (f := { f with typeDefinition := some key }) hobj rfl hmem hpresent]
    constructor
    · rintro ⟨f', hf', hpoints⟩
      cases hf'
      exact hpoints
    · intro hpoints
      exact ⟨_, rfl, hpoints⟩
  · rw [if_neg hobj] at hinit
    cases hinit
    refine iff_of_false ?_ fun hunshadowed => ?_
    · rintro ⟨f', hf', e, -, -, d', hd', -⟩
      cases hf'
      exact hobj (MessageParser.type_of_typeDefinition hd')
    · apply hobj
      rw [type_eq_object_iff package hname hbuiltin]
      exact fun p n hpath hstd => (hunshadowed p n hpath hstd).1

theorem memberResolves_iff (h : d.Stores m) (hqualified : ∀ e ∈ d.embedded, ∃ p n, e.name = .path p n)
    (hscope : ScopeOf package scope) {p : Placed} {member : MemberDef}
    (hcomplete : p.item.Complete d.embedded package) (hinit : d.InitializedIn scope p member) :
    d.MemberResolves m package p member ↔ p.item.Unshadowed d.embedded package := by
  unfold MemberResolves InitializedIn at *
  cases hitem : p.item with
  | constant t k n before after v =>
    refine iff_of_true (fun t' a k' n' hfield => ?_) trivial
    cases hfield
  | field t a k n =>
    rw [hitem] at hcomplete hinit
    constructor
    · intro hresolves hbuiltin
      exact (field_resolves_iff h hqualified hscope hbuiltin rfl rfl (hcomplete.resolve_left hbuiltin) hinit).1
        (hresolves t a k n rfl hbuiltin)
    · intro hunshadowed t' a' k' n' hfield hbuiltin
      cases hfield
      exact (field_resolves_iff h hqualified hscope hbuiltin rfl rfl (hcomplete.resolve_left hbuiltin) hinit).2
        (hunshadowed hbuiltin)

theorem members_resolve_iff (h : d.Stores m) (hqualified : ∀ e ∈ d.embedded, ∃ p n, e.name = .path p n)
    (hscope : ScopeOf package scope) {ps : List Placed} {d' : BaseMsgDef} {name : Bytes}
    (hcomplete : ∀ p ∈ ps, p.item.Complete d.embedded package)
    (hscopeName : (BaseMsgDef.ofInfo (ps.map fun p => p.item.info) name).scope = scope)
    (hinit : (BaseMsgDef.ofInfo (ps.map fun p => p.item.info) name).initializeFieldTypeDefinitions
      (MsgDef.embeddedDefinitions d.info) = .ok d') :
    List.Forall₂ (d.MemberResolves m package) ps d'.members ↔ ∀ p ∈ ps, p.item.Unshadowed d.embedded package := by
  have hall : List.Forall₂ (d.InitializedIn scope) ps d'.members := by
    rw [BaseMsgDef.initializeFieldTypeDefinitions, bind_eq_ok] at hinit
    obtain ⟨members, hmembers, hd'⟩ := hinit
    cases hd'
    rw [hscopeName] at hmembers
    have hsteps := forall₂_of_mapM_ok hmembers
    rwa [BaseMsgDef.ofInfo, List.map_map, List.forall₂_map_left_iff] at hsteps
  generalize d'.members = members at hall
  clear hinit hscopeName
  induction hall with
  | nil => simp
  | @cons p member ps members hfirst _ ih =>
    rw [List.forall_mem_cons] at hcomplete ⊢
    rw [List.forall₂_cons]
    exact and_congr (memberResolves_iff h hqualified hscope hcomplete.1 hfirst) (ih hcomplete.2)

theorem scopeOf_unscoped {p n : Identifier} (members : List MemberInfo) :
    ScopeOf p (BaseMsgDef.ofInfo members (TypeName.path p n).unscoped).scope := by
  constructor
  · intro hne
    rw [unscoped_of_ne hne, ← text_path]
    exact BaseMsgDef.scope_path members p n
  · intro hstd
    exact .inr (scope_of_std hstd)

theorem scopeOf_text {p n : Identifier} (members : List MemberInfo) :
    ScopeOf p (BaseMsgDef.ofInfo members (TypeName.path p n).text).scope := by
  rw [BaseMsgDef.scope_path members p n]
  exact ⟨fun _ => rfl, fun hstd => .inl hstd⟩

theorem IsComplete.eq_of_unscoped (h : d.IsComplete package) {e e' : EmbeddedText} (he : e ∈ d.embedded)
    (he' : e' ∈ d.embedded) (heq : e.name.unscoped = e'.name.unscoped) : e = e' := by
  apply List.inj_on_of_nodup_map h.distinct he he'
  show e.name.text = e'.name.text
  obtain ⟨p, n, hpath⟩ := h.qualified e he
  obtain ⟨p', n', hpath'⟩ := h.qualified e' he'
  rw [hpath, hpath'] at heq ⊢
  by_cases hstd : p.text = bytes "std_msgs"
  · by_cases hstd' : p'.text = bytes "std_msgs"
    · rw [unscoped_of_std hstd, unscoped_of_std hstd'] at heq
      rw [text_path, text_path, hstd, hstd', heq]
    · rw [unscoped_of_std hstd, unscoped_of_ne hstd'] at heq
      exact absurd (by rw [heq]; simp) n.notMem_slash
  · by_cases hstd' : p'.text = bytes "std_msgs"
    · rw [unscoped_of_ne hstd, unscoped_of_std hstd'] at heq
      exact absurd (by rw [← heq]; simp) n'.notMem_slash
    · rwa [unscoped_of_ne hstd, unscoped_of_ne hstd', ← text_path, ← text_path] at heq

theorem IsComplete.find_info (h : d.IsComplete package) {e : EmbeddedText} (he : e ∈ d.embedded) :
    d.info.embeddedDefinitions.find? (fun i => i.typeName = e.name.unscoped) = some e.info := by
  have hsome : (d.info.embeddedDefinitions.find? fun i => i.typeName = e.name.unscoped).isSome := by
    rw [List.find?_isSome]
    exact ⟨e.info, List.mem_map_of_mem he, by simp [EmbeddedText.info]⟩
  obtain ⟨i, hi⟩ := Option.isSome_iff_exists.1 hsome
  obtain ⟨e', he', rfl⟩ := List.mem_map.1 (List.mem_of_find?_eq_some hi)
  have hname := List.find?_some hi
  rw [decide_eq_true_iff] at hname
  rw [hi, h.eq_of_unscoped he' he hname]

theorem IsComplete.lookup (h : d.IsComplete package) {name : Bytes} (hm : MsgDef.ofInfo d.info name = .ok m)
    {e : EmbeddedText} (he : e ∈ d.embedded) :
    ∃ d', (BaseMsgDef.ofInfo (e.members.map fun p => p.item.info) e.name.unscoped).initializeFieldTypeDefinitions
        (MsgDef.embeddedDefinitions d.info) = .ok d' ∧ m.embeddedDefinitionMap.lookup e.name.unscoped = some d' := by
  obtain ⟨-, hloop⟩ := MsgDef.exists_of_ofInfo hm
  have hlookup : (MsgDef.embeddedDefinitions d.info).lookup e.name.unscoped =
      some (BaseMsgDef.ofInfo (e.members.map fun p => p.item.info) e.name.unscoped) := by
    rw [MsgDef.lookup_embeddedDefinitions, h.find_info he]
    rfl
  obtain ⟨d', hd', hlookup'⟩ := lookup_insertAll (MsgDef.embeddedDefinitions d.info).nodupKeys hloop
    (AList.mem_lookup_iff.1 hlookup)
  exact ⟨d', hd', hlookup'⟩

theorem IsComplete.stores (h : d.IsComplete package) {name : Bytes} (hm : MsgDef.ofInfo d.info name = .ok m) :
    d.Stores m := by
  intro e he
  obtain ⟨d', hinit, hlookup⟩ := h.lookup hm he
  have hinitialized := BaseMsgDef.initialized_of_eq_ok hinit
  exact ⟨d', hlookup, hinitialized.name, hinitialized.map_info⟩

theorem complete_info {ps : List Placed} (hps : ∀ p ∈ ps, p.item.Complete d.embedded package) {name : Bytes}
    (hscope : package.text ≠ bytes "std_msgs" →
      (BaseMsgDef.ofInfo (ps.map fun p => p.item.info) name).scope = package.text) :
    MsgDef.Complete d.info (ps.map fun p => p.item.info) name := by
  intro i hi f hf
  obtain ⟨p, hp, rfl⟩ := List.mem_map.1 hi
  have hcomplete := hps p hp
  cases hitem : p.item with
  | constant t k n before after v =>
    rw [hitem] at hf
    cases hf
  | field t a k n =>
    rw [hitem] at hf hcomplete
    cases hf
    refine resolvable_of_complete (t := t) rfl hscope (hcomplete.imp_right ?_)
    rintro ⟨e, he, htext⟩
    exact mem_definitions.2 ⟨e, he, TypeName.unscoped_congr htext⟩

/-- The schema of a complete text is made. -/
theorem IsComplete.exists_msgDef (h : d.IsComplete package) (name : Identifier) :
    ∃ m, MsgDef.ofInfo d.info (TypeName.path package name).text = .ok m := by
  apply MsgDef.ofInfo_ok
  · exact complete_info h.members (scopeOf_text _).1
  · intro i hi
    obtain ⟨e, he, rfl⟩ := List.mem_map.1 hi
    obtain ⟨p, n, hpath⟩ := h.qualified e he
    refine complete_info (h.embedded e he p n hpath) ?_
    show _ → (BaseMsgDef.ofInfo _ e.name.unscoped).scope = _
    rw [hpath]
    exact (scopeOf_unscoped _).1

/-- All fields point to the definitions they name exactly if none of these is shadowed. -/
theorem typesResolve_iff {text : Bytes} (name : Identifier) (hread : parseInfo text = .ok d.info)
    (h : d.IsComplete package) : d.Resolves text package name ↔ d.Unshadowed package := by
  obtain ⟨m, hm⟩ := h.exists_msgDef name
  have hparse : parseMsgDef text (TypeName.path package name).text = .ok m := by
    rw [parseMsgDef, hread]
    exact hm
  have hstores := h.stores hm
  obtain ⟨hbase, -⟩ := MsgDef.exists_of_ofInfo hm
  have hmembers := members_resolve_iff hstores h.qualified (scopeOf_text _) h.members rfl hbase
  have hembedded : ∀ e ∈ d.embedded, ∀ p n, e.name = .path p n → ∃ d',
      m.embeddedDefinitionMap.lookup e.name.unscoped = some d' ∧
      (List.Forall₂ (d.MemberResolves m p) e.members d'.members ↔
        ∀ q ∈ e.members, q.item.Unshadowed d.embedded p) := by
    intro e he p n hpath
    obtain ⟨d', hinit, hlookup⟩ := h.lookup hm he
    refine ⟨d', hlookup, ?_⟩
    have hscope : ScopeOf p (BaseMsgDef.ofInfo (e.members.map fun q => q.item.info) e.name.unscoped).scope := by
      rw [hpath]
      exact scopeOf_unscoped _
    exact members_resolve_iff hstores h.qualified hscope (h.embedded e he p n hpath) rfl hinit
  constructor
  · rintro ⟨m', hm', hall, hothers⟩
    rw [hparse, Except.ok.injEq] at hm'
    subst hm'
    refine ⟨hmembers.1 hall, fun e he p n hpath => ?_⟩
    obtain ⟨d', hlookup, hiff⟩ := hembedded e he p n hpath
    obtain ⟨d'', hlookup', hall'⟩ := hothers e he p n hpath
    rw [hlookup, Option.some.injEq] at hlookup'
    subst hlookup'
    exact hiff.1 hall'
  · rintro ⟨hall, hothers⟩
    refine ⟨m, hparse, hmembers.2 hall, fun e he p n hpath => ?_⟩
    obtain ⟨d', hlookup, hiff⟩ := hembedded e he p n hpath
    exact ⟨d', hlookup, hiff.2 (hothers e he p n hpath)⟩

end Schemas

section Samples

theorem isIdentifier_std_msgs : isIdentifier (bytes "std_msgs") := rfl

theorem isIdentifier_int32 : isIdentifier (bytes "int32") := rfl

def stdMsgs : Identifier := .of (bytes "std_msgs") isIdentifier_std_msgs

def stringType : Identifier := .of (bytes "String") rfl

def samplePackage : Identifier := .of (bytes "pkg") isIdentifier_pkg

def sampleField (type : TypeName) : Placed := { item := .field type .none 0 (.of (bytes "data") rfl), gap := [.newline] }

/-- `std_msgs/String data`, and another type of that name in the package `other`. -/
def sampleTypes (other : Identifier) : DefinitionText where
  lead := []
  members := [sampleField (.path stdMsgs stringType)]
  embedded := [
    { before := [], name := .path stdMsgs stringType, after := [],
      members := [sampleField (.name (.of (bytes "string") isIdentifier_string))] },
    { before := [], name := .path other stringType, after := [],
      members := [sampleField (.name (.of (bytes "int32") isIdentifier_int32))] }]
  lines := ⟨Or.inl ⟨_, List.mem_cons_self, nofun⟩, trivial⟩
  embeddedLines := ⟨⟨Or.inl ⟨_, List.mem_cons_self, nofun⟩, trivial⟩,
    ⟨Or.inl ⟨_, List.mem_cons_self, nofun⟩, trivial⟩, trivial⟩

theorem isComplete_sampleTypes {other : Identifier} (hother : other.text ≠ bytes "std_msgs") (package : Identifier) :
    (sampleTypes other).IsComplete package where
  qualified := by
    intro e he
    rcases List.mem_pair.1 he with rfl | rfl
    · exact ⟨_, _, rfl⟩
    · exact ⟨_, _, rfl⟩
  distinct := by
    refine List.nodup_cons.2 ⟨fun hmem => ?_, List.nodup_singleton _⟩
    have htext : (TypeName.path stdMsgs stringType).text = (TypeName.path other stringType).text :=
      List.mem_singleton.1 hmem
    rw [text_path, text_path, path_inj] at htext
    exact hother htext.1.symm
  members := by
    intro p hp
    obtain rfl := List.mem_singleton.1 hp
    exact .inr ⟨_, List.mem_cons_self, rfl⟩
  embedded := by
    intro e he p n hpath q hq
    rcases List.mem_pair.1 he with rfl | rfl
    · obtain rfl := List.mem_singleton.1 hq
      exact .inl rfl
    · obtain rfl := List.mem_singleton.1 hq
      exact .inl rfl

theorem typesResolve_iff_sample :
    (sampleTypes (.of (bytes "lib") rfl)).Resolves (sampleTypes (.of (bytes "lib") rfl)).text samplePackage
        (.of (bytes "Top") rfl) ↔
      (sampleTypes (.of (bytes "lib") rfl)).Unshadowed samplePackage :=
  typesResolve_iff _ (by decide +kernel) (isComplete_sampleTypes (by decide) _)

/-- The field of type `std_msgs/String` in the package `pkg` points to `pkg/String`. -/
theorem not_resolves_sample :
    (sampleTypes samplePackage).IsComplete samplePackage ∧
    parseInfo (sampleTypes samplePackage).text = .ok (sampleTypes samplePackage).info ∧
    (∃ m f d, parseMsgDef (sampleTypes samplePackage).text (bytes "pkg/Top") = .ok m ∧
      m.members = [.field f] ∧ m.typeDefinition f = .ok d ∧ d.name = bytes "pkg/String") ∧
    ¬ (sampleTypes samplePackage).Resolves (sampleTypes samplePackage).text samplePackage
      (.of (bytes "Top") rfl) := by
  have hread : parseInfo (sampleTypes samplePackage).text = .ok (sampleTypes samplePackage).info := by
    decide +kernel
  have hfound : ∃ m f d, parseMsgDef (sampleTypes samplePackage).text (bytes "pkg/Top") = .ok m ∧
      m.members = [.field f] ∧ m.typeDefinition f = .ok d ∧ d.name = bytes "pkg/String" := by
    rw [parseMsgDef, hread]
    exact ⟨_, _, _, rfl, rfl, rfl, rfl⟩
  refine ⟨isComplete_sampleTypes (by decide) _, hread, hfound, ?_⟩
  obtain ⟨m, f, d, hm, hmembers, htype, hname⟩ := hfound
  rintro ⟨m', hm', hall, -⟩
  have hm'' : parseMsgDef (sampleTypes samplePackage).text (bytes "pkg/Top") = .ok m' := hm'
  rw [hm, Except.ok.injEq] at hm''
  subst hm''
  rw [hmembers] at hall
  obtain ⟨hresolves, -⟩ := List.forall₂_cons.1 hall
  obtain ⟨f', hf', e, -, htext, d', hd', hname', -⟩ := hresolves (.path stdMsgs stringType) .none 0
    (.of (bytes "data") rfl) rfl id
  cases hf'
  rw [htype, Except.ok.injEq] at hd'
  subst hd'
  rw [TypeName.unscoped_congr htext, hname] at hname'
  exact absurd hname' (by decide)

end Samples

end DefinitionText

end Embag
