import Embag.Library.Loops
import Embag.RosMsgTypes

/-! A schema built from its syntax tree: what it holds, when building it throws, and
that every field of an object type then points to an embedded definition. -/

namespace Embag

open Loops

/-- The loop over the entries of one map that fills another. -/
def insertAll {V W : Type} (g : V → Except Fault W) (entries : List (Sigma fun _ : Bytes => V))
    (map : AList fun _ : Bytes => W) : Except Fault (AList fun _ : Bytes => W) :=
  entries.foldlM (fun map e => do return map.insert e.1 (← g e.2)) map

section InsertAll

variable {V W : Type} {g : V → Except Fault W} {e : Sigma fun _ : Bytes => V}
  {entries : List (Sigma fun _ : Bytes => V)} {map map' : AList fun _ : Bytes => W}

theorem insertAll_cons_of_ok {w : W} (h : g e.2 = .ok w) :
    insertAll g (e :: entries) map = insertAll g entries (map.insert e.1 w) := by
  rw [insertAll, List.foldlM_cons, h]
  rfl

theorem insertAll_cons_eq_ok (h : insertAll g (e :: entries) map = .ok map') :
    ∃ w, g e.2 = .ok w ∧ insertAll g entries (map.insert e.1 w) = .ok map' := by
  cases he : g e.2 with
  | error fault =>
    rw [insertAll, List.foldlM_cons, he] at h
    cases h
  | ok w => exact ⟨w, rfl, (insertAll_cons_of_ok he).symm.trans h⟩

theorem insertAll_ok (map : AList fun _ : Bytes => W) (h : ∀ e ∈ entries, ∃ w, g e.2 = .ok w) :
    ∃ map', insertAll g entries map = .ok map' := by
  induction entries generalizing map with
  | nil => exact ⟨map, rfl⟩
  | cons e entries ih =>
    rw [List.forall_mem_cons] at h
    obtain ⟨w, hw⟩ := h.1
    rw [insertAll_cons_of_ok hw]
    exact ih _ h.2

theorem lookup_insertAll_of_notMem (h : insertAll g entries map = .ok map') {k : Bytes}
    (hk : k ∉ entries.keys) : map'.lookup k = map.lookup k := by
  induction entries generalizing map with
  | nil =>
    cases h
    rfl
  | cons e entries ih =>
    obtain ⟨w, -, h⟩ := insertAll_cons_eq_ok h
    rw [List.keys_cons, List.mem_cons, not_or] at hk
    rw [ih h hk.2, AList.lookup_insert_ne hk.1]

theorem lookup_insertAll (hnd : entries.NodupKeys) (h : insertAll g entries map = .ok map')
    (he : e ∈ entries) : ∃ w, g e.2 = .ok w ∧ map'.lookup e.1 = some w := by
  induction entries generalizing map with
  | nil => cases he
  | cons e' entries ih =>
    obtain ⟨w, hw, h⟩ := insertAll_cons_eq_ok h
    rw [List.nodupKeys_cons] at hnd
    rcases List.mem_cons.1 he with rfl | he
    · exact ⟨w, hw, by rw [lookup_insertAll_of_notMem h hnd.1, AList.lookup_insert]⟩
    · exact ih hnd.2 h he

end InsertAll

def MemberDef.info : MemberDef → MemberInfo
  | field f => .field f.parsedInfo
  | constant c => .constant c

theorem MemberDef.info_ofInfo (i : MemberInfo) : (MemberDef.ofInfo i).info = i := by
  cases i <;> rfl

namespace FieldDef

def Resolvable (definitionMap : DefinitionMap) (scope : Bytes) (field : FieldDef) : Prop :=
  field.type = .object →
    field.typeName ∈ definitionMap ∨ scope ++ bytes "/" ++ field.typeName ∈ definitionMap

variable {definitionMap : DefinitionMap} {scope : Bytes} {field field' : FieldDef}

theorem setTypeDefinition_of_resolvable (hobj : field.type = .object)
    (h : field.Resolvable definitionMap scope) :
    ∃ field', field.setTypeDefinition definitionMap scope = .ok field' := by
  unfold setTypeDefinition foundDefinition
  rw [if_neg (not_not_intro hobj)]
  by_cases hscoped : scope ++ bytes "/" ++ field.typeName ∈ definitionMap
  · rw [if_pos hscoped]
    exact ⟨_, rfl⟩
  · rw [if_neg hscoped, if_pos ((h hobj).resolve_right hscoped)]
    exact ⟨_, rfl⟩

theorem mem_of_foundDefinition (hnone : field.typeDefinition = none) {key : Bytes}
    (h : field.foundDefinition definitionMap scope = some key) : key ∈ definitionMap := by
  unfold foundDefinition at h
  rw [hnone] at h
  by_cases hscoped : scope ++ bytes "/" ++ field.typeName ∈ definitionMap
  · rw [if_pos hscoped] at h
    cases h
    exact hscoped
  · rw [if_neg hscoped] at h
    by_cases hexact : field.typeName ∈ definitionMap
    · rw [if_pos hexact] at h
      cases h
      exact hexact
    · rw [if_neg hexact] at h
      cases h

theorem setTypeDefinition_eq_ok (hnone : field.typeDefinition = none)
    (h : field.setTypeDefinition definitionMap scope = .ok field') :
    ∃ key ∈ definitionMap, field' = { field with typeDefinition := some key } := by
  unfold setTypeDefinition at h
  split_ifs at h with hobj
  cases hkey : field.foundDefinition definitionMap scope with
  | none =>
    rw [hkey] at h
    cases h
  | some key =>
    rw [hkey] at h
    cases h
    exact ⟨key, mem_of_foundDefinition hnone hkey, rfl⟩

end FieldDef

structure MemberDef.Initialized (definitionMap : DefinitionMap) (m m' : MemberDef) : Prop where
  info : m'.info = m.info
  resolved : ∀ f, m' = .field f → f.type = .object →
    ∃ key ∈ definitionMap, f.typeDefinition = some key

structure BaseMsgDef.Initialized (definitionMap : DefinitionMap) (d d' : BaseMsgDef) : Prop where
  name : d'.name = d.name
  members : List.Forall₂ (MemberDef.Initialized definitionMap) d.members d'.members

namespace MemberDef

variable {definitionMap : DefinitionMap} {scope : Bytes} {i : MemberInfo} {m' : MemberDef}

def Resolvable (definitionMap : DefinitionMap) (scope : Bytes) (m : MemberDef) : Prop :=
  ∀ f, m = .field f → f.Resolvable definitionMap scope

theorem initializeType_ok {m : MemberDef} (h : m.Resolvable definitionMap scope) :
    ∃ m', m.initializeType definitionMap scope = .ok m' := by
  cases m with
  | constant c => exact ⟨_, rfl⟩
  | field f =>
    rw [initializeType]
    split_ifs with hobj
    · obtain ⟨f', hf'⟩ := f.setTypeDefinition_of_resolvable hobj (h f rfl)
      exact ⟨.field f', by rw [hf']; rfl⟩
    · exact ⟨_, rfl⟩

theorem initialized_of_eq_ok (h : (ofInfo i).initializeType definitionMap scope = .ok m') :
    Initialized definitionMap (ofInfo i) m' := by
  cases i with
  | constant c =>
    cases h
    exact ⟨rfl, fun f hf => nomatch hf⟩
  | field info =>
    rw [ofInfo, initializeType] at h
    split_ifs at h with hobj
    · cases hset : FieldDef.setTypeDefinition definitionMap scope { parsedInfo := info } with
      | error e =>
        rw [hset] at h
        cases h
      | ok f' =>
        rw [hset] at h
        cases h
        obtain ⟨key, hkey, rfl⟩ := FieldDef.setTypeDefinition_eq_ok rfl hset
        refine ⟨rfl, fun f hf _ => ?_⟩
        cases hf
        exact ⟨key, hkey, rfl⟩
    · cases h
      refine ⟨rfl, fun f hf hobj' => ?_⟩
      cases hf
      exact absurd hobj' hobj

end MemberDef

namespace BaseMsgDef

variable {definitionMap : DefinitionMap} {d' : BaseMsgDef}

theorem initializeFieldTypeDefinitions_ok {d : BaseMsgDef}
    (h : ∀ m ∈ d.members, m.Resolvable definitionMap d.scope) :
    ∃ d', d.initializeFieldTypeDefinitions definitionMap = .ok d' := by
  obtain ⟨members, hmembers⟩ := mapM_ok fun m hm => (MemberDef.initializeType_ok (h m hm))
  exact ⟨{ d with members := members }, by rw [initializeFieldTypeDefinitions, hmembers]; rfl⟩

theorem initialized_of_eq_ok {members : List MemberInfo} {name : Bytes}
    (h : (ofInfo members name).initializeFieldTypeDefinitions definitionMap = .ok d') :
    Initialized definitionMap (ofInfo members name) d' := by
  rw [initializeFieldTypeDefinitions] at h
  cases hloop : (ofInfo members name).members.mapM
      (MemberDef.initializeType definitionMap (ofInfo members name).scope) with
  | error e =>
    rw [hloop] at h
    cases h
  | ok members' =>
    rw [hloop] at h
    cases h
    have hsteps := forall₂_of_mapM_ok hloop
    rw [ofInfo, List.forall₂_map_left_iff] at hsteps
    refine ⟨rfl, ?_⟩
    rw [ofInfo, List.forall₂_map_left_iff]
    exact hsteps.imp fun i m' h => MemberDef.initialized_of_eq_ok h

theorem Initialized.map_info {members : List MemberInfo} {name : Bytes}
    (h : Initialized definitionMap (ofInfo members name) d') :
    d'.members.map MemberDef.info = members := by
  obtain ⟨-, hall⟩ := h
  rw [ofInfo, List.forall₂_map_left_iff] at hall
  generalize d'.members = members' at hall
  induction hall with
  | nil => rfl
  | cons hm _ ih => rw [List.map_cons, hm.info, MemberDef.info_ofInfo, ih]

theorem Initialized.typeDefinition {d : BaseMsgDef} (h : Initialized definitionMap d d')
    {f : FieldDef} (hf : f ∈ d'.fields) (hobj : f.type = .object) :
    ∃ key ∈ definitionMap, f.typeDefinition = some key := by
  obtain ⟨m', hm', hfield⟩ := List.mem_filterMap.1 hf
  obtain ⟨m, -, hinit⟩ := forall₂_mem_right h.members hm'
  cases m' with
  | constant c => cases hfield
  | field g =>
    cases hfield
    exact hinit.resolved f rfl hobj

end BaseMsgDef

theorem lookup_foldl_emplace {V : Type} (es : List EmbeddedInfo) (value : EmbeddedInfo → V)
    (map : AList fun _ : Bytes => V) (key : Bytes) :
    (es.foldl (fun map e => emplace map e.typeName (value e)) map).lookup key =
      (map.lookup key).or ((es.find? fun e => e.typeName = key).map value) := by
  induction es generalizing map with
  | nil => simp
  | cons e es ih =>
    rw [List.foldl_cons, ih, List.find?_cons]
    by_cases hkey : e.typeName = key
    · subst hkey
      by_cases hmem : e.typeName ∈ map
      · obtain ⟨v, hv⟩ := Option.isSome_iff_exists.1 (AList.lookup_isSome.2 hmem)
        simp [emplace, hmem, hv]
      · simp [lookup_emplace_self hmem, AList.lookup_eq_none.2 hmem]
    · simp [lookup_emplace_ne (Ne.symm hkey), hkey]

namespace MsgDef

variable {info : MsgDefInfo} {name : Bytes} {m : MsgDef}

theorem lookup_embeddedDefinitions (info : MsgDefInfo) (key : Bytes) :
    (embeddedDefinitions info).lookup key =
      (info.embeddedDefinitions.find? fun e => e.typeName = key).map
        fun e => .ofInfo e.members e.typeName := by
  rw [embeddedDefinitions, lookup_foldl_emplace]
  simp

theorem mem_embeddedDefinitions {key : Bytes} :
    key ∈ embeddedDefinitions info ↔ ∃ e ∈ info.embeddedDefinitions, e.typeName = key := by
  rw [← AList.lookup_isSome, lookup_embeddedDefinitions, Option.isSome_map, List.find?_isSome]
  simp

/-- The schema holds what its syntax tree says, an embedded definition under its name or
the first one of that name, and its object fields point to embedded definitions. -/
structure BuiltFrom (m : MsgDef) (info : MsgDefInfo) (name : Bytes) : Prop where
  name : m.name = name
  members : m.members.map MemberDef.info = info.members
  embedded : ∀ key, (m.embeddedDefinitionMap.lookup key).map (fun d => d.members.map MemberDef.info) =
    (info.embeddedDefinitions.find? fun e => e.typeName = key).map EmbeddedInfo.members
  resolved : m.Resolved

/-- The types of the fields of a definition of this name are embedded. -/
def Complete (info : MsgDefInfo) (members : List MemberInfo) (name : Bytes) : Prop :=
  ∀ m ∈ members, (MemberDef.ofInfo m).Resolvable (embeddedDefinitions info)
    (BaseMsgDef.ofInfo members name).scope

theorem BaseMsgDef.ofInfo_ok {members : List MemberInfo} (h : Complete info members name) :
    ∃ d, (BaseMsgDef.ofInfo members name).initializeFieldTypeDefinitions
      (embeddedDefinitions info) = .ok d := by
  refine BaseMsgDef.initializeFieldTypeDefinitions_ok fun m hm => ?_
  obtain ⟨i, hi, rfl⟩ := List.mem_map.1 hm
  exact h i hi

theorem ofInfo_ok (hmembers : Complete info info.members name)
    (hembedded : ∀ e ∈ info.embeddedDefinitions, Complete info e.members e.typeName) :
    ∃ m, ofInfo info name = .ok m := by
  obtain ⟨base, hbase⟩ := BaseMsgDef.ofInfo_ok hmembers
  have hentries : ∀ e ∈ (embeddedDefinitions info).entries, ∃ d,
      e.2.initializeFieldTypeDefinitions (embeddedDefinitions info) = .ok d := by
    intro e he
    have hlookup := AList.mem_lookup_iff.2 he
    rw [Option.mem_def, lookup_embeddedDefinitions, Option.map_eq_some_iff] at hlookup
    obtain ⟨e', he', heq⟩ := hlookup
    rw [← heq]
    exact BaseMsgDef.ofInfo_ok (hembedded e' (List.mem_of_find?_eq_some he'))
  obtain ⟨map, hmap⟩ := insertAll_ok ∅ hentries
  refine ⟨{ base with embeddedDefinitionMap := map }, ?_⟩
  have hloop : (embeddedDefinitions info).entries.foldlM (fun map e => do
      return map.insert e.1 (← e.2.initializeFieldTypeDefinitions (embeddedDefinitions info)))
      (∅ : DefinitionMap) = .ok map := hmap
  rw [ofInfo, hbase, ok_bind, hloop]
  rfl

theorem lookup_initialized {map : DefinitionMap}
    (h : insertAll (fun d => d.initializeFieldTypeDefinitions (embeddedDefinitions info))
      (embeddedDefinitions info).entries ∅ = .ok map) (key : Bytes) :
    (∃ e d, info.embeddedDefinitions.find? (fun e => e.typeName = key) = some e ∧
        map.lookup key = some d ∧
        BaseMsgDef.Initialized (embeddedDefinitions info) (.ofInfo e.members e.typeName) d) ∨
      info.embeddedDefinitions.find? (fun e => e.typeName = key) = none ∧
        map.lookup key = none := by
  have hkey := lookup_embeddedDefinitions info key
  cases hfind : info.embeddedDefinitions.find? fun e => e.typeName = key with
  | none =>
    rw [hfind, Option.map_none, AList.lookup_eq_none] at hkey
    refine Or.inr ⟨rfl, ?_⟩
    rw [lookup_insertAll_of_notMem h hkey, AList.lookup_empty]
  | some e =>
    rw [hfind, Option.map_some] at hkey
    obtain ⟨d, hd, hlookup⟩ := lookup_insertAll (embeddedDefinitions info).nodupKeys h
      (AList.mem_lookup_iff.1 hkey)
    exact Or.inl ⟨e, d, rfl, hlookup, BaseMsgDef.initialized_of_eq_ok hd⟩

theorem exists_of_ofInfo (h : ofInfo info name = .ok m) :
    (BaseMsgDef.ofInfo info.members name).initializeFieldTypeDefinitions
        (embeddedDefinitions info) = .ok m.toBaseMsgDef ∧
      insertAll (fun d => d.initializeFieldTypeDefinitions (embeddedDefinitions info))
        (embeddedDefinitions info).entries ∅ = .ok m.embeddedDefinitionMap := by
  rw [ofInfo] at h
  cases hbase : (BaseMsgDef.ofInfo info.members name).initializeFieldTypeDefinitions
      (embeddedDefinitions info) with
  | error e =>
    rw [hbase] at h
    cases h
  | ok base =>
    rw [hbase, ok_bind] at h
    unfold insertAll
    cases hloop : (embeddedDefinitions info).entries.foldlM (fun map e => do
        return map.insert e.1 (← e.2.initializeFieldTypeDefinitions (embeddedDefinitions info)))
        (∅ : DefinitionMap) with
    | error e =>
      rw [hloop] at h
      cases h
    | ok map =>
      rw [hloop] at h
      cases h
      exact ⟨rfl, rfl⟩

/-- A schema that is built holds what its syntax tree says. -/
theorem builtFrom_of_ofInfo (h : ofInfo info name = .ok m) : m.BuiltFrom info name := by
  obtain ⟨hbase, hloop⟩ := exists_of_ofInfo h
  have hinit := BaseMsgDef.initialized_of_eq_ok hbase
  have hlookup := lookup_initialized hloop
  refine ⟨hinit.name, hinit.map_info, fun key => ?_, fun d hd f hf hobj => ?_⟩
  · rcases hlookup key with ⟨e, d, hfind, hd, hinit⟩ | ⟨hfind, hd⟩
    · rw [hfind, hd, Option.map_some, Option.map_some, hinit.map_info]
    · rw [hfind, hd]
      rfl
  · have hkey : ∃ key ∈ embeddedDefinitions info, f.typeDefinition = some key := by
      rcases hd with rfl | ⟨key, hd⟩
      · exact hinit.typeDefinition hf hobj
      · rcases hlookup key with ⟨e, d', -, hd', hinit⟩ | ⟨-, hnone⟩
        · rw [hd] at hd'
          cases hd'
          exact hinit.typeDefinition hf hobj
        · rw [hd] at hnone
          cases hnone
    obtain ⟨key, hmem, htype⟩ := hkey
    obtain ⟨e, he, hname⟩ := mem_embeddedDefinitions.1 hmem
    rcases hlookup key with ⟨-, d', -, hd', -⟩ | ⟨hnone, -⟩
    · refine ⟨d', ?_⟩
      unfold MsgDef.typeDefinition
      rw [if_neg (not_not_intro hobj), htype, Option.bind_some, hd']
    · exact absurd (List.find?_eq_none.1 hnone e he) (by simp [hname])

end MsgDef

end Embag
