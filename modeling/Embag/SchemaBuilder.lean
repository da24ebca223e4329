import Embag.MessageCycles
import Embag.View

/-! The schema that Python is given for a topic: one dictionary for each field, nested as the
definitions are. It is built unless a definition leads back to itself. -/

namespace Embag

open Loops Outcomes Relation

/-- A string, or a dictionary in the order its keys were first set. -/
inductive PySchema where
  | str (s : Bytes)
  | dict (items : List (Bytes × PySchema))

/-- `items[key] = value` -/
def setItem {V : Type} : List (Bytes × V) → Bytes → V → List (Bytes × V)
  | [], key, value => [(key, value)]
  | item :: items, key, value =>
    if item.1 = key then (key, value) :: items else item :: setItem items key value

/-- `c_str()`, as a `const char *` is read: what stands before the first zero byte -/
def cStr (s : Bytes) : Bytes := s.takeWhile (· != 0)

def PySchema.item (key : Bytes) : PySchema → Option PySchema
  | str _ => none
  | dict items => items.lookup key

theorem setItem_of_notMem {V : Type} {items : List (Bytes × V)} {key : Bytes} (value : V)
    (h : key ∉ items.map Prod.fst) : setItem items key value = items ++ [(key, value)] := by
  induction items with
  | nil => rfl
  | cons item items ih =>
    rw [List.map_cons, List.mem_cons, not_or] at h
    rw [setItem, if_neg (Ne.symm h.1), ih h.2, List.cons_append]

theorem mem_keys_setItem {V : Type} {items : List (Bytes × V)} {key k : Bytes} {value : V}
    (h : k ∈ (setItem items key value).map Prod.fst) : k = key ∨ k ∈ items.map Prod.fst := by
  induction items with
  | nil => exact .inl (List.mem_singleton.1 h)
  | cons item items ih =>
    rw [setItem] at h
    rw [List.map_cons, List.mem_cons]
    split_ifs at h with hkey
    · rw [List.map_cons, List.mem_cons] at h
      exact h.imp_right .inr
    · rw [List.map_cons, List.mem_cons] at h
      rcases h with h | h
      · exact .inr (.inl h)
      · exact (ih h).imp_right .inr

theorem cStr_of_notMem {s : Bytes} (h : 0 ∉ s) : cStr s = s := by
  rw [cStr, List.takeWhile_eq_self_iff]
  intro c hc
  rw [bne_iff_ne]
  rintro rfl
  exact h hc

theorem notMem_cStr (s : Bytes) : 0 ∉ cStr s := by
  intro h
  have := List.mem_takeWhile_imp h
  simp at this

namespace SchemaBuilder

section Members

variable (schemaForField : FieldDef → Except Fault PySchema)

/-- `children[field.name().c_str()] = schemaForField(field)` -/
def setField (children : List (Bytes × PySchema)) (field : FieldDef) :
    Except Fault (List (Bytes × PySchema)) := do
  return setItem children (cStr field.name) (← schemaForField field)

def setMember (children : List (Bytes × PySchema)) : MemberDef → Except Fault (List (Bytes × PySchema))
  | .field field => setField schemaForField children field
  | .constant _ => return children

/-- The loop over the members of a definition that fills its dictionary. -/
def schemaForMembers (members : List MemberDef) : Except Fault (List (Bytes × PySchema)) :=
  members.foldlM (setMember schemaForField) []

end Members

/-- `SchemaBuilder::schemaForField`; `fuel` bounds how deep definitions are nested. -/
def schemaForField (m : MsgDef) : ℕ → FieldDef → Except Fault PySchema
  | 0, _ => .error .outOfFuel
  | fuel + 1, field => do
    -- Not an array
    if field.arraySize = 0 then
      if (primitiveTypeMap.lookup field.typeName).isSome then
        return .dict [(bytes "type", .str field.typeName)]
      else
        let children ← schemaForMembers (schemaForField m fuel) (← m.typeDefinition field).members
        return .dict [(bytes "type", .str (bytes "object")), (bytes "children", .dict children)]
    else if (primitiveTypeMap.lookup field.typeName).isSome then
      return .dict [(bytes "member_type", .str field.typeName), (bytes "type", .str (bytes "array"))]
    else
      let children ← schemaForMembers (schemaForField m fuel) (← m.typeDefinition field).members
      return .dict [(bytes "children", .dict children), (bytes "type", .str (bytes "array"))]

/-- `SchemaBuilder::generateSchema`, with the bag it leaves behind -/
def generateSchema (leftFirst : Bool) (bag : Bag) (topic : Bytes) (fuel : ℕ) :
    Bag × Except Fault (List (Bytes × PySchema)) :=
  if !bag.topicInBag topic then (bag, .error (.runtimeError (topic ++ bytes " not found in bag!")))
  else
    let (bag, msgDef) := bag.msgDefForTopic leftFirst topic
    match msgDef with
    | .error e => (bag, .error e)
    | .ok none => (bag, .error .undefined)
    | .ok (some m) =>
      let (bag, _) := bag.connectionsForTopic topic
      (bag, schemaForMembers (schemaForField m fuel) m.members)

variable {m : MsgDef} {f : FieldDef} {fuel : ℕ}

theorem schemaForMembers_eq (g : FieldDef → Except Fault PySchema) (d : BaseMsgDef) :
    schemaForMembers g d.members = d.fields.foldlM (setField g) [] := by
  have hloop : ∀ (members : List MemberDef) (children : List (Bytes × PySchema)),
      members.foldlM (setMember g) children =
        (members.filterMap MemberDef.field?).foldlM (setField g) children := by
    intro members
    induction members with
    | nil => exact fun children => rfl
    | cons member members ih =>
      intro children
      cases member with
      | constant c =>
        rw [List.foldlM_cons, List.filterMap_cons_none (by rfl)]
        exact ih children
      | field field =>
        rw [List.foldlM_cons, List.filterMap_cons_some (by rfl), List.foldlM_cons, setMember]
        cases setField g children field with
        | error e => rfl
        | ok children => exact ih children
  exact hloop d.members []

def IsEntry (g : FieldDef → Except Fault PySchema) (field : FieldDef) (item : Bytes × PySchema) : Prop :=
  item.1 = field.name ∧ g field = .ok item.2

section Entries

variable {g : FieldDef → Except Fault PySchema} {fields : List FieldDef}
  {children children' : List (Bytes × PySchema)}

theorem setField_of_ok {f : FieldDef} {s : PySchema} (h : g f = .ok s) :
    setField g children f = .ok (setItem children (cStr f.name) s) := by
  rw [setField, h]
  rfl

theorem forall₂_of_foldlM (hnul : ∀ f ∈ fields, 0 ∉ f.name) (hnd : (fields.map FieldDef.name).Nodup)
    (hnew : ∀ f ∈ fields, f.name ∉ children.map Prod.fst)
    (h : fields.foldlM (setField g) children = .ok children') :
    ∃ items, children' = children ++ items ∧ List.Forall₂ (IsEntry g) fields items := by
  induction fields generalizing children with
  | nil =>
    cases h
    exact ⟨[], (List.append_nil _).symm, .nil⟩
  | cons f fields ih =>
    rw [List.forall_mem_cons] at hnul hnew
    rw [List.map_cons, List.nodup_cons] at hnd
    cases hs : g f with
    | error e =>
      rw [List.foldlM_cons, setField, hs] at h
      cases h
    | ok s =>
      rw [List.foldlM_cons, setField_of_ok hs, ok_bind, cStr_of_notMem hnul.1, setItem_of_notMem s hnew.1] at h
      have hnew' : ∀ f' ∈ fields, f'.name ∉ (children ++ [(f.name, s)]).map Prod.fst := by
        intro f' hf' hmem
        rw [List.map_append, List.mem_append, List.map_singleton, List.mem_singleton] at hmem
        rcases hmem with hmem | heq
        · exact hnew.2 f' hf' hmem
        · exact hnd.1 (List.mem_map.2 ⟨f', hf', heq⟩)
      obtain ⟨items, rfl, hitems⟩ := ih hnul.2 hnd.2 hnew' h
      exact ⟨(f.name, s) :: items, by simp, .cons ⟨rfl, hs⟩ hitems⟩

theorem keys_of_foldlM (hkeys : ∀ key ∈ children.map Prod.fst, 0 ∉ key)
    (h : fields.foldlM (setField g) children = .ok children') :
    ∀ key ∈ children'.map Prod.fst, 0 ∉ key := by
  induction fields generalizing children with
  | nil =>
    cases h
    exact hkeys
  | cons f fields ih =>
    cases hs : g f with
    | error e =>
      rw [List.foldlM_cons, setField, hs] at h
      cases h
    | ok s =>
      rw [List.foldlM_cons, setField_of_ok hs, ok_bind] at h
      apply ih _ h
      intro key hkey
      rcases mem_keys_setItem hkey with rfl | hkey
      · exact notMem_cStr f.name
      · exact hkeys key hkey

theorem foldlM_ok (h : ∀ f ∈ fields, ∃ s, g f = .ok s) (children : List (Bytes × PySchema)) :
    ∃ children', fields.foldlM (setField g) children = .ok children' := by
  induction fields generalizing children with
  | nil => exact ⟨children, rfl⟩
  | cons f fields ih =>
    rw [List.forall_mem_cons] at h
    obtain ⟨s, hs⟩ := h.1
    rw [List.foldlM_cons, setField_of_ok hs, ok_bind]
    exact ih h.2 (setItem children (cStr f.name) s)

end Entries

section Keys

variable {g : FieldDef → Except Fault PySchema} {d : BaseMsgDef} {children : List (Bytes × PySchema)}

theorem forall₂_entries (hnd : (d.fields.map FieldDef.name).Nodup)
    (h : schemaForMembers g d.members = .ok children) (hnul : ∀ f ∈ d.fields, 0 ∉ f.name) :
    List.Forall₂ (IsEntry g) d.fields children := by
  rw [schemaForMembers_eq] at h
  obtain ⟨items, rfl, hitems⟩ := forall₂_of_foldlM hnul hnd (fun f _ => List.not_mem_nil) h
  exact hitems

theorem keys_iff (hnd : (d.fields.map FieldDef.name).Nodup)
    (h : schemaForMembers g d.members = .ok children) :
    children.map Prod.fst = d.fields.map FieldDef.name ↔ ∀ f ∈ d.fields, 0 ∉ f.name := by
  constructor
  · intro hkeys f hf
    rw [schemaForMembers_eq] at h
    apply keys_of_foldlM (fun key hkey => absurd hkey List.not_mem_nil) h
    rw [hkeys]
    exact List.mem_map_of_mem hf
  · intro hnul
    have hitems := forall₂_entries hnd h hnul
    generalize d.fields = fields at hitems
    clear hnul hnd h
    induction hitems with
    | nil => rfl
    | cons hentry _ ih => rw [List.map_cons, List.map_cons, hentry.1, ih]

theorem exists_entry (hnd : (d.fields.map FieldDef.name).Nodup)
    (h : schemaForMembers g d.members = .ok children) (hnul : ∀ f ∈ d.fields, 0 ∉ f.name)
    {f : FieldDef} (hf : f ∈ d.fields) : ∃ s, (f.name, s) ∈ children ∧ g f = .ok s := by
  obtain ⟨item, hitem, hname, hs⟩ := forall₂_mem_right (forall₂_entries hnd h hnul).flip hf
  exact ⟨item.2, by rwa [← hname], hs⟩

theorem eq_ok_of_mem_children (hnd : (d.fields.map FieldDef.name).Nodup)
    (h : schemaForMembers g d.members = .ok children) (hnul : ∀ f ∈ d.fields, 0 ∉ f.name)
    {f : FieldDef} (hf : f ∈ d.fields) {s : PySchema} (hs : (f.name, s) ∈ children) : g f = .ok s := by
  obtain ⟨f', hf', hname, hs⟩ := forall₂_mem_right (forall₂_entries hnd h hnul) hs
  obtain rfl := List.inj_on_of_nodup_map hnd hf hf' hname
  exact hs

end Keys

theorem lookup_of_type_ne {f : FieldDef} (h : f.type ≠ .object) :
    primitiveTypeMap.lookup f.typeName = some f.type := by
  obtain ⟨type, htype⟩ := Option.isSome_iff_exists.1 (f.lookup_isSome_iff.2 h)
  rw [FieldDef.type, htype, Option.getD_some]

theorem schemaForField_primitive (hsize : f.arraySize = 0) (htype : f.type ≠ .object) :
    schemaForField m (fuel + 1) f = .ok (.dict [(bytes "type", .str f.typeName)]) := by
  rw [schemaForField, if_pos hsize, if_pos (f.lookup_isSome_iff.2 htype)]
  rfl

theorem schemaForField_primitives (hsize : f.arraySize ≠ 0) (htype : f.type ≠ .object) :
    schemaForField m (fuel + 1) f =
      .ok (.dict [(bytes "member_type", .str f.typeName), (bytes "type", .str (bytes "array"))]) := by
  rw [schemaForField, if_neg hsize, if_pos (f.lookup_isSome_iff.2 htype)]
  rfl

theorem schemaForField_object {d : BaseMsgDef} (hsize : f.arraySize = 0) (hd : m.typeDefinition f = .ok d) :
    schemaForField m (fuel + 1) f = (schemaForMembers (schemaForField m fuel) d.members).map fun children =>
      .dict [(bytes "type", .str (bytes "object")), (bytes "children", .dict children)] := by
  have hobj := MessageParser.type_of_typeDefinition hd
  rw [schemaForField, if_pos hsize, if_neg fun h => f.lookup_isSome_iff.1 h hobj, hd, ok_bind]
  rfl

theorem schemaForField_objects {d : BaseMsgDef} (hsize : f.arraySize ≠ 0) (hd : m.typeDefinition f = .ok d) :
    schemaForField m (fuel + 1) f = (schemaForMembers (schemaForField m fuel) d.members).map fun children =>
      .dict [(bytes "children", .dict children), (bytes "type", .str (bytes "array"))] := by
  have hobj := MessageParser.type_of_typeDefinition hd
  rw [schemaForField, if_neg hsize, if_neg fun h => f.lookup_isSome_iff.1 h hobj, hd, ok_bind]
  rfl

def Enters (m : MsgDef) (d e : BaseMsgDef) : Prop := ∃ f ∈ d.fields, m.typeDefinition f = .ok e

/-- No definition leads back to itself. -/
def NonRecursive (m : MsgDef) : Prop := ∀ d, m.Has d → ¬ TransGen (Enters m) d d

theorem wellFounded_enters (h : NonRecursive m) :
    WellFounded fun e d : {d // m.Has d} => TransGen (Enters m) d.1 e.1 := by
  have hfinite : Finite {d // m.Has d} := (finite_has m).to_subtype
  have htrans : IsTrans {d // m.Has d} fun e d => TransGen (Enters m) d.1 e.1 :=
    ⟨fun a b c hab hbc => TransGen.trans hbc hab⟩
  have hirrefl : Std.Irrefl fun e d : {d // m.Has d} => TransGen (Enters m) d.1 e.1 :=
    ⟨fun a ha => h a.1 a.2 ha⟩
  exact Finite.wellFounded_of_trans_of_irrefl _

theorem schemaForField_ok (hf : Typed m f)
    (hparts : ∀ e, m.typeDefinition f = .ok e → ∃ children,
      schemaForMembers (schemaForField m fuel) e.members = .ok children) :
    ∃ s, schemaForField m (fuel + 1) f = .ok s := by
  by_cases hobj : f.type = .object
  · obtain ⟨e, he⟩ := hf hobj
    obtain ⟨children, hchildren⟩ := hparts e he
    by_cases hsize : f.arraySize = 0
    · rw [schemaForField_object hsize he, hchildren]
      exact ⟨_, rfl⟩
    · rw [schemaForField_objects hsize he, hchildren]
      exact ⟨_, rfl⟩
  · by_cases hsize : f.arraySize = 0
    · exact ⟨_, schemaForField_primitive hsize hobj⟩
    · exact ⟨_, schemaForField_primitives hsize hobj⟩

/-- The dictionaries are built in the end: the induction is on what a definition leads to. -/
theorem schemaForMembers_ok (hresolved : m.Resolved) (h : NonRecursive m) (d : {d // m.Has d}) :
    ∃ bound, ∀ fuel ≥ bound, ∃ children,
      schemaForMembers (schemaForField m fuel) d.1.members = .ok children := by
  induction d using (wellFounded_enters h).induction with
  | _ d ih =>
  have htyped := d.2.typed hresolved
  have hfields : ∀ f ∈ {f | f ∈ d.1.fields}, ∃ bound, ∀ fuel ≥ bound, ∃ s, schemaForField m fuel f = .ok s := by
    intro f hf
    rcases hdefinition : m.typeDefinition f with e | e
    · refine ⟨1, fun fuel hfuel => ?_⟩
      obtain ⟨k, rfl⟩ : ∃ k, fuel = k + 1 := ⟨fuel - 1, by omega⟩
      refine schemaForField_ok (htyped f hf) fun e' he' => ?_
      rw [hdefinition] at he'
      cases he'
    · obtain ⟨bound, hbound⟩ := ih ⟨e, MsgDef.has_of_typeDefinition hdefinition⟩
        (TransGen.single ⟨f, hf, hdefinition⟩)
      refine ⟨bound + 1, fun fuel hfuel => ?_⟩
      obtain ⟨k, rfl⟩ : ∃ k, fuel = k + 1 := ⟨fuel - 1, by omega⟩
      refine schemaForField_ok (htyped f hf) fun e' he' => ?_
      rw [hdefinition] at he'
      cases he'
      exact hbound k (by omega)
  obtain ⟨bound, hbound⟩ := exists_bound (List.finite_toSet d.1.fields) hfields
  refine ⟨bound, fun fuel hfuel => ?_⟩
  rw [schemaForMembers_eq]
  exact foldlM_ok (hbound fuel hfuel) []

end SchemaBuilder

end Embag
