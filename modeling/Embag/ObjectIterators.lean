import Embag.ArrayBlobs
import Embag.MessageCycles
import Embag.ShapeFields

/-! Iteration over an object: its keys and its pairs come in the order of a hash map, its values in
the order of the definition. -/

namespace Embag

open Loops Outcomes

namespace RosValue

/-- What a loop from `beginItems()` to `endItems()` comes to, where the map is iterated in this
order and `deref` is the iterator's `operator*`. -/
def iterateItems {α : Type} (deref : RosValueList → Bytes × ℕ → Except Fault α)
    (order : List (Bytes × ℕ)) : RosValue → Except Fault (List α)
  | object children _ => order.mapM (deref children)
  | _ => .error (.runtimeError
      (bytes "Cannot iterate over the items of a RosValue that is not an object"))

def iterateKeys (order : List (Bytes × ℕ)) (v : RosValue) : Except Fault (List Bytes) :=
  v.iterateItems (fun _ field => .ok field.1) order

/-- `operator*` that returns the pair of `index_->first` and the child at `index_->second` -/
def iteratePairs (order : List (Bytes × ℕ)) (v : RosValue) : Except Fault (List (Bytes × Pointer)) :=
  v.iterateItems (fun children field => do return (field.1, ← children.at field.2)) order

/-- A possible iteration order of the field-index map of an object. -/
def MayIterate (v : RosValue) (order : List (Bytes × ℕ)) : Prop :=
  ∃ children fieldIndexes, v = object children fieldIndexes ∧
    order.Perm (fieldIndexes.entries.map fun entry => (entry.1, entry.2))

/-- An object as the parser leaves one of this definition. -/
def IsObjectOf (v : RosValue) (d : BaseMsgDef) : Prop :=
  ∃ c, v = object ⟨c, d.fields.length⟩ d.fieldIndexes

end RosValue

/-- The three iterations end, their `i`-th results belong to one field, and the pairs are those of
the names and what `get` returns for them. -/
def Corresponds (v : RosValue) (order : List (Bytes × ℕ)) : Prop :=
  ∃ keys values pairs, v.iterateKeys order = .ok keys ∧ v.iterateValues = .ok values ∧
    v.iteratePairs order = .ok pairs ∧
    keys.length = pairs.length ∧ values.length = pairs.length ∧
    (∀ (i : ℕ) key q pair, keys[i]? = some key → values[i]? = some q → pairs[i]? = some pair →
      v.get key = .ok q ∧ pair = (key, q)) ∧
    pairs.Nodup ∧ ∀ name q, (name, q) ∈ pairs ↔ v.get name = .ok q

namespace BaseMsgDef

variable {d : BaseMsgDef}

def namedFields (d : BaseMsgDef) : List (Bytes × ℕ) := d.fields.zipIdx.map fun e => (e.1.name, e.2)

theorem length_namedFields (d : BaseMsgDef) : d.namedFields.length = d.fields.length := by
  rw [namedFields, List.length_map, List.length_zipIdx]

theorem getElem_namedFields {i : ℕ} (hi : i < d.fields.length) :
    d.namedFields[i]? = some (d.fields[i].name, i) := by
  simp [namedFields, hi]

theorem mem_namedFields {name : Bytes} {i : ℕ} :
    (name, i) ∈ d.namedFields ↔ ∃ hi : i < d.fields.length, d.fields[i].name = name := by
  constructor
  · intro h
    obtain ⟨j, hj⟩ := List.mem_iff_getElem?.1 h
    have hlt : j < d.fields.length := by
      rw [← length_namedFields]
      exact (List.getElem?_eq_some_iff.1 hj).1
    rw [getElem_namedFields hlt] at hj
    cases hj
    exact ⟨hlt, rfl⟩
  · rintro ⟨hi, rfl⟩
    exact List.mem_of_getElem? (getElem_namedFields hi)

theorem mem_entries_fieldIndexes (hnd : (d.fields.map FieldDef.name).Nodup) {name : Bytes} {i : ℕ} :
    (⟨name, i⟩ : Sigma fun _ : Bytes => ℕ) ∈ d.fieldIndexes.entries ↔ (name, i) ∈ d.namedFields := by
  rw [← AList.mem_lookup_iff, Option.mem_def, mem_namedFields]
  constructor
  · intro h
    by_cases hname : name ∈ d.fields.map FieldDef.name
    · obtain ⟨j, hj, rfl⟩ := List.mem_iff_getElem.1 hname
      rw [List.length_map] at hj
      rw [List.getElem_map, lookup_fieldIndexes hnd hj] at h
      cases h
      exact ⟨hj, by rw [List.getElem_map]⟩
    · rw [fieldIndexes, lookup_emplace_zipIdx_of_notMem _ _ _ hname, AList.lookup_empty] at h
      cases h
  · rintro ⟨hi, rfl⟩
    exact lookup_fieldIndexes hnd hi

theorem nodup_namedFields (d : BaseMsgDef) : d.namedFields.Nodup := by
  apply List.Nodup.of_map Prod.snd
  rw [namedFields, List.map_map]
  exact List.zipIdx_map_snd 0 d.fields ▸ List.nodup_range'

theorem perm_namedFields (hnd : (d.fields.map FieldDef.name).Nodup) :
    (d.fieldIndexes.entries.map fun entry => (entry.1, entry.2)).Perm d.namedFields := by
  have hinj : Function.Injective fun entry : Sigma fun _ : Bytes => ℕ => (entry.1, entry.2) := by
    rintro ⟨a, i⟩ ⟨b, j⟩ h
    simpa using h
  rw [List.perm_ext_iff_of_nodup (d.fieldIndexes.nodupKeys.nodup.map hinj) d.nodup_namedFields]
  rintro ⟨name, i⟩
  rw [← mem_entries_fieldIndexes hnd, List.mem_map]
  constructor
  · rintro ⟨⟨name', i'⟩, hmem, heq⟩
    cases heq
    exact hmem
  · exact fun hmem => ⟨_, hmem, rfl⟩

end BaseMsgDef

section Loops

variable {v : RosValue} {d : BaseMsgDef} {c : ℕ} {order : List (Bytes × ℕ)}

theorem RosValue.iterateKeys_object (children : RosValueList) (fieldIndexes : FieldIndexes)
    (order : List (Bytes × ℕ)) :
    (RosValue.object children fieldIndexes).iterateKeys order = .ok (order.map Prod.fst) :=
  mapM_eq_map fun _ _ => rfl

theorem RosValue.iteratePairs_object {children : RosValueList} (fieldIndexes : FieldIndexes)
    (horder : ∀ field ∈ order, field.2 < children.length) :
    (RosValue.object children fieldIndexes).iteratePairs order =
      .ok (order.map fun field => (field.1, .slot (children.offset + field.2))) := by
  apply mapM_eq_map
  intro field hfield
  show (children.at field.2 >>= fun child => .ok (field.1, child)) = _
  rw [RosValueList.at_of_lt (horder field hfield), ok_bind]

theorem RosValue.iterateValues_object {children : RosValueList} (fieldIndexes : FieldIndexes) :
    (RosValue.object children fieldIndexes).iterateValues =
      .ok ((List.range children.length).map fun i => .slot (children.offset + i)) :=
  iterateValues_of_at rfl rfl fun _ hi => RosValueList.at_of_lt hi

theorem RosValue.MayIterate.perm (h : (RosValue.object ⟨c, d.fields.length⟩ d.fieldIndexes).MayIterate order)
    (hnd : (d.fields.map FieldDef.name).Nodup) : order.Perm d.namedFields := by
  obtain ⟨children, fieldIndexes, heq, hperm⟩ := h
  cases heq
  exact hperm.trans (BaseMsgDef.perm_namedFields hnd)

theorem RosValue.get_name (hnd : (d.fields.map FieldDef.name).Nodup) {i : ℕ} (hi : i < d.fields.length) :
    (RosValue.object ⟨c, d.fields.length⟩ d.fieldIndexes).get d.fields[i].name = .ok (.slot (c + i)) := by
  simp only [RosValue.get, BaseMsgDef.lookup_fieldIndexes hnd hi]
  exact RosValueList.at_of_lt hi

theorem RosValue.get_eq_ok (hnd : (d.fields.map FieldDef.name).Nodup) {name : Bytes} {q : Pointer} :
    (RosValue.object ⟨c, d.fields.length⟩ d.fieldIndexes).get name = .ok q ↔
      ∃ i, (name, i) ∈ d.namedFields ∧ q = .slot (c + i) := by
  constructor
  · intro h
    cases hlookup : d.fieldIndexes.lookup name with
    | none => simp [RosValue.get, hlookup] at h
    | some i =>
      have hmem := (BaseMsgDef.mem_entries_fieldIndexes hnd).1 (AList.mem_lookup_iff.1 hlookup)
      obtain ⟨hi, rfl⟩ := BaseMsgDef.mem_namedFields.1 hmem
      rw [get_name hnd hi] at h
      cases h
      exact ⟨i, hmem, rfl⟩
  · rintro ⟨i, hmem, rfl⟩
    obtain ⟨hi, rfl⟩ := BaseMsgDef.mem_namedFields.1 hmem
    exact get_name hnd hi

theorem pairs_of_perm (hnd : (d.fields.map FieldDef.name).Nodup) (horder : order.Perm d.namedFields) :
    (order.map fun field => (field.1, Pointer.slot (c + field.2))).Nodup ∧
      ∀ name q, (name, q) ∈ (order.map fun field => (field.1, Pointer.slot (c + field.2))) ↔
        (RosValue.object ⟨c, d.fields.length⟩ d.fieldIndexes).get name = .ok q := by
  constructor
  · apply (horder.nodup_iff.2 d.nodup_namedFields).map
    rintro ⟨a, i⟩ ⟨b, j⟩ h
    simpa using h
  · intro name q
    rw [RosValue.get_eq_ok hnd, List.mem_map]
    constructor
    · rintro ⟨⟨name', i⟩, hmem, heq⟩
      cases heq
      exact ⟨i, horder.mem_iff.1 hmem, rfl⟩
    · rintro ⟨i, hmem, rfl⟩
      exact ⟨(name, i), horder.mem_iff.2 hmem, rfl⟩

/-- The order lists the names as the definition does exactly if it lists the positions as they are. -/
theorem order_iff (hnd : (d.fields.map FieldDef.name).Nodup) (horder : order.Perm d.namedFields) :
    order.map Prod.fst = d.fields.map FieldDef.name ↔
      ∀ (i : ℕ) (field : Bytes × ℕ), order[i]? = some field → field.2 = i := by
  have hlength : order.length = d.fields.length := by rw [horder.length_eq, d.length_namedFields]
  have hname : ∀ {i : ℕ} {field : Bytes × ℕ}, order[i]? = some field → ∃ hi : field.2 < d.fields.length,
      d.fields[field.2].name = field.1 :=
    fun hfield => BaseMsgDef.mem_namedFields.1 (horder.mem_iff.1 (List.mem_of_getElem? hfield))
  constructor
  · intro h i field hfield
    obtain ⟨hlt, hof⟩ := hname hfield
    have hi : i < d.fields.length := hlength ▸ (List.getElem?_eq_some_iff.1 hfield).1
    have hat := congrArg (fun names => names[i]?) h
    simp only [List.getElem?_map, hfield, List.getElem?_eq_getElem hi, Option.map_some,
      Option.some.injEq] at hat
    have hinj := @List.nodup_iff_injective_getElem.1 hnd ⟨field.2, by simpa using hlt⟩ ⟨i, by simpa using hi⟩
      (by simp only [List.getElem_map]; rw [hof, hat])
    simpa using hinj
  · intro h
    apply List.ext_getElem?
    intro i
    rw [List.getElem?_map, List.getElem?_map]
    rcases hfield : order[i]? with _ | field
    · have hle : d.fields.length ≤ i := hlength ▸ List.getElem?_eq_none_iff.1 hfield
      rw [List.getElem?_eq_none_iff.2 hle]
      rfl
    · obtain ⟨hlt, hof⟩ := hname hfield
      rw [Option.map_some, ← hof, ← h i field hfield, List.getElem?_eq_getElem hlt]
      rfl

/-- An object's iterations correspond exactly if its map is iterated in definition order. -/
theorem RosValue.IsObjectOf.corresponds_iff (h : v.IsObjectOf d) (hnd : (d.fields.map FieldDef.name).Nodup)
    (hiterate : v.MayIterate order) :
    Corresponds v order ↔ order.map Prod.fst = d.fields.map FieldDef.name := by
  obtain ⟨c, rfl⟩ := h
  have horder := hiterate.perm hnd
  have hlength : order.length = d.fields.length := by rw [horder.length_eq, d.length_namedFields]
  have hkeys := iterateKeys_object ⟨c, d.fields.length⟩ d.fieldIndexes order
  have hvalues := @iterateValues_object ⟨c, d.fields.length⟩ d.fieldIndexes
  have hpairs := @iteratePairs_object order ⟨c, d.fields.length⟩ d.fieldIndexes
    fun field hfield => (BaseMsgDef.mem_namedFields.1 (horder.mem_iff.1 hfield)).1
  rw [order_iff hnd horder]
  constructor
  · rintro ⟨keys, values, pairs, hkeys', hvalues', hpairs', -, -, hsame, -⟩ i field hfield
    rw [hkeys] at hkeys'
    rw [hvalues] at hvalues'
    rw [hpairs] at hpairs'
    cases hkeys'
    cases hvalues'
    cases hpairs'
    have hi : i < d.fields.length := hlength ▸ (List.getElem?_eq_some_iff.1 hfield).1
    obtain ⟨-, hpair⟩ := hsame i field.1 (.slot (c + i)) (field.1, .slot (c + field.2))
      (by simp [hfield]) (by simp [hi]) (by simp [hfield])
    have hslot := congrArg Prod.snd hpair
    simpa using hslot
  · intro hpositions
    obtain ⟨hnodup, hget⟩ := pairs_of_perm (c := c) hnd horder
    refine ⟨_, _, _, hkeys, hvalues, hpairs, ?_, ?_, fun i key q pair hkey hq hpair => ?_, hnodup, hget⟩
    · rw [List.length_map, List.length_map]
    · rw [List.length_map, List.length_map, List.length_range, hlength]
    · rw [List.getElem?_map, Option.map_eq_some_iff] at hkey hq hpair
      obtain ⟨field, hfield, rfl⟩ := hkey
      obtain ⟨field', hfield', rfl⟩ := hpair
      obtain ⟨j, hj, rfl⟩ := hq
      obtain ⟨-, rfl⟩ := List.getElem?_eq_some_iff.1 hj
      rw [hfield] at hfield'
      cases hfield'
      rw [List.getElem_range, ← hpositions i field hfield]
      refine ⟨(hget _ _).1 ?_, rfl⟩
      exact List.mem_map.2 ⟨field, List.mem_of_getElem? hfield, rfl⟩

end Loops

/-- The shape is one the schema gives: of a field, or of the whole message. -/
def OfSchema (m : MsgDef) (shape : Shape) : Prop :=
  (∃ f, HasShape m f shape) ∨ ∃ ss, shape = .object m.toBaseMsgDef ss ∧ ∀ s ∈ ss, ∃ f, HasShape m f s

theorem OfSchema.child {m : MsgDef} {s s' : Shape} {i : ℕ} (h : OfSchema m s) (hchild : s.child? i = some s') :
    OfSchema m s' := by
  rcases h with ⟨f, h⟩ | ⟨ss, rfl, hss⟩
  · cases h with
    | scalar => cases hchild
    | string => cases hchild
    | object size definition length fields =>
      obtain ⟨hi, rfl⟩ := List.getElem?_eq_some_iff.1 hchild
      exact .inl ⟨_, fields i (length ▸ hi) hi⟩
    | array size type elements =>
      obtain ⟨hi, rfl⟩ := List.getElem?_eq_some_iff.1 hchild
      exact .inl ⟨_, elements i hi⟩
    | @numbers f o n w size width =>
      rw [Shape.child?] at hchild
      split_ifs at hchild with hi
      cases hchild
      exact .inl ⟨f.element, .scalar rfl width⟩
  · exact .inl (hss s' (List.mem_of_getElem? hchild))

theorem InTree.isObjectOf {info : MsgDefInfo} {name : Bytes} {m : MsgDef} (hm : MsgDef.ofInfo info name = .ok m)
    {buffer : Bytes} {offset fuel : ℕ} {s : ParserState}
    (hparse : MessageParser.parse ⟨buffer, m⟩ offset fuel = .ok s) {v : RosValue}
    (hv : InTree s.rosValues v) (hobj : v.getType = .object) : ∃ d, m.Has d ∧ v.IsObjectOf d := by
  have hfollows := MessageParser.parse_follows (p := ⟨buffer, m⟩)
    (MsgDef.builtFrom_of_ofInfo hm).resolved offset fuel
  rw [hparse] at hfollows
  obtain ⟨⟨shape, q⟩, hshape, -, x, hx, hrep⟩ := hfollows.exists_of_ok
  have hroot : OfSchema m shape := by
    cases fuel with
    | zero => cases hshape
    | succ fuel =>
      rw [shapeObject_succ, map_eq_ok] at hshape
      obtain ⟨⟨ss, q'⟩, hss, heq⟩ := hshape
      cases heq
      refine .inr ⟨ss, rfl, fun s hs => ?_⟩
      obtain ⟨f, -, hf⟩ := forall₂_mem_right
        (forall₂_of_shapes (R := HasShape m) (fun f _ _ _ _ => hasShape_of_shapeField) hss) hs
      exact ⟨f, hf⟩
  obtain ⟨shape', hrep', hschema⟩ := hv.induct hx hrep hroot OfSchema.child
  cases hrep' with
  | scalar hw =>
    rw [RosValue.getType_primitive] at hobj
    rw [hobj] at hw
    cases hw
  | string => cases hobj
  | numbers => cases hobj
  | array => cases hobj
  | @object c d ss xs above length slots children =>
    refine ⟨d, ?_, c, by rw [length]⟩
    rcases hschema with ⟨f, hf⟩ | ⟨ss', heq, -⟩
    · cases hf with
      | object size definition => exact MsgDef.has_of_typeDefinition definition
    · cases heq
      exact .inl rfl

/-- Every object of a parsed message, whatever the message, whose fields have distinct names: the
iterations over its keys, its values and its pairs correspond exactly if its map happens to be
iterated in the order of the definition. -/
theorem iterationsCorrespond_iff {info : MsgDefInfo} {name : Bytes} {m : MsgDef} (hm : MsgDef.ofInfo info name = .ok m)
    {buffer : Bytes} {offset fuel : ℕ} {s : ParserState}
    (hparse : MessageParser.parse ⟨buffer, m⟩ offset fuel = .ok s) {v : RosValue}
    (hv : InTree s.rosValues v) (hobj : v.getType = .object) :
    ∃ d, m.Has d ∧ v.IsObjectOf d ∧ ((d.fields.map FieldDef.name).Nodup → ∀ order, v.MayIterate order →
      (Corresponds v order ↔ order.map Prod.fst = d.fields.map FieldDef.name)) := by
  obtain ⟨d, hhas, hof⟩ := hv.isObjectOf hm hparse hobj
  exact ⟨d, hhas, hof, fun hnd order => hof.corresponds_iff hnd⟩

theorem inTree_sampleVector : InTree sampleVector (.object ⟨1, 2⟩ sampleData.fieldIndexes) := .root rfl

theorem iterationsCorrespond_iff_sampleData : ∃ d, sampleData.Has d ∧
    (RosValue.object ⟨1, 2⟩ sampleData.fieldIndexes).IsObjectOf d ∧
    ((d.fields.map FieldDef.name).Nodup → ∀ order,
      (RosValue.object ⟨1, 2⟩ sampleData.fieldIndexes).MayIterate order →
      (Corresponds (.object ⟨1, 2⟩ sampleData.fieldIndexes) order ↔
        order.map Prod.fst = d.fields.map FieldDef.name)) :=
  @iterationsCorrespond_iff _ _ _ ofInfo_sampleDataInfo (encodeList sampleValues) 0 2 ⟨sampleVector, 3, 6⟩ rfl _
    inTree_sampleVector rfl

/-- A map that is iterated from `next` to `data`, while the values come as `data`, then `next`. -/
theorem not_iterationsCorrespond_sampleData : ∃ s v order,
    MessageParser.parse ⟨encodeList sampleValues, sampleData⟩ 0 2 = .ok s ∧ InTree s.rosValues v ∧
    v.IsObjectOf sampleData.toBaseMsgDef ∧ (sampleData.fields.map FieldDef.name).Nodup ∧
    v.MayIterate order ∧ ¬ Corresponds v order := by
  have hiterate : (RosValue.object ⟨1, 2⟩ sampleData.fieldIndexes).MayIterate
      [(bytes "next", 1), (bytes "data", 0)] := ⟨_, _, rfl, by decide⟩
  have hof : (RosValue.object ⟨1, 2⟩ sampleData.fieldIndexes).IsObjectOf sampleData.toBaseMsgDef := ⟨1, rfl⟩
  have hnd : (sampleData.fields.map FieldDef.name).Nodup := by decide
  refine ⟨⟨sampleVector, 3, 6⟩, _, _, rfl, inTree_sampleVector, hof, hnd, hiterate, ?_⟩
  rw [hof.corresponds_iff hnd hiterate]
  decide

end Embag
