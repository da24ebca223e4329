import Embag.PyMessages

/-! The schema that Python is given for a topic describes what `dict` makes of the topic's messages: the same
names, nested alike, and under each of them data of the type it says. -/

namespace Embag

open LittleEndian Outcomes SchemaBuilder

/-- The data are of the form that the schema gives. -/
inductive PySchema.Describes : PySchema → PyData → Prop
  | number {name : Bytes} (x : Scalar) (type : primitiveTypeMap.lookup name = some x.type) :
    Describes (plainForm name) (.cast (.scalar x))
  | text {name : Bytes} (s : Bytes) (type : primitiveTypeMap.lookup name = some .string) :
    Describes (plainForm name) (.cast (.str s))
  | block {name data : Bytes} {type : RosValueType} {w : ℕ} (type_eq : primitiveTypeMap.lookup name = some type)
    (width : primitiveTypeToSize type = .ok w) (whole : w ∣ data.length) : Describes (memberForm name) (.bytes data)
  | view {name format data : Bytes} {type : RosValueType} {w : ℕ}
    (type_eq : primitiveTypeMap.lookup name = some type) (width : primitiveTypeToSize type = .ok w)
    (format_eq : primitiveTypeToFormat type = .ok format) (whole : w ∣ data.length) :
    Describes (memberForm name) (.memoryview format w data)
  | list {name : Bytes} {elements : List PyData} (members : ∀ data ∈ elements, Describes (plainForm name) data) :
    Describes (memberForm name) (.list elements)
  | object {children : List (Bytes × PySchema)} {keys : List Bytes} {values : List PyData}
    (keys_perm : keys.Perm (children.map Prod.fst)) (length : values.length = keys.length)
    (items : ∀ key s data, (key, s) ∈ children → (key, data) ∈ keys.zip values → Describes s data) :
    Describes (objectForm children) (.dict keys values)
  | objects {children : List (Bytes × PySchema)} {elements : List PyData}
    (members : ∀ data ∈ elements, Describes (objectForm children) data) :
    Describes (arrayForm children) (.list elements)

section Describes

variable {m : MsgDef} {mv : Bool} {types : List RosValueType} {f : FieldDef} {v : Value} {data : PyData} {fuel : ℕ}
  {s : PySchema}

theorem PyData.IsDictOf.describes {d : BaseMsgDef} {ds : ℕ → PyData} {g : FieldDef → Except Fault PySchema}
    {children : List (Bytes × PySchema)} (h : data.IsDictOf d ds) (hnd : (d.fields.map FieldDef.name).Nodup)
    (hnul : ∀ f ∈ d.fields, 0 ∉ f.name) (hchildren : schemaForMembers g d.members = .ok children)
    (hfields : ∀ i (hi : i < d.fields.length) s, g d.fields[i] = .ok s → s.Describes (ds i)) :
    (objectForm children).Describes data := by
  obtain ⟨entries, hperm, rfl⟩ := h
  refine .object ?_ (by rw [List.length_map, List.length_map]) fun key s data hs hdata => ?_
  · have hnames := hperm.map Prod.fst
    rw [List.map_map] at hnames
    rw [(keys_iff hnd hchildren).2 hnul, ← BaseMsgDef.map_fst_namedFields]
    exact hnames
  · rw [← List.unzip_fst, ← List.unzip_snd, List.zip_unzip] at hdata
    obtain ⟨⟨name, i⟩, hfield, heq⟩ := List.mem_map.1 (hperm.mem_iff.1 hdata)
    cases heq
    obtain ⟨hi, rfl⟩ := BaseMsgDef.mem_namedFields.1 hfield
    exact hfields i hi s (eq_ok_of_mem_children hnd hchildren hnul (List.getElem_mem hi) hs)

theorem typeSize_ne_object {w : ℕ} (h : primitiveTypeToSize f.type = .ok w) : f.type ≠ .object := by
  intro htype
  rw [htype] at h
  cases h

theorem describes_numbers {w : ℕ} {xs : List Scalar} (hwidth : primitiveTypeToSize f.type = .ok w)
    (htypes : ∀ x ∈ xs, x.type = f.type) (hdata : PyData.ofNumbers mv types f.type xs = .ok data) :
    (memberForm f.typeName).Describes data := by
  have hlookup := lookup_of_type_ne (typeSize_ne_object hwidth)
  have hwhole : w ∣ (xs.flatMap Scalar.toBytes).length := by
    rw [length_flatMap_toBytes hwidth htypes]
    exact Nat.dvd_mul_left w xs.length
  unfold PyData.ofNumbers at hdata
  split_ifs at hdata
  · obtain ⟨itemsize, hsize, hrest⟩ := bind_eq_ok.1 hdata
    obtain ⟨format, hformat, hview⟩ := bind_eq_ok.1 hrest
    cases hview
    rw [hwidth] at hsize
    cases hsize
    exact .view hlookup hwidth hformat hwhole
  · cases hdata
    exact .block hlookup hwidth hwhole
  · cases hdata
    refine .list fun data hmem => ?_
    obtain ⟨x, hx, rfl⟩ := List.mem_map.1 hmem
    exact .number x (by rw [hlookup, htypes x hx])

/-- What a value of a field becomes is described by what the schema has for the field; the induction is on the
nesting of the value. -/
theorem PyData.Shows.describes (h : data.Shows m mv types f v) (hdist : m.DistinctFields) (hnames : m.PlainNames)
    (hs : schemaForField m fuel f = .ok s) : s.Describes data := by
  induction h generalizing fuel s with
  | @scalar f x size type =>
    obtain ⟨fuel, rfl⟩ := schemaForField_eq_ok hs
    have hne : f.type ≠ .object := by
      rw [type]
      exact x.type_ne_object
    rw [schemaForField_primitive size hne] at hs
    cases hs
    exact .number x (type ▸ lookup_of_type_ne hne)
  | @string f text size type =>
    obtain ⟨fuel, rfl⟩ := schemaForField_eq_ok hs
    have hne : f.type ≠ .object := by
      rw [type]
      decide
    rw [schemaForField_primitive size hne] at hs
    cases hs
    exact .text text (type ▸ lookup_of_type_ne hne)
  | numbers size width htypes data_eq =>
    obtain ⟨fuel, rfl⟩ := schemaForField_eq_ok hs
    rw [schemaForField_primitives size (typeSize_ne_object width)] at hs
    cases hs
    exact describes_numbers width htypes data_eq
  | @list f _ vs ds size type _ ih =>
    obtain ⟨fuel, rfl⟩ := schemaForField_eq_ok hs
    by_cases hobj : f.type = .object
    · obtain ⟨d, hd⟩ := exists_typeDefinition hobj hs
      rw [schemaForField_objects size hd, map_eq_ok] at hs
      obtain ⟨children, hchildren, rfl⟩ := hs
      have helement : schemaForField m (fuel + 1) f.element = .ok (objectForm children) := by
        rw [schemaForField_object f.arraySize_element (m.typeDefinition_element f ▸ hd), hchildren]
        rfl
      refine .objects fun data hdata => ?_
      obtain ⟨i, hi, rfl⟩ := List.mem_map.1 hdata
      exact ih i (List.mem_range.1 hi) helement
    · rw [schemaForField_primitives size hobj] at hs
      cases hs
      have helement : schemaForField m (fuel + 1) f.element = .ok (plainForm f.typeName) :=
        schemaForField_primitive f.arraySize_element hobj
      refine .list fun data hdata => ?_
      obtain ⟨i, hi, rfl⟩ := List.mem_map.1 hdata
      exact ih i (List.mem_range.1 hi) helement
  | dict ds size definition length _ isDict ih =>
    obtain ⟨fuel, rfl⟩ := schemaForField_eq_ok hs
    rw [schemaForField_object size definition, map_eq_ok] at hs
    obtain ⟨children, hchildren, rfl⟩ := hs
    exact isDict.describes (hdist _ (Or.inr (MessageParser.mem_of_typeDefinition definition)))
      (hnames.notMem (MsgDef.has_of_typeDefinition definition)) hchildren fun i hi s hfield =>
        ih i hi (length.symm ▸ hi) hfield

end Describes

/-- The schema of a topic describes what `dict` makes of a message of its definition, whatever types become
blocks of bytes. -/
theorem generateSchema_describes {leftFirst : Bool} {bag : Bag} {topic : Bytes} {info : MsgDefInfo} {name : Bytes}
    {m : MsgDef} (hm : MsgDef.ofInfo info name = .ok m) (htopic : bag.topicInBag topic = true)
    (hlookup : (bag.msgDefForTopic leftFirst topic).2 = .ok (some m)) (hdist : m.DistinctFields)
    (hrec : NonRecursive m) (hnames : m.PlainNames) {vs : List Value} (hmsg : IsMessage m m.toBaseMsgDef vs)
    (pre suf : Bytes) :
    ∃ bound, ∀ fuel ≥ bound, ∃ s schema,
      MessageParser.parse ⟨pre ++ encodeList vs ++ suf, m⟩ pre.length fuel = .ok s ∧
      (generateSchema leftFirst bag topic fuel).2 = .ok schema ∧
      ∀ mv types, types = [] ∨ suf ≠ [] ∨ ¬ MessageEndsInEmptyArray m vs →
        ∃ data, RosMessage.dict s.rosValues mv fuel types = .ok data ∧ (objectForm schema).Describes data := by
  have hresolved := (MsgDef.builtFrom_of_ofInfo hm).resolved
  obtain ⟨bound, hbound⟩ := schemaForMembers_ok hresolved hrec ⟨m.toBaseMsgDef, Or.inl rfl⟩
  refine ⟨max bound (depthList vs + heightList vs + 1), fun fuel hfuel => ?_⟩
  obtain ⟨schema, hschema⟩ := hbound fuel (by omega)
  obtain ⟨s, -, -, hs, -, hdict⟩ := MessageParser.exists_messageDict_leads (p := ⟨pre ++ encodeList vs ++ suf, m⟩)
    hresolved hdist hmsg (show depthList vs < fuel by omega) (by omega) (occursAt_of_append pre (encodeList vs) suf)
  refine ⟨s, schema, hs, by rw [generateSchema_of_msgDef htopic hlookup, hschema], fun mv types hend => ?_⟩
  obtain ⟨data, hdata, hshows, -⟩ := hdict mv types (not_endsInEmptyArray_of_bytes hend)
  refine ⟨data, ?_, ?_⟩
  · rw [RosMessage.dict, hdata]
    exact congrArg Except.ok (hshows.assigned_eq hdist hnames hmsg.length)
  · obtain ⟨ds, isDict, fields⟩ := hshows
    exact isDict.describes (hdist _ (Or.inl rfl)) (hnames.notMem (Or.inl rfl)) hschema fun i hi s hfield =>
      (fields i hi (hmsg.length.symm ▸ hi)).describes hdist hnames hfield

theorem generateSchema_describes_sampleData : ∃ bound, ∀ fuel ≥ bound, ∃ s schema,
    MessageParser.parse ⟨[9] ++ encodeList sampleValues ++ [], sampleData⟩ 1 fuel = .ok s ∧
    (generateSchema false (sampleTopicBag (bytes "pkg/Data") sampleDataText) (bytes "/a") fuel).2 = .ok schema ∧
    ∀ mv types, types = [] ∨ ([] : Bytes) ≠ [] ∨ ¬ MessageEndsInEmptyArray sampleData sampleValues →
      ∃ data, RosMessage.dict s.rosValues mv fuel types = .ok data ∧ (objectForm schema).Describes data :=
  generateSchema_describes ofInfo_sampleDataInfo rfl (msgDefForTopic_sampleTopicBag parseMsgDef_sampleDataText)
    (distinctFields_of_empty rfl (by decide)) (nonRecursive_of_empty rfl) plainNames_sampleData
    isMessage_sampleValues [9] []

end Embag
