import Embag.FieldSchemas

/-! A decoded message and the schema of its topic, walked in parallel. They agree at every level
where the keys do, and the keys do unless the name of a field has a zero byte. -/

namespace Embag

open LittleEndian Outcomes Relation SchemaBuilder

/-- A definition, the dictionary made from it, and an object of it. -/
structure Level where
  definition : BaseMsgDef
  children : List (Bytes × PySchema)
  value : RosValue

/-- The object of a field, or one of the objects in its array, with the field's `children`. -/
inductive Opens (m : MsgDef) (base : List RosValue) (f : FieldDef) (s : PySchema) (w : RosValue)
    (l : Level) : Prop
  | object (size : f.arraySize = 0) (definition : m.typeDefinition f = .ok l.definition)
    (children : s.item (bytes "children") = some (.dict l.children)) (value : w = l.value)
  | element {n i : ℕ} {q : Pointer} (size : f.arraySize ≠ 0) (definition : m.typeDefinition f = .ok l.definition)
    (children : s.item (bytes "children") = some (.dict l.children)) (length : w.size = .ok n) (lt : i < n)
    (at_eq : w.at i = .ok q) (deref : q.deref base = .ok l.value)

namespace Level

def Enters (m : MsgDef) (base : List RosValue) (l l' : Level) : Prop :=
  ∃ f ∈ l.definition.fields, ∃ s q w, (f.name, s) ∈ l.children ∧ l.value.get f.name = .ok q ∧
    q.deref base = .ok w ∧ Opens m base f s w l'

/-- The keys are the names of the fields in definition order, and each field's dictionary describes
its value. -/
structure Agrees (base : List RosValue) (l : Level) : Prop where
  object : l.value.getType = .object
  keys : l.children.map Prod.fst = l.definition.fields.map FieldDef.name
  fields : ∀ f ∈ l.definition.fields, ∃ s q w, (f.name, s) ∈ l.children ∧ l.value.get f.name = .ok q ∧
    q.deref base = .ok w ∧ FieldAgrees base f s w

end Level

def SchemaAgrees (m : MsgDef) (base : List RosValue) (schema : List (Bytes × PySchema)) : Prop :=
  ∃ root, base[0]? = some root ∧
    ∀ l, ReflTransGen (Level.Enters m base) ⟨m.toBaseMsgDef, schema, root⟩ l → l.Agrees base

mutual

def Value.names : Value → List Bytes
  | .scalar _ => []
  | .string _ => []
  | .array _ elements => namesList elements
  | .object names fields => names ++ namesList fields

def namesList : List Value → List Bytes
  | [] => []
  | v :: vs => v.names ++ namesList vs

end

def messageNames (m : MsgDef) (vs : List Value) : List Bytes :=
  m.fields.map FieldDef.name ++ namesList vs

theorem mem_namesList {vs : List Value} {name : Bytes} : name ∈ namesList vs ↔ ∃ v ∈ vs, name ∈ v.names := by
  induction vs with
  | nil => simp [namesList]
  | cons v vs ih => simp [namesList, ih]

theorem namesList_map_scalar (xs : List Scalar) : namesList (xs.map .scalar) = [] := by
  induction xs with
  | nil => rfl
  | cons x xs ih => simpa [namesList, Value.names] using ih

section Levels

variable {m : MsgDef} {buffer : Bytes} {base : List RosValue} {low : ℕ} {l l' : Level} {ss : List Shape}
  {vs : List Value}

/-- No name of the definition has a zero byte. -/
def Level.Readable (l : Level) : Prop := ∀ f ∈ l.definition.fields, 0 ∉ f.name

/-- The dictionary is that of the definition, and the value is an object of it, in the buffer as
the shapes say and with these values. -/
structure Level.Follows (m : MsgDef) (buffer : Bytes) (base : List RosValue) (low : ℕ) (l : Level)
    (ss : List Shape) (vs : List Value) : Prop where
  has : m.Has l.definition
  built : ∃ fuel, schemaForMembers (schemaForField m fuel) l.definition.members = .ok l.children
  represents : Represents buffer base low l.value (.object l.definition ss)
  length : l.definition.fields.length = ss.length
  fits : ∀ i (hf : i < l.definition.fields.length) (hs : i < ss.length), HasShape m l.definition.fields[i] ss[i]
  values : ss.length = vs.length
  holds : ∀ i (hs : i < ss.length) (hv : i < vs.length), Holds (fun _ => True) buffer ss[i] vs[i]

theorem Level.Follows.get (h : l.Follows m buffer base low ss vs) (hdist : m.DistinctFields) {i : ℕ}
    (hf : i < l.definition.fields.length) (hs : i < ss.length) :
    ∃ q w, l.value.get l.definition.fields[i].name = .ok q ∧ q.deref base = .ok w ∧
      Represents buffer base low w ss[i] := by
  have hlookup := BaseMsgDef.lookup_fieldIndexes (hdist _ h.has) hf
  obtain ⟨-, -, hrep, -⟩ := h
  generalize hx : l.value = x at hrep
  cases hrep with
  | object xs above length slots children =>
    refine ⟨_, xs i, ?_, deref_slot (slots i hs), children i hs⟩
    rw [RosValue.get, hlookup]
    exact RosValueList.at_of_lt hs

theorem Level.Follows.exists_field (h : l.Follows m buffer base low ss vs) (hdist : m.DistinctFields)
    (hreadable : l.Readable) {i : ℕ} (hf : i < l.definition.fields.length) (hs : i < ss.length) :
    ∃ fuel s q w, schemaForField m fuel l.definition.fields[i] = .ok s ∧
      (l.definition.fields[i].name, s) ∈ l.children ∧ l.value.get l.definition.fields[i].name = .ok q ∧
      q.deref base = .ok w ∧ Represents buffer base low w ss[i] := by
  obtain ⟨fuel, hbuilt⟩ := h.built
  obtain ⟨s, hmem, hs'⟩ := exists_entry (hdist _ h.has) hbuilt hreadable (List.getElem_mem hf)
  obtain ⟨q, w, hq, hw, hrep⟩ := h.get hdist hf hs
  exact ⟨fuel, s, q, w, hs', hmem, hq, hw, hrep⟩

theorem Level.Follows.agrees_iff (h : l.Follows m buffer base low ss vs) (hdist : m.DistinctFields) :
    l.Agrees base ↔ l.Readable := by
  obtain ⟨fuel, hbuilt⟩ := h.built
  have hkeys := keys_iff (hdist _ h.has) hbuilt
  constructor
  · intro hagrees
    exact hkeys.1 hagrees.keys
  · intro hreadable
    refine ⟨?_, hkeys.2 hreadable, fun f hf => ?_⟩
    · have hrep := h.represents
      generalize l.value = x at hrep
      cases hrep
      rfl
    · obtain ⟨i, hi, rfl⟩ := List.mem_iff_getElem.1 hf
      have hs : i < ss.length := by
        rw [← h.length]
        exact hi
      obtain ⟨fuel, s, q, w, hs', hmem, hq, hw, hrep⟩ := h.exists_field hdist hreadable hi hs
      exact ⟨s, q, w, hmem, hq, hw, (h.fits i hi hs).fieldAgrees hrep hs'⟩

theorem follows_of_hasShape {f : FieldDef} {d : BaseMsgDef} {w : RosValue} {s : Shape} {v : Value} {fuel : ℕ}
    {children : List (Bytes × PySchema)} (hsize : f.arraySize = 0) (hd : m.typeDefinition f = .ok d)
    (hfits : HasShape m f s) (hrep : Represents buffer base low w s) (hholds : Holds (fun _ => True) buffer s v)
    (hbuilt : schemaForMembers (schemaForField m fuel) d.members = .ok children) :
    ∃ ss vs, s = .object d ss ∧ v = .object (d.fields.map FieldDef.name) vs ∧
      Level.Follows m buffer base low ⟨d, children, w⟩ ss vs := by
  have hobj := MessageParser.type_of_typeDefinition hd
  cases hfits with
  | scalar size width =>
    rw [hobj] at width
    cases width
  | string size type =>
    rw [hobj] at type
    cases type
  | array size => exact absurd hsize size
  | numbers size => exact absurd hsize size
  | @object _ d' ss size definition length fields =>
    rw [hd] at definition
    cases definition
    cases hholds with
    | @object _ _ vs hlength _ children =>
      exact ⟨ss, vs, rfl, rfl, MsgDef.has_of_typeDefinition hd, ⟨fuel, hbuilt⟩, hrep, length, fields, hlength,
        children⟩

def Level.names (l : Level) (vs : List Value) : List Bytes :=
  l.definition.fields.map FieldDef.name ++ namesList vs

section Opens

variable {f : FieldDef} {s : PySchema} {w : RosValue} {shape : Shape} {v : Value} {fuel : ℕ}

theorem Opens.follows (h : Opens m base f s w l) (hfits : HasShape m f shape)
    (hrep : Represents buffer base low w shape) (hholds : Holds (fun _ => True) buffer shape v)
    (hs : schemaForField m fuel f = .ok s) :
    ∃ ss vs, l.Follows m buffer base low ss vs ∧ ∀ name ∈ l.names vs, name ∈ v.names := by
  obtain ⟨fuel, rfl⟩ := schemaForField_eq_ok hs
  cases h with
  | object size definition children value =>
    subst value
    rw [schemaForField_object size definition, map_eq_ok] at hs
    obtain ⟨items, hitems, rfl⟩ := hs
    cases children
    obtain ⟨ss, vs, rfl, rfl, hfollows⟩ := follows_of_hasShape size definition hfits hrep hholds hitems
    exact ⟨ss, vs, hfollows, fun name hname => hname⟩
  | @element n i q size definition children length lt at_eq deref =>
    have hobj := MessageParser.type_of_typeDefinition definition
    rw [schemaForField_objects size definition, map_eq_ok] at hs
    obtain ⟨items, hitems, rfl⟩ := hs
    cases children
    cases hfits with
    | scalar size' => exact absurd size' size
    | string size' => exact absurd size' size
    | object size' => exact absurd size' size
    | numbers _ width =>
      rw [hobj] at width
      cases width
    | @array _ elements _ type fits =>
      cases hrep with
      | array xs above slots reps =>
        cases hholds with
        | @array _ _ vs hlength holds =>
          cases length
          rw [RosValue.at, RosValueList.at_of_lt lt] at at_eq
          cases at_eq
          rw [deref_slot (slots i lt), Except.ok.injEq] at deref
          have hv : i < vs.length := by
            rw [← hlength]
            exact lt
          have hrep := reps i lt
          rw [deref] at hrep
          obtain ⟨ss, vs', hshape, hvalue, hfollows⟩ := follows_of_hasShape (f := f.element) rfl definition
            (fits i lt) hrep (holds i lt hv) hitems
          refine ⟨ss, vs', hfollows, fun name hname => ?_⟩
          rw [Value.names, mem_namesList]
          refine ⟨vs[i], List.getElem_mem hv, ?_⟩
          rw [hvalue]
          exact hname

end Opens

/-- What a readable level leads to is a level again, and has no other names. -/
theorem Level.Follows.step (h : l.Follows m buffer base low ss vs) (hdist : m.DistinctFields)
    (hreadable : l.Readable) (hstep : l.Enters m base l') :
    ∃ ss' vs', l'.Follows m buffer base low ss' vs' ∧ ∀ name ∈ l'.names vs', name ∈ l.names vs := by
  obtain ⟨f, hf, s, q, w, hmem, hq, hw, hopens⟩ := hstep
  obtain ⟨fuel, hbuilt⟩ := h.built
  have hs := eq_ok_of_mem_children (hdist _ h.has) hbuilt hreadable hf hmem
  obtain ⟨i, hi, rfl⟩ := List.mem_iff_getElem.1 hf
  have hi' : i < ss.length := by
    rw [← h.length]
    exact hi
  have hv : i < vs.length := by
    rw [← h.values]
    exact hi'
  obtain ⟨q', w', hq', hw', hrep⟩ := h.get hdist hi hi'
  rw [hq] at hq'
  cases hq'
  rw [hw] at hw'
  cases hw'
  obtain ⟨ss', vs', hfollows, hsub⟩ := hopens.follows (h.fits i hi hi') hrep (h.holds i hi' hv) hs
  refine ⟨ss', vs', hfollows, fun name hname => ?_⟩
  exact List.mem_append_right _ (mem_namesList.2 ⟨vs[i], List.getElem_mem hv, hsub name hname⟩)

theorem Level.readable_of_names (hnames : ∀ name ∈ l.names vs, 0 ∉ name) : l.Readable :=
  fun _ hf => hnames _ (List.mem_append_left _ (List.mem_map_of_mem hf))

/-- Without a zero byte in any name every level agrees. -/
theorem Level.Follows.walk (h : l.Follows m buffer base low ss vs) (hdist : m.DistinctFields)
    (hnames : ∀ name ∈ l.names vs, 0 ∉ name) (hwalk : ReflTransGen (Level.Enters m base) l l') :
    l'.Agrees base := by
  have hall : ∃ ss' vs', l'.Follows m buffer base low ss' vs' ∧ ∀ name ∈ l'.names vs', 0 ∉ name := by
    induction hwalk with
    | refl => exact ⟨ss, vs, h, hnames⟩
    | tail _ hstep ih =>
      obtain ⟨ss₁, vs₁, hfollows, hnames₁⟩ := ih
      obtain ⟨ss₂, vs₂, hfollows₂, hsub⟩ := hfollows.step hdist (Level.readable_of_names hnames₁) hstep
      exact ⟨ss₂, vs₂, hfollows₂, fun name hname => hnames₁ name (hsub name hname)⟩
  obtain ⟨ss', vs', hfollows, hnames'⟩ := hall
  rw [hfollows.agrees_iff hdist]
  exact Level.readable_of_names hnames'

theorem Level.Follows.readable_of_agrees (h : l.Follows m buffer base low ss vs) (hdist : m.DistinctFields)
    (hall : ∀ l', ReflTransGen (Level.Enters m base) l l' → l'.Agrees base)
    (hwalk : ReflTransGen (Level.Enters m base) l l') : l'.Readable := by
  have hfollows : ∃ ss' vs', l'.Follows m buffer base low ss' vs' := by
    induction hwalk with
    | refl => exact ⟨ss, vs, h⟩
    | @tail l₁ l₂ hwalk hstep ih =>
      obtain ⟨ss₁, vs₁, hfollows⟩ := ih
      have hreadable := (hfollows.agrees_iff hdist).1 (hall l₁ hwalk)
      obtain ⟨ss₂, vs₂, hfollows₂, -⟩ := hfollows.step hdist hreadable hstep
      exact ⟨ss₂, vs₂, hfollows₂⟩
  obtain ⟨ss', vs', hfollows⟩ := hfollows
  exact (hfollows.agrees_iff hdist).1 (hall l' hwalk)

/-- Whatever a field opens is readable with all that is behind it. -/
def AllReadable (m : MsgDef) (base : List RosValue) (f : FieldDef) (s : PySchema) (w : RosValue) : Prop :=
  ∀ l l', Opens m base f s w l → ReflTransGen (Level.Enters m base) l l' → l'.Readable

/-- The names in the value of a field are seen where the field's levels are. -/
def NamesSeen (m : MsgDef) (buffer : Bytes) (base : List RosValue) (low : ℕ) (f : FieldDef) (shape : Shape) :
    Prop :=
  ∀ w v s fuel, Represents buffer base low w shape → Holds (fun _ => True) buffer shape v →
    schemaForField m fuel f = .ok s → AllReadable m base f s w → ∀ name ∈ v.names, 0 ∉ name

theorem Level.Follows.names_seen (h : l.Follows m buffer base low ss vs) (hdist : m.DistinctFields)
    (hfields : ∀ i (hf : i < l.definition.fields.length) (hs : i < ss.length),
      NamesSeen m buffer base low l.definition.fields[i] ss[i])
    (hall : ∀ l', ReflTransGen (Level.Enters m base) l l' → l'.Readable) :
    ∀ name ∈ l.names vs, 0 ∉ name := by
  have hreadable := hall l .refl
  intro name hname
  rcases List.mem_append.1 hname with hname | hname
  · obtain ⟨f, hf, rfl⟩ := List.mem_map.1 hname
    exact hreadable f hf
  · obtain ⟨v, hv, hname⟩ := mem_namesList.1 hname
    obtain ⟨i, hi, rfl⟩ := List.mem_iff_getElem.1 hv
    have hs : i < ss.length := by
      rw [h.values]
      exact hi
    have hf : i < l.definition.fields.length := by
      rw [h.length]
      exact hs
    obtain ⟨fuel, s, q, w, hs', hmem, hq, hw, hrep⟩ := h.exists_field hdist hreadable hf hs
    refine hfields i hf hs w vs[i] s fuel hrep (h.holds i hs hi) hs' (fun l₁ l₂ hopens hwalk => ?_) name hname
    exact hall l₂ (.head ⟨_, List.getElem_mem hf, s, q, w, hmem, hq, hw, hopens⟩ hwalk)

theorem names_of_holds_scalar {type : RosValueType} {o w : ℕ} {v : Value}
    (h : Holds (fun _ => True) buffer (.scalar type o w) v) : v.names = [] := by
  cases h
  rfl

theorem exists_schema_element {f : FieldDef} {s : PySchema} {w x : RosValue} {n i fuel : ℕ} {q : Pointer}
    (hsize : f.arraySize ≠ 0) (hs : schemaForField m fuel f = .ok s) (hall : AllReadable m base f s w)
    (hn : w.size = .ok n) (hi : i < n) (hq : w.at i = .ok q) (hx : q.deref base = .ok x) :
    ∃ s', schemaForField m fuel f.element = .ok s' ∧ AllReadable m base f.element s' x := by
  obtain ⟨k, rfl⟩ := schemaForField_eq_ok hs
  by_cases hobj : f.type = .object
  · obtain ⟨d, hd⟩ := exists_typeDefinition hobj hs
    rw [schemaForField_objects hsize hd, map_eq_ok] at hs
    obtain ⟨items, hitems, rfl⟩ := hs
    refine ⟨objectForm items, ?_, fun l l' hopens hwalk => ?_⟩
    · rw [schemaForField_object (f := f.element) rfl hd, hitems]
      rfl
    · cases hopens with
      | element hne => exact absurd rfl hne
      | object _ definition children value =>
        cases children
        subst value
        exact hall l l' (.element hsize definition rfl hn hi hq hx) hwalk
  · refine ⟨_, schemaForField_primitive (f := f.element) rfl hobj, fun l l' hopens => ?_⟩
    cases hopens with
    | element hne => exact absurd rfl hne
    | object _ definition => exact absurd (MessageParser.type_of_typeDefinition definition) hobj

/-- Every field: the induction is on the form of its shape. -/
theorem HasShape.namesSeen (hdist : m.DistinctFields) {f : FieldDef} {shape : Shape} (h : HasShape m f shape) :
    NamesSeen m buffer base low f shape := by
  induction h with
  | scalar =>
    intro w v s fuel _ hholds _ _ name hname
    rw [names_of_holds_scalar hholds] at hname
    cases hname
  | string =>
    intro w v s fuel _ hholds _ _ name hname
    cases hholds
    cases hname
  | numbers =>
    intro w v s fuel _ hholds _ _ name hname
    cases hholds
    rw [Value.names, namesList_map_scalar] at hname
    cases hname
  | @object f d ss size definition length fields ih =>
    intro w v s fuel hrep hholds hs hall
    obtain ⟨fuel, rfl⟩ := schemaForField_eq_ok hs
    rw [schemaForField_object size definition, map_eq_ok] at hs
    obtain ⟨items, hitems, rfl⟩ := hs
    obtain ⟨ss', vs, hshape, rfl, hfollows⟩ := follows_of_hasShape size definition
      (.object size definition length fields) hrep hholds hitems
    cases hshape
    exact hfollows.names_seen hdist ih fun l' hwalk => hall _ l' (.object size definition rfl rfl) hwalk
  | @array f ss size type elements ih =>
    intro w v s fuel hrep hholds hs hall name hname
    cases hrep with
    | array xs above slots reps =>
      cases hholds with
      | @array _ _ vs hlength holds =>
        rw [Value.names, mem_namesList] at hname
        obtain ⟨v, hv, hname⟩ := hname
        obtain ⟨i, hi, rfl⟩ := List.mem_iff_getElem.1 hv
        have hss : i < ss.length := by
          rw [hlength]
          exact hi
        obtain ⟨s', hs', hall'⟩ := exists_schema_element size hs hall rfl hss (RosValueList.at_of_lt hss)
          (deref_slot (slots i hss))
        exact ih i hss (xs i) vs[i] s' fuel (reps i hss) (holds i hss hi) hs' hall' name hname

end Levels

theorem generateSchema_of_msgDef {leftFirst : Bool} {bag : Bag} {topic : Bytes} {m : MsgDef}
    (htopic : bag.topicInBag topic = true) (hlookup : (bag.msgDefForTopic leftFirst topic).2 = .ok (some m))
    (fuel : ℕ) : (generateSchema leftFirst bag topic fuel).2 = schemaForMembers (schemaForField m fuel) m.members := by
  rw [generateSchema, htopic]
  rcases hbag : bag.msgDefForTopic leftFirst topic with ⟨bag', r⟩
  rw [hbag] at hlookup
  subst hlookup
  rfl

theorem Level.Follows.schemaAgrees_iff {m : MsgDef} {buffer : Bytes} {base : List RosValue} {low : ℕ}
    {schema : List (Bytes × PySchema)} {root : RosValue} {ss : List Shape} {vs : List Value}
    (h : Level.Follows m buffer base low ⟨m.toBaseMsgDef, schema, root⟩ ss vs) (hroot : base[0]? = some root)
    (hdist : m.DistinctFields) :
    SchemaAgrees m base schema ↔ ∀ name ∈ messageNames m vs, 0 ∉ name := by
  constructor
  · rintro ⟨root', hroot', hagrees⟩
    rw [hroot] at hroot'
    cases hroot'
    exact h.names_seen hdist (fun i hf hs => (h.fits i hf hs).namesSeen hdist)
      fun l' hwalk => h.readable_of_agrees hdist hagrees hwalk
  · intro hnames
    exact ⟨root, hroot, fun l hwalk => h.walk hdist hnames hwalk⟩

/-- The schema of a topic and a message of its definition agree unless the message has an object
one of whose fields has a zero byte in its name. -/
theorem schemaDescribes_iff {leftFirst : Bool} {bag : Bag} {topic : Bytes} {info : MsgDefInfo} {name : Bytes}
    {m : MsgDef} (hm : MsgDef.ofInfo info name = .ok m) (htopic : bag.topicInBag topic = true)
    (hlookup : (bag.msgDefForTopic leftFirst topic).2 = .ok (some m)) (hdist : m.DistinctFields)
    (hrec : NonRecursive m) (vs : List Value) (hmsg : IsMessage m m.toBaseMsgDef vs) (pre suf : Bytes) :
    ∃ bound, ∀ fuel ≥ bound, ∃ s schema,
      MessageParser.parse ⟨pre ++ encodeList vs ++ suf, m⟩ pre.length fuel = .ok s ∧
      (generateSchema leftFirst bag topic fuel).2 = .ok schema ∧
      (SchemaAgrees m s.rosValues schema ↔ ∀ name ∈ messageNames m vs, 0 ∉ name) := by
  have hresolved := (MsgDef.builtFrom_of_ofInfo hm).resolved
  have hocc := occursAt_of_append pre (encodeList vs) suf
  obtain ⟨bound, hbound⟩ := schemaForMembers_ok hresolved hrec ⟨m.toBaseMsgDef, Or.inl rfl⟩
  refine ⟨max bound (depthList vs + 1), fun fuel hfuel => ?_⟩
  obtain ⟨schema, hschema⟩ := hbound fuel (by omega)
  obtain ⟨shape, hshape, hholds⟩ := shapeObject_finds (D := fun _ => True)
    (fun _ _ _ => trivial) trivial hmsg (by omega : depthList vs < fuel) pre.length hocc
  have hfollows := MessageParser.parse_follows (p := ⟨pre ++ encodeList vs ++ suf, m⟩) hresolved pre.length fuel
  rw [hshape] at hfollows
  obtain ⟨s, hs, -, root, hroot, hrep⟩ := hfollows.exists_ok
  refine ⟨s, schema, hs, by rw [generateSchema_of_msgDef htopic hlookup, hschema], ?_⟩
  obtain ⟨fuel, rfl⟩ : ∃ k, fuel = k + 1 := ⟨fuel - 1, by omega⟩
  rw [shapeObject_succ, map_eq_ok] at hshape
  obtain ⟨⟨ss, q⟩, hss, hshape⟩ := hshape
  cases hshape
  obtain ⟨hlength, hfits⟩ := hasShape_of_shapeFields (fun _ _ _ _ => hasShape_of_shapeField) hss
  cases hholds with
  | object hvalues _ holds =>
    have hlevel : Level.Follows m (pre ++ encodeList vs ++ suf) s.rosValues 1
        ⟨m.toBaseMsgDef, schema, root⟩ ss vs :=
      ⟨Or.inl rfl, ⟨fuel + 1, hschema⟩, hrep, hlength, hfits, hvalues, holds⟩
    exact hlevel.schemaAgrees_iff hroot hdist

section Samples

theorem nonRecursive_of_empty {m : MsgDef} (h : m.embeddedDefinitionMap = ∅) : NonRecursive m := by
  intro d _ htrans
  obtain ⟨e, ⟨f, -, hf⟩, -⟩ := TransGen.head'_iff.1 htrans
  obtain ⟨key, hkey⟩ := MessageParser.mem_of_typeDefinition hf
  rw [h, AList.lookup_empty] at hkey
  cases hkey

theorem distinctFields_of_empty {m : MsgDef} (h : m.embeddedDefinitionMap = ∅)
    (hnd : (m.fields.map FieldDef.name).Nodup) : m.DistinctFields := by
  rintro d (rfl | ⟨key, hkey⟩)
  · exact hnd
  · rw [h, AList.lookup_empty] at hkey
    cases hkey

def sampleTopicBag (type definition : Bytes) : Bag where
  bagBytes := []
  connections := [{
    topic := bytes "/a"
    data := {
      topic := bytes "/a"
      type := type
      messageDefinition := definition } }]
  topicConnectionMap := (∅ : AList fun _ : Bytes => List ℕ).insert (bytes "/a") [0]

theorem msgDefForTopic_sampleTopicBag {leftFirst : Bool} {type definition : Bytes} {m : MsgDef}
    (h : parseMsgDef definition type = .ok m) :
    ((sampleTopicBag type definition).msgDefForTopic leftFirst (bytes "/a")).2 = .ok (some m) := by
  have hlookup : (sampleTopicBag type definition).topicConnectionMap.lookup (bytes "/a") = some [0] := rfl
  have hnone : (sampleTopicBag type definition).messageSchemata.lookup (bytes "/a") = none := rfl
  have hconnection : (sampleTopicBag type definition).connections[0]? = some {
      topic := bytes "/a"
      data := { topic := bytes "/a", type := type, messageDefinition := definition } } := rfl
  simp only [Bag.msgDefForTopic, hnone, Bag.parseMsgDefForTopic, hlookup, hconnection, h, AList.lookup_insert,
    Option.getD_some]

def sampleDataText : Bytes := bytes "uint8[] data\nuint8 next\n"

theorem parseMsgDef_sampleDataText : parseMsgDef sampleDataText (bytes "pkg/Data") = .ok sampleData := by
  have hinfo : parseInfo sampleDataText = .ok sampleDataInfo := by decide +kernel
  rw [parseMsgDef, hinfo]
  rfl

theorem schemaDescribes_iff_sampleData : ∃ bound, ∀ fuel ≥ bound, ∃ s schema,
    MessageParser.parse ⟨[9] ++ encodeList sampleValues ++ [], sampleData⟩ 1 fuel = .ok s ∧
    (generateSchema false (sampleTopicBag (bytes "pkg/Data") sampleDataText) (bytes "/a") fuel).2 = .ok schema ∧
    (SchemaAgrees sampleData s.rosValues schema ↔ ∀ name ∈ messageNames sampleData sampleValues, 0 ∉ name) :=
  schemaDescribes_iff ofInfo_sampleDataInfo rfl (msgDefForTopic_sampleTopicBag parseMsgDef_sampleDataText)
    (distinctFields_of_empty rfl (by decide)) (nonRecursive_of_empty rfl) sampleValues isMessage_sampleValues [9] []

def sampleNulText : Bytes := bytes "uint8 a" ++ [0] ++ bytes "b\n"

def sampleNul : MsgDef where
  name := bytes "pkg/Nul"
  members := [.field { parsedInfo := ⟨bytes "uint8", 0, bytes "a" ++ [0] ++ bytes "b"⟩ }]
  embeddedDefinitionMap := ∅

theorem parseMsgDef_sampleNulText : parseMsgDef sampleNulText (bytes "pkg/Nul") = .ok sampleNul := by
  have hinfo : parseInfo sampleNulText =
      .ok ⟨[.field ⟨bytes "uint8", 0, bytes "a" ++ [0] ++ bytes "b"⟩], []⟩ := by
    decide +kernel
  rw [parseMsgDef, hinfo]
  rfl

theorem isMessage_sampleNul : IsMessage sampleNul sampleNul.toBaseMsgDef [.scalar (.uint8 7)] := by
  refine ⟨rfl, fun i hf hv => ?_⟩
  match i, hv with
  | 0, _ => exact .scalar rfl rfl

/-- The key of the field is cut off in front of the zero byte. -/
theorem not_schemaAgrees_sampleNul :
    parseMsgDef sampleNulText (bytes "pkg/Nul") = .ok sampleNul ∧ sampleNul.DistinctFields ∧
    NonRecursive sampleNul ∧ IsMessage sampleNul sampleNul.toBaseMsgDef [.scalar (.uint8 7)] ∧
    ∃ s schema, (∀ fuel, MessageParser.parse ⟨[7], sampleNul⟩ 0 (fuel + 1) = .ok s) ∧
      (∀ fuel, (generateSchema false (sampleTopicBag (bytes "pkg/Nul") sampleNulText) (bytes "/a")
        (fuel + 1)).2 = .ok schema) ∧
      schema.map Prod.fst = [bytes "a"] ∧ ¬ SchemaAgrees sampleNul s.rosValues schema := by
  refine ⟨parseMsgDef_sampleNulText, distinctFields_of_empty rfl (by decide), nonRecursive_of_empty rfl,
    isMessage_sampleNul, ⟨[.object ⟨1, 1⟩ sampleNul.fieldIndexes, .primitive .uint8 ⟨0, some [7]⟩], 2, 1⟩,
    [(bytes "a", plainForm (bytes "uint8"))], fun _ => rfl, fun fuel => ?_, rfl, ?_⟩
  · rw [generateSchema_of_msgDef rfl (msgDefForTopic_sampleTopicBag parseMsgDef_sampleNulText)]
    rfl
  · rintro ⟨root, hroot, hagrees⟩
    have hkeys : [bytes "a"] = [bytes "a" ++ [0] ++ bytes "b"] := (hagrees _ .refl).keys
    exact absurd hkeys (by decide)

end Samples

end Embag
