import Embag.MessageValues
import Embag.ObjectIterators
import Embag.SchemaWalk

/-! The dictionary Python's `dict` makes of a message has the values of the message in it: numbers and
texts as they are, arrays as lists, and the arrays of the types asked for as blocks of their bytes. -/

namespace Embag

open LittleEndian Loops Outcomes

instance : Inhabited PyData := ⟨.list []⟩

namespace PyData

/-- The numbers of an array, which are a block of bytes where their type is one of those asked for. -/
def ofNumbers (asMemoryview : Bool) (arrayBlobTypes : List RosValueType) (type : RosValueType) (xs : List Scalar) :
    Except Fault PyData :=
  if type ∈ arrayBlobTypes then
    if asMemoryview then do
      let itemsize ← primitiveTypeToSize type
      let format ← primitiveTypeToFormat type
      return .memoryview format itemsize (xs.flatMap Scalar.toBytes)
    else .ok (.bytes (xs.flatMap Scalar.toBytes))
  else .ok (.list (xs.map fun x => .cast (.scalar x)))

theorem exists_ofNumbers {type : RosValueType} {w : ℕ} (hw : primitiveTypeToSize type = .ok w) (asMemoryview : Bool)
    (arrayBlobTypes : List RosValueType) (xs : List Scalar) :
    ∃ data, ofNumbers asMemoryview arrayBlobTypes type xs = .ok data := by
  obtain ⟨format, hformat⟩ := exists_primitiveTypeToFormat hw
  unfold ofNumbers
  split_ifs
  · rw [hw, hformat]
    exact ⟨_, rfl⟩
  · exact ⟨_, rfl⟩
  · exact ⟨_, rfl⟩

theorem ofNumbers_ne_cast {asMemoryview : Bool} {arrayBlobTypes : List RosValueType} {type : RosValueType}
    {xs : List Scalar} {o : PyObject} : ofNumbers asMemoryview arrayBlobTypes type xs ≠ .ok (.cast o) := by
  intro h
  unfold ofNumbers at h
  split_ifs at h
  · obtain ⟨itemsize, -, hrest⟩ := bind_eq_ok.1 h
    obtain ⟨format, -, hdata⟩ := bind_eq_ok.1 hrest
    cases hdata
  · cases h
  · cases h

/-- A dictionary with these data under the names of the fields, in any order. -/
def IsDictOf (d : BaseMsgDef) (ds : ℕ → PyData) (data : PyData) : Prop :=
  ∃ entries : List (Bytes × PyData), entries.Perm (d.namedFields.map fun field => (field.1, ds field.2)) ∧
    data = .dict (entries.map Prod.fst) (entries.map Prod.snd)

inductive Shows (m : MsgDef) (asMemoryview : Bool) (arrayBlobTypes : List RosValueType) :
    FieldDef → Value → PyData → Prop
  | scalar {f : FieldDef} (x : Scalar) (size : f.arraySize = 0) (type : f.type = x.type) :
    Shows m asMemoryview arrayBlobTypes f (.scalar x) (.cast (.scalar x))
  | string {f : FieldDef} (s : Bytes) (size : f.arraySize = 0) (type : f.type = .string) :
    Shows m asMemoryview arrayBlobTypes f (.string s) (.cast (.str s))
  | numbers {f : FieldDef} {w : ℕ} {dynamic : Bool} {xs : List Scalar} {data : PyData} (size : f.arraySize ≠ 0)
    (width : primitiveTypeToSize f.type = .ok w) (types : ∀ x ∈ xs, x.type = f.type)
    (data_eq : ofNumbers asMemoryview arrayBlobTypes f.type xs = .ok data) :
    Shows m asMemoryview arrayBlobTypes f (.array dynamic (xs.map .scalar)) data
  | list {f : FieldDef} {dynamic : Bool} {vs : List Value} (ds : ℕ → PyData) (size : f.arraySize ≠ 0)
    (type : f.type = .object ∨ f.type = .string)
    (elements : ∀ i (hv : i < vs.length), Shows m asMemoryview arrayBlobTypes f.element vs[i] (ds i)) :
    Shows m asMemoryview arrayBlobTypes f (.array dynamic vs) (.list ((List.range vs.length).map ds))
  | dict {f : FieldDef} {d : BaseMsgDef} {vs : List Value} {data : PyData} (ds : ℕ → PyData) (size : f.arraySize = 0)
    (definition : m.typeDefinition f = .ok d) (length : vs.length = d.fields.length)
    (fields : ∀ i (hf : i < d.fields.length) (hv : i < vs.length),
      Shows m asMemoryview arrayBlobTypes d.fields[i] vs[i] (ds i))
    (isDict : IsDictOf d ds data) :
    Shows m asMemoryview arrayBlobTypes f (.object (d.fields.map FieldDef.name) vs) data

def ShowsMessage (m : MsgDef) (asMemoryview : Bool) (arrayBlobTypes : List RosValueType) (vs : List Value)
    (data : PyData) : Prop :=
  ∃ ds : ℕ → PyData, IsDictOf m.toBaseMsgDef ds data ∧
    ∀ i (hf : i < m.fields.length) (hv : i < vs.length), Shows m asMemoryview arrayBlobTypes m.fields[i] vs[i] (ds i)

end PyData

/-- The names of the fields are ASCII, as the grammar has them, and have no zero byte, at which a C string
ends. -/
def MsgDef.PlainNames (m : MsgDef) : Prop := ∀ d, m.Has d → ∀ f ∈ d.fields, ∀ c ∈ f.name, c ≠ 0 ∧ isAscii c

theorem MsgDef.PlainNames.notMem {m : MsgDef} (h : m.PlainNames) {d : BaseMsgDef} (hd : m.Has d) :
    ∀ f ∈ d.fields, 0 ∉ f.name := fun f hf hzero => (h d hd f hf 0 hzero).1 rfl

theorem BaseMsgDef.map_fst_namedFields (d : BaseMsgDef) : d.namedFields.map Prod.fst = d.fields.map FieldDef.name := by
  have hfields := congrArg (List.map FieldDef.name) (List.zipIdx_map_fst 0 d.fields)
  rw [namedFields, List.map_map]
  rwa [List.map_map] at hfields

namespace PyData

/-- `dict[key] = value` for one entry after the other, where `key` is a `c_str()` -/
def ofEntries (entries : List (Bytes × PyData)) : PyData :=
  let items := entries.foldl (fun items entry => setItem items (cStr entry.1) entry.2) []
  .dict (items.map Prod.fst) (items.map Prod.snd)

mutual

/-- The data with all their dictionaries as Python has them. -/
def assigned : PyData → PyData
  | .cast o => .cast o
  | .bytes data => .bytes data
  | .memoryview format itemsize data => .memoryview format itemsize data
  | .list elements => .list (assignedList elements)
  | .dict keys values => ofEntries (keys.zip (assignedList values))

def assignedList : List PyData → List PyData
  | [] => []
  | data :: rest => assigned data :: assignedList rest

end

theorem assignedList_eq {elements : List PyData} (h : ∀ data ∈ elements, data.assigned = data) :
    assignedList elements = elements := by
  induction elements with
  | nil => rfl
  | cons data rest ih =>
    rw [List.forall_mem_cons] at h
    rw [assignedList, h.1, ih h.2]

theorem foldl_setItem {entries items : List (Bytes × PyData)} (hnul : ∀ entry ∈ entries, 0 ∉ entry.1)
    (hnd : ((items ++ entries).map Prod.fst).Nodup) :
    entries.foldl (fun items entry => setItem items (cStr entry.1) entry.2) items = items ++ entries := by
  induction entries generalizing items with
  | nil => exact (List.append_nil items).symm
  | cons entry entries ih =>
    rw [List.forall_mem_cons] at hnul
    have hnew : entry.1 ∉ items.map Prod.fst := by
      rw [List.map_append, List.nodup_append'] at hnd
      exact fun hmem => hnd.2.2 hmem List.mem_cons_self
    rw [List.append_cons] at hnd ⊢
    rw [List.foldl_cons, cStr_of_notMem hnul.1, setItem_of_notMem _ hnew]
    exact ih hnul.2 hnd

theorem IsDictOf.assigned_eq {d : BaseMsgDef} {ds : ℕ → PyData} {data : PyData} (h : data.IsDictOf d ds)
    (hnd : (d.fields.map FieldDef.name).Nodup) (hnul : ∀ f ∈ d.fields, 0 ∉ f.name)
    (hds : ∀ i < d.fields.length, (ds i).assigned = ds i) : data.assigned = data := by
  obtain ⟨entries, hperm, rfl⟩ := h
  have hentry : ∀ entry ∈ entries, ∃ (i : ℕ) (hi : i < d.fields.length), entry = (d.fields[i].name, ds i) := by
    intro entry hentry
    obtain ⟨⟨name, i⟩, hfield, rfl⟩ := List.mem_map.1 (hperm.mem_iff.1 hentry)
    obtain ⟨hi, rfl⟩ := BaseMsgDef.mem_namedFields.1 hfield
    exact ⟨i, hi, rfl⟩
  have hvalues : assignedList (entries.map Prod.snd) = entries.map Prod.snd := by
    refine assignedList_eq fun data hdata => ?_
    obtain ⟨entry, hmem, rfl⟩ := List.mem_map.1 hdata
    obtain ⟨i, hi, rfl⟩ := hentry entry hmem
    exact hds i hi
  have hkeys : (entries.map Prod.fst).Nodup := by
    have hnames := hperm.map Prod.fst
    rw [List.map_map] at hnames
    refine hnames.nodup_iff.2 ?_
    show (d.namedFields.map Prod.fst).Nodup
    rwa [BaseMsgDef.map_fst_namedFields]
  have hzero : ∀ entry ∈ entries, 0 ∉ entry.1 := by
    intro entry hmem
    obtain ⟨i, hi, rfl⟩ := hentry entry hmem
    exact hnul _ (List.getElem_mem hi)
  rw [assigned, hvalues, ← List.unzip_fst, ← List.unzip_snd, List.zip_unzip, ofEntries,
    foldl_setItem hzero (by rwa [List.nil_append]), List.nil_append, List.unzip_fst, List.unzip_snd]

theorem Shows.assigned_eq {m : MsgDef} {mv : Bool} {types : List RosValueType} {f : FieldDef} {v : Value}
    {data : PyData} (h : data.Shows m mv types f v) (hdist : m.DistinctFields) (hnames : m.PlainNames) :
    data.assigned = data := by
  induction h with
  | scalar | string => rfl
  | numbers _ _ _ data_eq =>
    unfold ofNumbers at data_eq
    split_ifs at data_eq
    · obtain ⟨itemsize, -, hrest⟩ := bind_eq_ok.1 data_eq
      obtain ⟨format, -, hdata⟩ := bind_eq_ok.1 hrest
      cases hdata
      rfl
    · cases data_eq
      rfl
    · cases data_eq
      rw [assigned, assignedList_eq]
      intro data hdata
      obtain ⟨x, -, rfl⟩ := List.mem_map.1 hdata
      rfl
  | @list _ _ vs ds _ _ _ ih =>
    rw [assigned, assignedList_eq]
    intro data hdata
    obtain ⟨i, hi, rfl⟩ := List.mem_map.1 hdata
    exact ih i (List.mem_range.1 hi)
  | @dict _ d vs _ ds _ definition length _ isDict ih =>
    have hhas := MsgDef.has_of_typeDefinition definition
    exact isDict.assigned_eq (hdist d (Or.inr (MessageParser.mem_of_typeDefinition definition)))
      (hnames.notMem hhas) fun i hi => ih i hi (length.symm ▸ hi)

theorem ShowsMessage.assigned_eq {m : MsgDef} {mv : Bool} {types : List RosValueType} {vs : List Value}
    {data : PyData} (h : data.ShowsMessage m mv types vs) (hdist : m.DistinctFields) (hnames : m.PlainNames)
    (hlength : vs.length = m.fields.length) : data.assigned = data := by
  obtain ⟨ds, isDict, fields⟩ := h
  exact isDict.assigned_eq (hdist _ (Or.inl rfl)) (hnames.notMem (Or.inl rfl))
    fun i hi => (fields i hi (hlength.symm ▸ hi)).assigned_eq hdist hnames

end PyData

def RosMessage.dict (values : List RosValue) (asMemoryview : Bool) (fuel : ℕ) (arrayBlobTypes : List RosValueType) :
    Except Fault PyData :=
  (messageDict values asMemoryview fuel arrayBlobTypes).map PyData.assigned

section Conversion

variable {base : List RosValue} {buffer : Bytes} {q : Pointer} {c n fuel : ℕ} {ds : ℕ → PyData}
  {mv : Bool} {types : List RosValueType}

/-- An array of numbers is a list of them, or a block of bytes that `at` of the buffer has to find. -/
theorem rosValueToPyData_numbers {type : RosValueType} {o w : ℕ} {xs : List Scalar}
    (hq : q.deref base = .ok (.primitiveArray type o xs.length buffer)) (hw : primitiveTypeToSize type = .ok w)
    (hxs : ∀ x ∈ xs, x.type = type) (occurs : OccursAt (xs.flatMap Scalar.toBytes) buffer o)
    (ho : type ∈ types → o < buffer.length) :
    rosValueToPyData base mv (fuel + 2) types q = PyData.ofNumbers mv types type xs := by
  have hread := readRaw_numbers hw hxs occurs
  rw [rosValueToPyData, hq, ok_bind, PyData.ofNumbers]
  simp only [RosValue.getType_primitiveArray, primitiveArrayToPyObject, hq, ok_bind, RosValue.getElementType]
  by_cases hblob : type ∈ types
  · rw [if_pos hblob, if_pos hblob]
    have hbuffer : (RosValue.primitiveArray type o xs.length buffer).getPrimitiveArrayRosValueBuffer base =
        .ok (buffer, o) := by
      rw [primitiveArrayBuffer_eq hw, atIndex_of_lt (ho hblob)]
      rfl
    have hne : type ≠ .string := by
      rintro rfl
      cases hw
    obtain ⟨format, hformat⟩ := exists_primitiveTypeToFormat hw
    by_cases hmv : mv
    · rw [if_pos hmv, if_pos hmv, bufferInfo, RosValue.getElementType, ok_bind, if_neg hne, hw, ok_bind, hbuffer]
      simp only [hformat, RosValue.size, hread, ok_bind]
    · rw [if_neg hmv, if_neg hmv, RosValue.primitiveArrayBytes, hbuffer, ok_bind,
        RosValue.getPrimitiveArrayRosValueBufferSize, hw, ok_bind]
      simp only [pure_bind, hread]
      rfl
  · have hvalues : (RosValue.primitiveArray type o xs.length buffer).getValues =
        .ok ((List.range xs.length).map (numberAt buffer type o w)) :=
      RosValue.getValues_of_at rfl rfl fun i _ => Represents.at_of_numbers hw i
    rw [if_neg hblob, if_neg hblob, rosValueToList, hq, ok_bind, if_neg (by simp), hvalues, ok_bind,
      mapM_numberAt hw hxs occurs]
    rfl

theorem rosValueToPyData_scalar {s : Scalar} {o : ℕ}
    (hq : q.deref base = .ok (.primitive s.type ⟨o, some buffer⟩)) (occurs : OccursAt s.toBytes buffer o) :
    rosValueToPyData base mv (fuel + 1) types q = .ok (.cast (.scalar s)) := by
  have hreads := (@Decodes.scalar _ base 0 _ _ occurs).reads
  rw [rosValueToPyData_of_leaf hq s.isContainer_type,
    castValue_of_scalar hq s.isContainer_type s.type_ne_string hreads]
  rfl

theorem rosValueToPyData_string {s : Bytes} {o : ℕ} (hq : q.deref base = .ok (.primitive .string ⟨o, some buffer⟩))
    (bound : s.length < 2 ^ 32) (occurs : OccursAt (le 4 s.length ++ s) buffer o) :
    rosValueToPyData base mv (fuel + 1) types q = .ok (.cast (.str s)) := by
  have hreads := (@Decodes.string _ base 0 _ _ bound occurs).reads
  rw [rosValueToPyData_of_leaf hq rfl, castValue_of_string hq rfl hreads]
  rfl

theorem rosValueToPyData_array (hq : q.deref base = .ok (.array ⟨c, n⟩))
    (h : ∀ i < n, rosValueToPyData base mv fuel types (.slot (c + i)) = .ok (ds i)) :
    rosValueToPyData base mv (fuel + 1) types q = .ok (.list ((List.range n).map ds)) := by
  have hvalues : (RosValue.array ⟨c, n⟩).getValues = .ok ((List.range n).map fun i => .slot (c + i)) :=
    RosValue.getValues_of_at rfl rfl fun i hi => RosValueList.at_of_lt hi
  have helements : ((List.range n).map fun i => Pointer.slot (c + i)).mapM (rosValueToPyData base mv fuel types) =
      .ok ((List.range n).map ds) := by
    rw [List.mapM_map]
    apply mapM_eq_map
    intro i hi
    exact h i (List.mem_range.1 hi)
  simp only [rosValueToPyData, rosValueToList, hq, ok_bind, RosValue.getType_array, hvalues, helements]
  rfl

theorem rosValueToPyData_object {d : BaseMsgDef} (hnd : (d.fields.map FieldDef.name).Nodup)
    (hq : q.deref base = .ok (.object ⟨c, d.fields.length⟩ d.fieldIndexes))
    (h : ∀ i < d.fields.length, rosValueToPyData base mv fuel types (.slot (c + i)) = .ok (ds i)) :
    ∃ data, rosValueToPyData base mv (fuel + 1) types q = .ok data ∧ data.IsDictOf d ds := by
  have hlt : ∀ e ∈ d.fieldIndexes.entries, e.2 < d.fields.length :=
    fun e he => lt_of_lookup_fieldIndexes (AList.mem_lookup_iff.2 he)
  have hobjects : (RosValue.object ⟨c, d.fields.length⟩ d.fieldIndexes).getObjects =
      .ok (d.fieldIndexes.entries.map fun e => (e.1, .slot (c + e.2))) := by
    apply mapM_eq_map
    intro e he
    rw [RosValue.at, RosValueList.at_of_lt (hlt e he)]
    rfl
  have hvalues : ((d.fieldIndexes.entries.map fun e => (e.1, Pointer.slot (c + e.2))).map Prod.snd).mapM
      (rosValueToPyData base mv fuel types) = .ok (d.fieldIndexes.entries.map fun e => ds e.2) := by
    rw [List.map_map, List.mapM_map]
    apply mapM_eq_map
    intro e he
    exact h e.2 (hlt e he)
  refine ⟨.dict ((d.fieldIndexes.entries.map fun e => (e.1, Pointer.slot (c + e.2))).map Prod.fst)
    (d.fieldIndexes.entries.map fun e => ds e.2), ?_, d.fieldIndexes.entries.map fun e => (e.1, ds e.2), ?_, ?_⟩
  · simp only [rosValueToPyData, rosValueToDict, hq, ok_bind, RosValue.getType_object, hobjects, hvalues]
    rfl
  · have hperm := (BaseMsgDef.perm_namedFields hnd).map fun field => (field.1, ds field.2)
    rwa [List.map_map] at hperm
  · rw [List.map_map, List.map_map, List.map_map]
    rfl

end Conversion

section Messages

variable {m : MsgDef} {buffer : Bytes} {base : List RosValue} {low : ℕ} {f : FieldDef} {shape : Shape}
  {x : RosValue} {v : Value} {q : Pointer}

section Shown

variable {c k : ℕ} {mv : Bool} {types : List RosValueType}

theorem exists_shows_object {d : BaseMsgDef} {vs : List Value} (size : f.arraySize = 0)
    (definition : m.typeDefinition f = .ok d) (hnd : (d.fields.map FieldDef.name).Nodup)
    (hlength : vs.length = d.fields.length)
    (hq : q.deref base = .ok (.object ⟨c, d.fields.length⟩ d.fieldIndexes))
    (h : ∀ i (hf : i < d.fields.length) (hv : i < vs.length), ∃ data,
      rosValueToPyData base mv k types (.slot (c + i)) = .ok data ∧ data.Shows m mv types d.fields[i] vs[i]) :
    ∃ data, rosValueToPyData base mv (k + 1) types q = .ok data ∧
      data.Shows m mv types f (.object (d.fields.map FieldDef.name) vs) := by
  have hchild : ∀ i < d.fields.length, ∃ data, rosValueToPyData base mv k types (.slot (c + i)) = .ok data ∧
      ∀ (hf : i < d.fields.length) (hv : i < vs.length), data.Shows m mv types d.fields[i] vs[i] := by
    intro i hi
    obtain ⟨data, hdata, hshows⟩ := h i hi (hlength ▸ hi)
    exact ⟨data, hdata, fun _ _ => hshows⟩
  choose! ds hds hshows using hchild
  obtain ⟨data, hdata, hdict⟩ := rosValueToPyData_object hnd hq hds
  exact ⟨data, hdata, .dict ds size definition hlength (fun i hf hv => hshows i hf hf hv) hdict⟩

theorem exists_shows_array {dynamic : Bool} {vs : List Value} (size : f.arraySize ≠ 0)
    (type : f.type = .object ∨ f.type = .string) (hq : q.deref base = .ok (.array ⟨c, vs.length⟩))
    (h : ∀ i (hv : i < vs.length), ∃ data,
      rosValueToPyData base mv k types (.slot (c + i)) = .ok data ∧ data.Shows m mv types f.element vs[i]) :
    ∃ data, rosValueToPyData base mv (k + 1) types q = .ok data ∧ data.Shows m mv types f (.array dynamic vs) := by
  have hchild : ∀ i < vs.length, ∃ data, rosValueToPyData base mv k types (.slot (c + i)) = .ok data ∧
      ∀ (hv : i < vs.length), data.Shows m mv types f.element vs[i] := by
    intro i hi
    obtain ⟨data, hdata, hshows⟩ := h i hi
    exact ⟨data, hdata, fun _ => hshows⟩
  choose! ds hds hshows using hchild
  exact ⟨_, rosValueToPyData_array hq hds, .list ds size type fun i hv => hshows i hv hv⟩

theorem exists_shows_numbers {o w : ℕ} {dynamic : Bool} {xs : List Scalar} (size : f.arraySize ≠ 0)
    (hw : primitiveTypeToSize f.type = .ok w) (hxs : ∀ x ∈ xs, x.type = f.type)
    (occurs : OccursAt (xs.flatMap Scalar.toBytes) buffer o)
    (hq : q.deref base = .ok (.primitiveArray f.type o xs.length buffer))
    (hr : types ≠ [] → (buffer.length, buffer.length) ≠ (o, o + xs.length * w)) :
    ∃ data, rosValueToPyData base mv (k + 2) types q = .ok data ∧
      data.Shows m mv types f (.array dynamic (xs.map .scalar)) := by
  have ho : f.type ∈ types → o < buffer.length := by
    intro htypes
    have hend := occurs.add_length_le
    have hnot := hr (List.ne_nil_of_mem htypes)
    rw [length_flatMap_toBytes hw hxs] at hend
    rw [Ne, Prod.mk.injEq] at hnot
    omega
  obtain ⟨data, hdata⟩ := PyData.exists_ofNumbers hw mv types xs
  refine ⟨data, ?_, .numbers size hw hxs hdata⟩
  rw [rosValueToPyData_numbers hq hw hxs occurs ho, hdata]

end Shown

/-- What a decoded value becomes is the value; no array that is to be a block of bytes may be empty at the
end of the buffer. -/
theorem HasShape.exists_shows (h : HasShape m f shape) (hx : Represents buffer base low x shape)
    (hv : Holds (fun d => (d.fields.map FieldDef.name).Nodup) buffer shape v)
    {types : List RosValueType} (hr : types ≠ [] → (buffer.length, buffer.length) ∉ shape.regions)
    (hq : q.deref base = .ok x) {fuel : ℕ} (hfuel : v.height < fuel) (mv : Bool) :
    ∃ data, rosValueToPyData base mv fuel types q = .ok data ∧ data.Shows m mv types f v := by
  induction h generalizing x v q fuel with
  | scalar size width =>
    obtain ⟨k, rfl⟩ : ∃ k, fuel = k + 1 := ⟨fuel - 1, by omega⟩
    cases hx
    generalize htype : FieldDef.type _ = type at hv hq
    cases hv with
    | @scalar s _ occurs => exact ⟨.cast (.scalar s), rosValueToPyData_scalar hq occurs, .scalar s size htype⟩
  | string size type =>
    obtain ⟨k, rfl⟩ : ∃ k, fuel = k + 1 := ⟨fuel - 1, by omega⟩
    cases hx
    cases hv with
    | @string s _ bound occurs =>
      exact ⟨.cast (.str s), rosValueToPyData_string hq bound occurs, .string s size type⟩
  | @object f d ss size definition hfields _ ih =>
    cases hx with
    | @object c _ _ xs _ _ slots children =>
      cases hv with
      | @object _ _ vs hlength hnd values =>
        rw [Value.height] at hfuel
        obtain ⟨k, rfl⟩ : ∃ k, fuel = k + 1 := ⟨fuel - 1, by omega⟩
        rw [← hfields] at hq
        refine exists_shows_object size definition hnd (by omega) hq fun i hi hvs => ?_
        have hs : i < ss.length := by omega
        have hheight := Value.height_le_of_mem (List.getElem_mem hvs)
        exact ih i hi hs (children i hs) (values i hs hvs)
          (fun htypes h => hr htypes (mem_regionsOf.2 ⟨ss[i], List.getElem_mem hs, h⟩)) (deref_slot (slots i hs))
          (by omega)
  | @array f ss size type _ ih =>
    cases hx with
    | @array c _ xs _ slots children =>
      cases hv with
      | @array _ _ vs hlength values =>
        rw [Value.height] at hfuel
        obtain ⟨k, rfl⟩ : ∃ k, fuel = k + 1 := ⟨fuel - 1, by omega⟩
        rw [hlength] at hq
        refine exists_shows_array size type hq fun i hvs => ?_
        have hs : i < ss.length := by omega
        have hheight := Value.height_le_of_mem (List.getElem_mem hvs)
        exact ih i hs (children i hs) (values i hs hvs)
          (fun htypes h => hr htypes (mem_regionsOf.2 ⟨ss[i], List.getElem_mem hs, h⟩)) (deref_slot (slots i hs))
          (by omega)
  | @numbers f o n w size width =>
    cases hx
    generalize htype : f.type = type at hv hq
    cases hv with
    | @numbers _ _ _ dynamic xs hw hxs occurs =>
      subst htype
      rw [Value.height] at hfuel
      obtain ⟨k, rfl⟩ : ∃ k, fuel = k + 2 := ⟨fuel - 2, by omega⟩
      refine exists_shows_numbers size hw hxs occurs hq fun htypes => ?_
      have hnot := hr htypes
      rwa [Shape.regions, List.mem_singleton] at hnot

theorem MessageParser.exists_messageDict {p : MessageParser} (hresolved : p.msgDef.Resolved)
    (hdist : p.msgDef.DistinctFields) {vs : List Value} (hmsg : IsMessage p.msgDef p.msgDef.toBaseMsgDef vs)
    {offset fuel : ℕ} (hdepth : depthList vs < fuel) (hheight : heightList vs < fuel)
    (hocc : OccursAt (encodeList vs) p.messageBuffer offset)
    (mv : Bool) {types : List RosValueType}
    (hend : types ≠ [] → p.messageBuffer.length = offset + (encodeList vs).length →
      ¬ MessageEndsInEmptyArray p.msgDef vs) :
    ∃ s data, p.parse offset fuel = .ok s ∧ messageDict s.rosValues mv fuel types = .ok data ∧
      data.ShowsMessage p.msgDef mv types vs := by
  obtain ⟨s, c, ss, hs, hroot, hlength, ⟨_, hshape⟩, xs, slots, hfields⟩ :=
    exists_shaped _ hresolved (fun key d hkey => hdist d (Or.inr ⟨key, hkey⟩)) (hdist _ (Or.inl rfl)) hmsg hdepth hocc
  have hr : types ≠ [] →
      (p.messageBuffer.length, p.messageBuffer.length) ∉ (Shape.object p.msgDef.toBaseMsgDef ss).regions := by
    intro htypes
    rw [mem_regions_message hmsg hdepth hocc hshape, not_and]
    exact hend htypes
  have hfield : ∀ i < p.msgDef.fields.length, ∃ data,
      rosValueToPyData s.rosValues mv fuel types (.slot (c + i)) = .ok data ∧
        ∀ (hf : i < p.msgDef.fields.length) (hv : i < vs.length),
          data.Shows p.msgDef mv types p.msgDef.fields[i] vs[i] := by
    intro i hi
    have hv : i < vs.length := hmsg.length.symm ▸ hi
    have hi' : i < ss.length := hlength.symm ▸ hv
    obtain ⟨hshaped, hrep, hholds⟩ := hfields i hi hi' hv
    have hheight' := Value.height_le_of_mem (List.getElem_mem hv)
    obtain ⟨data, hdata, hshows⟩ := hshaped.exists_shows hrep hholds
      (fun htypes h => hr htypes (mem_regionsOf.2 ⟨ss[i], List.getElem_mem hi', h⟩)) (deref_slot (slots i hv))
      (show vs[i].height < fuel by omega) mv
    exact ⟨data, hdata, fun _ _ => hshows⟩
  choose! ds hds hshows using hfield
  have hobject := deref_slot hroot
  rw [hmsg.length] at hobject
  obtain ⟨data, hdata, hdict⟩ := rosValueToPyData_object (hdist _ (Or.inl rfl)) hobject hds
  refine ⟨s, data, hs, ?_, ds, hdict, fun i hf hv => hshows i hf hf hv⟩
  rw [messageDict_of_object hroot, hdata]

end Messages

/-! ### Subscripts -/

/-- `getField`, which is behind `v[key]` and `v.key` -/
def getField (base : List RosValue) (v : RosValue) (fieldName : Bytes) : Except Fault PyObject :=
  if v.getType ≠ .object then .error (.runtimeError (bytes "Can only getField on an object"))
  else do castValue base (← v.get fieldName)

def getItem (base : List RosValue) (v : RosValue) : Access → Except Fault PyObject
  | .key name => getField base v name
  | .index i => getIndex base v i

/-- Subscripts, one after the other, lead from one object to another. -/
inductive PyObject.Leads (base : List RosValue) : PyObject → List Access → PyObject → Prop
  | refl (o : PyObject) : Leads base o [] o
  | step {q : Pointer} {v : RosValue} {a : Access} {path : List Access} {o o' : PyObject}
    (deref : q.deref base = .ok v) (item : getItem base v a = .ok o) (rest : Leads base o path o') :
    Leads base (.value q) (a :: path) o'

/-- What a subscript leads to: only objects have keys, and only arrays indices. -/
def Value.item : Value → Access → Option Value
  | .object names fields, .key name => (Value.object names fields).child (.key name)
  | .array _ elements, .index i => elements[i]?
  | _, _ => none

theorem Value.item_key {d : BaseMsgDef} (hnd : (d.fields.map FieldDef.name).Nodup) (vs : List Value) {i : ℕ}
    (hi : i < d.fields.length) :
    (Value.object (d.fields.map FieldDef.name) vs).item (.key d.fields[i].name) = vs[i]? := by
  have hidx : (d.fields.map FieldDef.name).idxOf? d.fields[i].name = some i := by
    refine List.idxOf?_eq_some_iff.2 ⟨by simpa using hi, List.getElem_map _, fun j hj heq => ?_⟩
    rw [← List.getElem_map FieldDef.name (h := by simpa using hi), hnd.getElem_inj_iff] at heq
    omega
  rw [Value.item, Value.child, hidx, Option.bind_some]

namespace PyData

def child : PyData → Access → Option PyData
  | .dict keys values, .key name => (keys.zip values).lookup name
  | .list elements, .index i => elements[i]?
  | _, _ => none

def follow (data : PyData) : List Access → Option PyData
  | [] => some data
  | a :: path => (data.child a).bind (·.follow path)

variable {m : MsgDef} {mv : Bool} {types : List RosValueType} {f : FieldDef} {v : Value} {data x : PyData}
  {a : Access}

theorem IsDictOf.child {d : BaseMsgDef} {ds : ℕ → PyData} (h : data.IsDictOf d ds) (hx : data.child a = some x) :
    ∃ (i : ℕ) (hi : i < d.fields.length), a = .key d.fields[i].name ∧ x = ds i := by
  obtain ⟨entries, hperm, rfl⟩ := h
  cases a with
  | index i => cases hx
  | key name =>
    rw [PyData.child, ← List.unzip_fst, ← List.unzip_snd, List.zip_unzip] at hx
    obtain ⟨before, after, rfl, -⟩ := List.lookup_eq_some_iff.1 hx
    obtain ⟨⟨name', i⟩, hfield, heq⟩ := List.mem_map.1 (hperm.mem_iff.1 (List.mem_append_right _ List.mem_cons_self))
    cases heq
    obtain ⟨hi, rfl⟩ := BaseMsgDef.mem_namedFields.1 hfield
    exact ⟨i, hi, rfl, rfl⟩

theorem Shows.child (h : data.Shows m mv types f v) (hdist : m.DistinctFields) (hx : data.child a = some x) :
    ∃ f' w, v.item a = some w ∧ x.Shows m mv types f' w := by
  cases h with
  | scalar | string => cases hx
  | @numbers _ _ _ xs _ _ _ htypes data_eq =>
    unfold ofNumbers at data_eq
    split_ifs at data_eq
    · obtain ⟨itemsize, -, hrest⟩ := bind_eq_ok.1 data_eq
      obtain ⟨format, -, hdata⟩ := bind_eq_ok.1 hrest
      cases hdata
      cases hx
    · cases data_eq
      cases hx
    · cases data_eq
      cases a with
      | key name => cases hx
      | index i =>
        rw [PyData.child, List.getElem?_map, Option.map_eq_some_iff] at hx
        obtain ⟨s, hs, rfl⟩ := hx
        refine ⟨f.element, .scalar s, ?_, .scalar s f.arraySize_element (htypes s (List.mem_of_getElem? hs)).symm⟩
        rw [Value.item, List.getElem?_map, hs]
        rfl
  | @list _ _ vs ds _ type elements =>
    cases a with
    | key name => cases hx
    | index i =>
      rw [PyData.child, List.getElem?_map, Option.map_eq_some_iff] at hx
      obtain ⟨j, hj, rfl⟩ := hx
      obtain ⟨hi, rfl⟩ := List.getElem?_eq_some_iff.1 hj
      rw [List.length_range] at hi
      rw [List.getElem_range]
      exact ⟨f.element, vs[i], List.getElem?_eq_getElem hi, elements i hi⟩
  | @dict _ d vs _ ds _ definition length fields isDict =>
    obtain ⟨i, hi, rfl, rfl⟩ := isDict.child hx
    have hv : i < vs.length := length.symm ▸ hi
    refine ⟨d.fields[i], vs[i], ?_, fields i hi hv⟩
    rw [Value.item_key (hdist d (Or.inr (MessageParser.mem_of_typeDefinition definition))) _ hi]
    exact List.getElem?_eq_getElem hv

end PyData

section Subscripts

variable {m : MsgDef} {buffer : Bytes} {base : List RosValue} {low : ℕ} {f : FieldDef} {x : RosValue} {v w : Value}
  {q : Pointer} {mv : Bool} {types : List RosValueType} {data : PyData} {o : PyObject}

theorem Value.child_of_item {a : Access} (h : v.item a = some w) : v.child a = some w := by
  cases v <;> cases a <;> first | exact h | cases h

theorem Decodes.getItem {a : Access} (h : Decodes buffer base low x v) (hw : v.item a = some w) :
    ∃ r y, Embag.getItem base x a = castValue base r ∧ r.deref base = .ok y ∧ Decodes buffer base low y w := by
  obtain ⟨r, y, haccess, hr, hd⟩ := h.access (Value.child_of_item hw)
  refine ⟨r, y, ?_, hr, hd⟩
  cases h with
  | scalar | string => cases a <;> cases hw
  | primitiveArray | array =>
    cases a with
    | key name => cases hw
    | index i =>
      rw [RosValue.access] at haccess
      rw [Embag.getItem, getIndex_of_array (by simp), haccess, ok_bind]
  | object =>
    cases a with
    | index i => cases hw
    | key name =>
      rw [RosValue.access] at haccess
      rw [Embag.getItem, getField, if_neg (by simp), haccess, ok_bind]

theorem Decodes.isContainer {a : Access} (h : Decodes buffer base low x v) (hw : v.item a = some w) :
    x.getType.isContainer = true := by
  cases h with
  | scalar | string => cases a <;> cases hw
  | primitiveArray | array | object => rfl

theorem Decodes.castValue (h : Decodes buffer base low x v) (hq : q.deref base = .ok x)
    (hshows : (PyData.cast o).Shows m mv types f v) : Embag.castValue base q = .ok o := by
  have hreads := h.reads
  cases hshows with
  | scalar s =>
    cases h
    exact castValue_of_scalar hq s.isContainer_type s.type_ne_string hreads
  | string s =>
    cases h
    exact castValue_of_string hq rfl hreads
  | numbers _ _ _ data_eq => exact absurd data_eq PyData.ofNumbers_ne_cast
  | dict ds _ _ _ _ isDict =>
    obtain ⟨_, -, hdata⟩ := isDict
    cases hdata

theorem Decodes.leads (hdist : m.DistinctFields) (h : Decodes buffer base low x v) (hq : q.deref base = .ok x)
    (hshows : data.Shows m mv types f v) {path : List Access} (hfollow : data.follow path = some (.cast o)) :
    ∃ o', Embag.castValue base q = .ok o' ∧ PyObject.Leads base o' path o := by
  induction path generalizing q x v f data with
  | nil =>
    cases hfollow
    exact ⟨o, h.castValue hq hshows, .refl o⟩
  | cons a path ih =>
    obtain ⟨data', hdata, hrest⟩ := Option.bind_eq_some_iff.1 hfollow
    obtain ⟨f', w, hw, hshows'⟩ := hshows.child hdist hdata
    obtain ⟨r, y, hitem, hr, hd⟩ := h.getItem hw
    obtain ⟨o', ho', hleads⟩ := ih hd hr hshows' hrest
    exact ⟨.value q, castValue_of_container hq (h.isContainer hw), .step hq (hitem.trans ho') hleads⟩

theorem PyData.ShowsMessage.leads {fieldIndexes : FieldIndexes} {c : RosValueList} {vs : List Value}
    (hshows : data.ShowsMessage m mv types vs) (hdist : m.DistinctFields) (hlength : vs.length = m.fields.length)
    (hx : base[0]? = some (.object c fieldIndexes))
    (h : Decodes buffer base low (.object c fieldIndexes) (.object (m.fields.map FieldDef.name) vs))
    {path : List Access} (hfollow : data.follow path = some (.cast o)) :
    PyObject.Leads base (.value (.slot 0)) path o := by
  obtain ⟨ds, hdict, hfields⟩ := hshows
  cases path with
  | nil =>
    obtain ⟨_, -, rfl⟩ := hdict
    cases hfollow
  | cons a path =>
    obtain ⟨data', hdata, hrest⟩ := Option.bind_eq_some_iff.1 hfollow
    obtain ⟨i, hi, rfl, rfl⟩ := hdict.child hdata
    have hv : i < vs.length := hlength.symm ▸ hi
    have hitem := Value.item_key (hdist _ (Or.inl rfl)) vs hi
    rw [List.getElem?_eq_getElem hv] at hitem
    obtain ⟨r, y, hget, hr, hd⟩ := h.getItem hitem
    obtain ⟨o', ho', hleads⟩ := hd.leads hdist hr (hfields i hi hv) hrest
    exact .step (deref_slot hx) (hget.trans ho') hleads

end Subscripts

/-- A message is parsed into a vector of which `dict` makes the values, and subscripts the same numbers and texts. -/
theorem MessageParser.exists_messageDict_leads {p : MessageParser} (hresolved : p.msgDef.Resolved)
    (hdist : p.msgDef.DistinctFields) {vs : List Value} (hmsg : IsMessage p.msgDef p.msgDef.toBaseMsgDef vs)
    {offset fuel : ℕ} (hdepth : depthList vs < fuel) (hheight : heightList vs < fuel)
    (hocc : OccursAt (encodeList vs) p.messageBuffer offset) :
    ∃ s c fieldIndexes, p.parse offset fuel = .ok s ∧ s.rosValues[0]? = some (.object c fieldIndexes) ∧
      ∀ mv types, (types ≠ [] → p.messageBuffer.length = offset + (encodeList vs).length →
          ¬ MessageEndsInEmptyArray p.msgDef vs) →
        ∃ data, messageDict s.rosValues mv fuel types = .ok data ∧ data.ShowsMessage p.msgDef mv types vs ∧
          ∀ path o, data.follow path = some (.cast o) → PyObject.Leads s.rosValues (.value (.slot 0)) path o := by
  obtain ⟨s, hs, -, low, x, hx, hd⟩ := p.parse_inits hresolved hdist hmsg hdepth hocc
  have hroot : ∃ c fieldIndexes, x = .object c fieldIndexes := by
    cases hd
    exact ⟨_, _, rfl⟩
  obtain ⟨c, fieldIndexes, rfl⟩ := hroot
  refine ⟨s, c, fieldIndexes, hs, hx, fun mv types hend => ?_⟩
  obtain ⟨s', data, hs', hdata, hshows⟩ := exists_messageDict hresolved hdist hmsg hdepth hheight hocc mv hend
  rw [hs] at hs'
  cases hs'
  exact ⟨data, hdata, hshows, fun path o hfollow => hshows.leads hdist hmsg.length hx hd hfollow⟩

theorem not_endsInEmptyArray_of_bytes {m : MsgDef} {vs : List Value} {pre suf : Bytes} {types : List RosValueType}
    (hend : types = [] ∨ suf ≠ [] ∨ ¬ MessageEndsInEmptyArray m vs) (htypes : types ≠ [])
    (hlength : (pre ++ encodeList vs ++ suf).length = pre.length + (encodeList vs).length) :
    ¬ MessageEndsInEmptyArray m vs := by
  rw [List.length_append, List.length_append, Nat.add_eq_left, List.length_eq_zero_iff] at hlength
  exact (hend.resolve_left htypes).resolve_left (not_not.2 hlength)

/-- `dict` of a message has its values, whatever bytes are before and behind it and whichever types it is asked
to make blocks of bytes of, and subscripts of the message lead to the same numbers and texts. A block wants a
byte where it starts, also that of an empty array. -/
theorem messageDict_shows {info : MsgDefInfo} {name : Bytes} {m : MsgDef} (hm : MsgDef.ofInfo info name = .ok m)
    (hdist : m.DistinctFields) (hnames : m.PlainNames) {vs : List Value} (hmsg : IsMessage m m.toBaseMsgDef vs)
    (pre : Bytes) {suf : Bytes} (mv : Bool) {types : List RosValueType} (hend : types = [] ∨ suf ≠ [] ∨ ¬ MessageEndsInEmptyArray m vs) :
    ∃ bound, ∀ fuel ≥ bound, ∃ s data,
      MessageParser.parse ⟨pre ++ encodeList vs ++ suf, m⟩ pre.length fuel = .ok s ∧
      RosMessage.dict s.rosValues mv fuel types = .ok data ∧ data.ShowsMessage m mv types vs ∧
      ∀ path o, data.follow path = some (.cast o) →
        PyObject.Leads s.rosValues (.value (.slot 0)) path o := by
  refine ⟨depthList vs + heightList vs + 1, fun fuel hfuel => ?_⟩
  obtain ⟨s, c, fieldIndexes, hs, -, hdict⟩ :=
    MessageParser.exists_messageDict_leads (p := ⟨pre ++ encodeList vs ++ suf, m⟩)
      (MsgDef.builtFrom_of_ofInfo hm).resolved hdist hmsg (show depthList vs < fuel by omega) (by omega)
      (occursAt_of_append pre (encodeList vs) suf)
  obtain ⟨data, hdata, hshows, hleads⟩ := hdict mv types (not_endsInEmptyArray_of_bytes hend)
  refine ⟨s, data, hs, ?_, hshows, hleads⟩
  rw [RosMessage.dict, hdata]
  exact congrArg Except.ok (hshows.assigned_eq hdist hnames hmsg.length)

theorem plainNames_of_empty {m : MsgDef} (h : m.embeddedDefinitionMap = ∅)
    (hnames : ∀ f ∈ m.fields, ∀ c ∈ f.name, c ≠ 0 ∧ isAscii c) : m.PlainNames := by
  rintro d (rfl | ⟨key, hkey⟩)
  · exact hnames
  · rw [h, AList.lookup_empty] at hkey
    cases hkey

theorem plainNames_sampleData : sampleData.PlainNames := plainNames_of_empty rfl (by decide +kernel)

theorem messageDict_shows_sampleValues : ∃ bound, ∀ fuel ≥ bound, ∃ s data,
    MessageParser.parse ⟨[9] ++ encodeList sampleValues ++ [8], sampleData⟩ 1 fuel = .ok s ∧
    RosMessage.dict s.rosValues false fuel defaultArrayBlobTypes = .ok data ∧
    data.ShowsMessage sampleData false defaultArrayBlobTypes sampleValues ∧
    ∀ path o, data.follow path = some (.cast o) → PyObject.Leads s.rosValues (.value (.slot 0)) path o :=
  messageDict_shows ofInfo_sampleDataInfo (distinctFields_of_empty rfl (by decide)) plainNames_sampleData
    isMessage_sampleValues [9] false (Or.inr (Or.inl (List.cons_ne_nil _ _)))

end Embag
