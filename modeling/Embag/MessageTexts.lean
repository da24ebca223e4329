import Embag.ArrayBlobs
import Embag.MessageValues

/-! `toString` of a value: a line for each leaf, with the path that leads to it. What it prints of
a decoded message is read off the values of the message alone, up to the order of a hash map. -/

namespace Embag

open LittleEndian Loops

/-- What the standard library decides: the digits of floating point numbers, and the order in
which the map of an object is iterated. -/
structure TextEnv where
  floatToString : UInt32 → Bytes
  doubleToString : UInt64 → Bytes
  order : FieldIndexes → List (Bytes × ℕ)
  order_perm : ∀ fieldIndexes, (order fieldIndexes).Perm
    (fieldIndexes.entries.map fun entry => (entry.1, entry.2))

def endl : Bytes := bytes "\n"

/-- `std::to_string` of a number; times are printed as their two words. -/
def Scalar.text (env : TextEnv) : Scalar → Bytes
  | .bool b => if b then bytes "true" else bytes "false"
  | .int8 x => bytes (toString x.toInt)
  | .uint8 x => bytes (toString x.toNat)
  | .int16 x => bytes (toString x.toInt)
  | .uint16 x => bytes (toString x.toNat)
  | .int32 x => bytes (toString x.toInt)
  | .uint32 x => bytes (toString x.toNat)
  | .int64 x => bytes (toString x.toInt)
  | .uint64 x => bytes (toString x.toNat)
  | .float32 bits => env.floatToString bits
  | .float64 bits => env.doubleToString bits
  | .time t | .duration t =>
    bytes (toString t.secs.toNat) ++ bytes "s " ++ bytes (toString t.nsecs.toNat) ++ bytes "ns"

/-- The path of a field: its name alone where the path is empty. -/
def fieldPath (path name : Bytes) : Bytes := if path = [] then name else path ++ bytes "." ++ name

def elementPath (path : Bytes) (i : ℕ) : Bytes := path ++ bytes "[" ++ bytes (toString i) ++ bytes "]"

/-- `toString(path)`; `fuel` bounds how deep objects and arrays are nested. -/
def RosValue.toString (env : TextEnv) (base : List RosValue) : ℕ → Bytes → RosValue → Except Fault Bytes
  | 0, _, _ => .error .outOfFuel
  | fuel + 1, path, v =>
    match v with
    | .primitive .string _ => do return path ++ bytes " -> " ++ (← v.asString)
    | .primitive type _ => do return path ++ bytes " -> " ++ (← v.as type).text env
    | .object children fieldIndexes =>
      (env.order fieldIndexes).foldlM (fun output field => do
        let child ← (← children.at field.2).deref base
        let output := output ++ (← child.toString env base fuel (fieldPath path field.1))
        -- No need for a newline if our child is an object or array
        if child.getType = .object ∨ child.getType = .array then return output
        else return output ++ endl) []
    | .array children =>
      forLoop (fun i output => do
        let child ← (← children.at i).deref base
        return output ++ (← child.toString env base fuel (elementPath path i)) ++ endl) 0 children.length []
    | .primitiveArray _ _ _ _ => .ok (path ++ bytes " -> unknown type")

section Texts

variable (env : TextEnv) (m : MsgDef)

def objectText (d : BaseMsgDef) (texts : List (Bytes → Bytes)) (path : Bytes) : Bytes :=
  (env.order d.fieldIndexes).flatMap fun field => (texts.getD field.2 fun _ => []) (fieldPath path field.1)

/-- The text of the elements of an array, a line end after each. -/
def arrayText (texts : List (Bytes → Bytes)) (path : Bytes) : Bytes :=
  texts.zipIdx.flatMap fun text => text.1 (elementPath path text.2) ++ endl

/-- Behind a field there is a line end unless it prints lines of its own. -/
def FieldDef.lineEnd (f : FieldDef) : Bytes := if f.HasChildren then [] else endl

mutual

/-- What is printed of a value of the field `f` that is found at a path. -/
def Value.text (f : FieldDef) : Value → Bytes → Bytes
  | .scalar s => fun path => path ++ bytes " -> " ++ s.text env
  | .string s => fun path => path ++ bytes " -> " ++ s
  | .array _ vs =>
    if f.HasChildren then arrayText (elementTexts f.element vs)
    else fun path => path ++ bytes " -> unknown type"
  | .object _ vs =>
    match m.typeDefinition f with
    | .ok d => objectText env d (fieldTexts d.fields vs)
    | .error _ => fun _ => []

/-- The fields of an object, in the order of the definition. -/
def fieldTexts : List FieldDef → List Value → List (Bytes → Bytes)
  | f :: fields, v :: vs => (fun path => v.text f path ++ f.lineEnd) :: fieldTexts fields vs
  | _, _ => []

def elementTexts (f : FieldDef) : List Value → List (Bytes → Bytes)
  | [] => []
  | v :: vs => v.text f :: elementTexts f vs

end

def messageText (vs : List Value) : Bytes :=
  objectText env m.toBaseMsgDef (fieldTexts env m m.fields vs) []

end Texts

section Members

variable {env : TextEnv} {m : MsgDef}

theorem getElem?_fieldTexts {fields : List FieldDef} {vs : List Value} (hlength : vs.length = fields.length)
    {i : ℕ} (hf : i < fields.length) (hv : i < vs.length) :
    (fieldTexts env m fields vs)[i]? = some fun path => vs[i].text env m fields[i] path ++ fields[i].lineEnd := by
  induction fields generalizing vs i with
  | nil => simp at hf
  | cons f fields ih =>
    obtain ⟨v, vs, rfl⟩ : ∃ v vs', vs = v :: vs' := List.exists_cons_of_length_pos (by omega)
    cases i with
    | zero => simp [fieldTexts]
    | succ i =>
      simp only [List.length_cons] at hlength hf hv
      simpa [fieldTexts] using ih (by omega) (by omega) (by omega)

theorem elementTexts_eq (f : FieldDef) (vs : List Value) :
    elementTexts env m f vs = vs.map fun v => v.text env m f := by
  induction vs with
  | nil => rfl
  | cons v vs ih => rw [elementTexts, List.map_cons, ih]

end Members

section Printing

variable {env : TextEnv} {m : MsgDef} {buffer : Bytes} {base : List RosValue} {f : FieldDef} {x : RosValue}
  {v : Value}

theorem lt_of_mem_order {d : BaseMsgDef} {field : Bytes × ℕ} (h : field ∈ env.order d.fieldIndexes) :
    field.2 < d.fields.length := by
  obtain ⟨entry, hentry, rfl⟩ := List.mem_map.1 ((env.order_perm _).mem_iff.1 h)
  exact lt_of_lookup_fieldIndexes (AList.mem_lookup_iff.2 hentry)

theorem toString_of_fields {c fuel : ℕ} {d : BaseMsgDef} {vs : List Value} {xs : ℕ → RosValue}
    (hlength : vs.length = d.fields.length) (hslots : ∀ i < vs.length, base[c + i]? = some (xs i))
    (hparsed : ∀ i (hf : i < d.fields.length) (hv : i < vs.length),
      Parsed m buffer base d.fields[i] (xs i) vs[i])
    (htext : ∀ i (hf : i < d.fields.length) (hv : i < vs.length) path,
      (xs i).toString env base fuel path = .ok (vs[i].text env m d.fields[i] path)) (path : Bytes) :
    (RosValue.object ⟨c, vs.length⟩ d.fieldIndexes).toString env base (fuel + 1) path =
      .ok (objectText env d (fieldTexts env m d.fields vs) path) := by
  rw [RosValue.toString, objectText, ← List.nil_append (List.flatMap _ _)]
  refine foldlM_append (fun field hfield output => ?_) []
  have hf := lt_of_mem_order hfield
  have hv : field.2 < vs.length := by omega
  rw [RosValueList.at_of_lt hv, ok_bind, deref_slot (hslots _ hv), ok_bind, htext _ hf hv, ok_bind,
    List.getD_eq_getElem?_getD, getElem?_fieldTexts hlength hf hv, Option.getD_some, FieldDef.lineEnd,
    ite_cond_congr (propext (hparsed _ hf hv).getType_iff)]
  split_ifs
  · rw [List.append_nil]
    rfl
  · rw [← List.append_assoc]
    rfl

theorem toString_of_elements {c fuel : ℕ} {vs : List Value} {xs : ℕ → RosValue}
    (hslots : ∀ i < vs.length, base[c + i]? = some (xs i))
    (htext : ∀ i (hv : i < vs.length) path, (xs i).toString env base fuel path = .ok (vs[i].text env m f path))
    (path : Bytes) :
    (RosValue.array ⟨c, vs.length⟩).toString env base (fuel + 1) path =
      .ok (arrayText (elementTexts env m f vs) path) := by
  rw [RosValue.toString, arrayText, elementTexts_eq, ← List.nil_append (List.flatMap _ _)]
  refine forLoop_append (List.length_map _) (fun i hi output => ?_) []
  rw [List.length_map] at hi
  rw [RosValueList.at_of_lt hi, ok_bind, deref_slot (hslots i hi), ok_bind, htext i hi, ok_bind,
    List.getElem_map, ← List.append_assoc]
  rfl

theorem Parsed.text_scalar {s : Scalar} {o : ℕ} (occurs : OccursAt s.toBytes buffer o) (fuel : ℕ)
    (path : Bytes) : (RosValue.primitive s.type ⟨o, some buffer⟩).toString env base (fuel + 1) path =
      .ok (path ++ bytes " -> " ++ s.text env) := by
  have hreads := (@Decodes.scalar buffer [] 0 _ _ occurs).reads
  rw [RosValue.Reads] at hreads
  rw [RosValue.toString, hreads, ok_bind]
  · rfl
  · exact s.type_ne_string

theorem Parsed.text_string {s : Bytes} {o : ℕ} (hbound : s.length < 2 ^ 32)
    (occurs : OccursAt (le 4 s.length ++ s) buffer o) (fuel : ℕ) (path : Bytes) :
    (RosValue.primitive .string ⟨o, some buffer⟩).toString env base (fuel + 1) path =
      .ok (path ++ bytes " -> " ++ s) := by
  have hreads := (@Decodes.string buffer [] 0 _ _ hbound occurs).reads
  rw [RosValue.Reads] at hreads
  rw [RosValue.toString, hreads, ok_bind]
  rfl

/-- Printing a decoded value prints the value. -/
theorem Parsed.toString_eq (h : Parsed m buffer base f x v) {fuel : ℕ} (hfuel : v.height ≤ fuel) (path : Bytes) :
    x.toString env base fuel path = .ok (v.text env m f path) := by
  induction h generalizing fuel path with
  | scalar size type occurs =>
    rw [Value.height] at hfuel
    obtain ⟨k, rfl⟩ : ∃ k, fuel = k + 1 := ⟨fuel - 1, by omega⟩
    rw [text_scalar occurs, Value.text]
  | string size type bound occurs =>
    rw [Value.height] at hfuel
    obtain ⟨k, rfl⟩ : ∃ k, fuel = k + 1 := ⟨fuel - 1, by omega⟩
    rw [text_string bound occurs, Value.text]
  | @object f d c vs xs size definition length slots fields ih =>
    rw [Value.height] at hfuel
    obtain ⟨k, rfl⟩ : ∃ k, fuel = k + 1 := ⟨fuel - 1, by omega⟩
    rw [Value.text, definition]
    refine toString_of_fields length slots fields (fun i hf hv => ih i hf hv ?_) path
    exact (Value.height_le_of_mem (List.getElem_mem hv)).trans (by omega)
  | @array f c dynamic vs xs size type slots elements ih =>
    rw [Value.height] at hfuel
    obtain ⟨k, rfl⟩ : ∃ k, fuel = k + 1 := ⟨fuel - 1, by omega⟩
    have hchildren : f.HasChildren := type.imp_right fun h => ⟨size, h⟩
    rw [Value.text, if_pos hchildren]
    refine toString_of_elements slots (fun i hv => ih i hv ?_) path
    exact (Value.height_le_of_mem (List.getElem_mem hv)).trans (by omega)
  | @numbers f o w dynamic xs size width types occurs =>
    rw [Value.height] at hfuel
    obtain ⟨k, rfl⟩ : ∃ k, fuel = k + 1 := ⟨fuel - 1, by omega⟩
    rw [RosValue.toString, Value.text, if_neg (FieldDef.not_hasChildren_of_size width)]

theorem ParsedFields.toString_eq {c : ℕ} {vs : List Value} (h : ParsedFields m buffer base m.fields c vs)
    {fuel : ℕ} (hfuel : heightList vs < fuel) :
    (RosValue.object ⟨c, vs.length⟩ m.fieldIndexes).toString env base fuel [] = .ok (messageText env m vs) := by
  obtain ⟨xs, hslots, hparsed⟩ := h.exists_slots
  obtain ⟨k, rfl⟩ : ∃ k, fuel = k + 1 := ⟨fuel - 1, by omega⟩
  refine toString_of_fields h.length hslots hparsed (fun i hf hv => (hparsed i hf hv).toString_eq ?_) []
  exact (Value.height_le_of_mem (List.getElem_mem hv)).trans (by omega)

end Printing

/-- The map iterated in the order the model keeps it in; for messages without floating point numbers. -/
def sampleTextEnv : TextEnv where
  floatToString _ := []
  doubleToString _ := []
  order fieldIndexes := fieldIndexes.entries.map fun entry => (entry.1, entry.2)
  order_perm _ := .refl _

def samplePathValues : List Value := [.scalar (.uint8 7), .array true [.object [bytes "xy", bytes "label"]
  [.array false [.scalar (.int16 (-1)), .scalar (.int16 5)], .string (bytes "ok")]]]

theorem isMessage_samplePathValues : IsMessage samplePath samplePath.toBaseMsgDef samplePathValues := by
  refine ⟨rfl, fun i hf hv => ?_⟩
  match i, hv with
  | 0, _ => exact .scalar rfl rfl
  | 1, _ =>
    refine .dynamicArray rfl (by decide) fun v hv => ?_
    obtain rfl := List.mem_singleton.1 hv
    refine .object (d := samplePoint) rfl rfl rfl fun i hf hv => ?_
    match i, hv with
    | 0, _ =>
      refine .fixedArray (Int.le.intro 1 rfl) (by change (2 : ℤ) < 2 ^ 31; decide) rfl fun v hv => ?_
      rcases List.mem_pair.1 hv with rfl | rfl <;> exact .scalar rfl rfl
    | 1, _ => exact .string rfl rfl (by decide)

example : messageText sampleTextEnv samplePath samplePathValues = bytes "points[0].label -> ok\n" ++
    bytes "points[0].xy -> unknown type\n\nid -> 7\n" := by decide +kernel

end Embag
