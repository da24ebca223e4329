import Embag.MessageRoundTrip
import Embag.MessageTree

/-! Reading a decoded message back along a path of `get` and `at` calls. -/

namespace Embag

open LittleEndian

/-- One step of a path: `get(key)` or `at(i)`. -/
inductive Access where
  | key (name : Bytes)
  | index (i : ℕ)

namespace Value

def child : Value → Access → Option Value
  | .object names fields, .key name => (names.idxOf? name).bind (fields[·]?)
  | .object _ fields, .index i => fields[i]?
  | .array _ elements, .index i => elements[i]?
  | _, _ => none

def follow (v : Value) : List Access → Option Value
  | [] => some v
  | a :: path => (v.child a).bind (·.follow path)

end Value

namespace RosValue

def access (x : RosValue) : Access → Except Fault Pointer
  | .key name => x.get name
  | .index i => x.at i

/-- What the caller reads from `x` is `v`: the leaf itself, or the number of children. -/
def Reads (x : RosValue) : Value → Prop
  | .scalar s => x.as s.type = .ok s
  | .string s => x.asString = .ok s
  | .array _ elements => x.size = .ok elements.length
  | .object _ fields => x.size = .ok fields.length

end RosValue

def Pointer.follow (base : List RosValue) (q : Pointer) : List Access → Except Fault RosValue
  | [] => q.deref base
  | a :: path => do
    let x ← q.deref base
    (← x.access a).follow base path

section

variable {buffer : Bytes} {base : List RosValue} {low : ℕ}

theorem occursAt_flatMap_getElem {type : RosValueType} {w : ℕ}
    (hw : primitiveTypeToSize type = .ok w) {xs : List Scalar} (hxs : ∀ x ∈ xs, x.type = type)
    {o : ℕ} (h : OccursAt (xs.flatMap Scalar.toBytes) buffer o) {i : ℕ} (hi : i < xs.length) :
    OccursAt xs[i].toBytes buffer (o + i * w) := by
  induction xs generalizing o i with
  | nil => simp at hi
  | cons x xs ih =>
    have hx := x.primitiveTypeToSize_type
    rw [hxs x List.mem_cons_self, hw, Except.ok.injEq] at hx
    rw [List.flatMap_cons, occursAt_append] at h
    cases i with
    | zero => simpa using h.1
    | succ i =>
      have hrest := ih (fun y hy => hxs y (List.mem_cons_of_mem _ hy)) h.2 (by simpa using hi)
      rw [← hx] at hrest
      rw [List.getElem_cons_succ, show o + (i + 1) * w = o + w + i * w by ring]
      exact hrest

theorem Decodes.reads {x : RosValue} {v : Value} (h : Decodes buffer base low x v) : x.Reads v := by
  cases h with
  | @scalar s o occurs =>
    have hcontainer : ¬ ((RosValue.primitive s.type ⟨o, some buffer⟩).getType = .object ∨
        (RosValue.primitive s.type ⟨o, some buffer⟩).getType = .array) := by
      cases s <;> simp [Scalar.type]
    rw [RosValue.Reads, RosValue.as, if_neg hcontainer, s.primitiveTypeToSize_type, ok_bind,
      RosValue.getPrimitive, atIndex_of_occursAt s.toBytes_ne_nil occurs, ok_bind,
      readRaw_of_occursAt occurs, ok_bind]
    simp only [s.ofBytes_toBytes]
  | @string s o bound occurs =>
    have hbytes := occurs.right
    rw [length_le] at hbytes
    rw [RosValue.Reads, RosValue.asString,
      if_neg (not_not.2 (RosValue.getType_primitive .string ⟨o, some buffer⟩))]
    simp only [atIndex_of_occursAt (le_ne_nil (by norm_num) _) occurs.left, ok_bind,
      readWord_of_occursAt bound occurs.left, readRaw_of_occursAt hbytes]
  | primitiveArray types occurs => rw [RosValue.Reads, RosValue.size, List.length_map]
  | array => rfl
  | object => rfl

theorem Decodes.access {x : RosValue} {v w : Value} (h : Decodes buffer base low x v) {a : Access}
    (hw : v.child a = some w) :
    ∃ q y, x.access a = .ok q ∧ q.deref base = .ok y ∧ Decodes buffer base low y w := by
  cases h with
  | scalar | string => cases a <;> cases hw
  | @primitiveArray type o dynamic xs types occurs =>
    cases a with
    | key name => cases hw
    | index i =>
      rw [Value.child, List.getElem?_map, Option.map_eq_some_iff] at hw
      obtain ⟨s, hs, rfl⟩ := hw
      obtain ⟨hi, rfl⟩ := List.getElem?_eq_some_iff.1 hs
      have htype := types _ (List.getElem_mem hi)
      have hsize := xs[i].primitiveTypeToSize_type
      have hcontainer := xs[i].isContainer_type
      rw [htype] at hsize hcontainer
      let element : RosValue := .primitive type ⟨o + i * xs[i].toBytes.length, some buffer⟩
      refine ⟨.value element, element, ?_, rfl, ?_⟩
      · rw [RosValue.access, RosValue.at, hsize, ok_bind, RosValue.ofTypeAt, hcontainer]
        rfl
      · have hd : Decodes buffer base low
            (.primitive xs[i].type ⟨o + i * xs[i].toBytes.length, some buffer⟩) (.scalar xs[i]) :=
          .scalar (occursAt_flatMap_getElem hsize types occurs hi)
        rwa [htype] at hd
  | array xs above slots children =>
    cases a with
    | key name => cases hw
    | index i =>
      obtain ⟨hi, rfl⟩ := List.getElem?_eq_some_iff.1 hw
      exact ⟨_, xs i, RosValueList.at_of_lt hi, deref_slot (slots i hi), children i hi⟩
  | @object c names vs fieldIndexes xs above length index slots children =>
    have hat : ∀ {i : ℕ}, vs[i]? = some w → ∃ q y,
        (RosValue.object ⟨c, vs.length⟩ fieldIndexes).at i = .ok q ∧ q.deref base = .ok y ∧
          Decodes buffer base low y w := by
      intro i hw
      obtain ⟨hi, rfl⟩ := List.getElem?_eq_some_iff.1 hw
      exact ⟨_, xs i, RosValueList.at_of_lt hi, deref_slot (slots i hi), children i hi⟩
    cases a with
    | index i => exact hat hw
    | key name =>
      obtain ⟨i, hname, hvalue⟩ := Option.bind_eq_some_iff.1 hw
      obtain ⟨hi, rfl, -⟩ := List.idxOf?_eq_some_iff.1 hname
      simp only [RosValue.access, RosValue.get, index i hi]
      exact hat hvalue

/-- Along every path a represented value reads like the value. -/
theorem Decodes.follow {q : Pointer} {x : RosValue} {v w : Value} {path : List Access}
    (hq : q.deref base = .ok x) (h : Decodes buffer base low x v) (hw : v.follow path = some w) :
    ∃ y, q.follow base path = .ok y ∧ y.Reads w := by
  induction path generalizing q x v with
  | nil =>
    cases hw
    exact ⟨x, hq, h.reads⟩
  | cons a path ih =>
    obtain ⟨u, hu, hw⟩ := Option.bind_eq_some_iff.1 hw
    obtain ⟨r, y, hr, hy, hd⟩ := h.access hu
    obtain ⟨z, hz, hreads⟩ := ih hy hd hw
    refine ⟨z, ?_, hreads⟩
    rw [Pointer.follow, hq, ok_bind, hr, ok_bind, hz]

end

/-- Decoding undoes serialization, wherever the message lies in its buffer: the parser
stops behind the message, and every path of accessor calls finds what the value has
there. Recursive definitions are included; only the value must be finite. -/
theorem parse_encode (m : MsgDef) (hresolved : m.Resolved) (hdist : m.DistinctFields)
    (vs : List Value) (hmsg : IsMessage m m.toBaseMsgDef vs) (pre suf : Bytes) :
    ∃ bound, ∀ fuel ≥ bound, ∃ s,
      MessageParser.parse ⟨pre ++ encodeList vs ++ suf, m⟩ pre.length fuel = .ok s ∧
      s.messageBufferOffset = pre.length + (encodeList vs).length ∧
      ∀ path w, (Value.object (m.fields.map FieldDef.name) vs).follow path = some w →
        ∃ x, (Pointer.slot 0).follow s.rosValues path = .ok x ∧ x.Reads w := by
  refine ⟨depthList vs + 1, fun fuel hfuel => ?_⟩
  obtain ⟨s, hs, hcursor, low, x, hx, hd⟩ :=
    MessageParser.parse_inits (p := ⟨pre ++ encodeList vs ++ suf, m⟩) hresolved hdist hmsg hfuel
      (occursAt_of_append pre _ suf)
  exact ⟨s, hs, hcursor, fun path w hw => hd.follow (deref_slot hx) hw⟩

def samplePoint : BaseMsgDef :=
  ⟨bytes "pkg/Point", [.field { parsedInfo := ⟨bytes "int16", 2, bytes "xy"⟩ },
    .field { parsedInfo := ⟨bytes "string", 0, bytes "label"⟩ }]⟩

def samplePath : MsgDef where
  name := bytes "pkg/Path"
  members := [.field { parsedInfo := ⟨bytes "uint8", 0, bytes "id"⟩ },
    .constant ⟨bytes "uint8", bytes "MAX", bytes "9"⟩,
    .field { parsedInfo := ⟨bytes "Point", -1, bytes "points"⟩,
             typeDefinition := some (bytes "pkg/Point") }]
  embeddedDefinitionMap := .singleton (bytes "pkg/Point") samplePoint

theorem samplePath_definitions {d : BaseMsgDef} (h : d = samplePath.toBaseMsgDef ∨
    ∃ key, samplePath.embeddedDefinitionMap.lookup key = some d) :
    d = samplePath.toBaseMsgDef ∨ d = samplePoint := by
  rcases h with h | ⟨key, hkey⟩
  · exact Or.inl h
  · have hmem := AList.mem_lookup_iff.1 hkey
    rw [samplePath, AList.singleton_entries, List.mem_singleton] at hmem
    cases hmem
    exact Or.inr rfl

theorem parse_encode_samplePath : ∃ bound, ∀ fuel ≥ bound, ∃ s,
    MessageParser.parse ⟨[1, 2] ++ encodeList [.scalar (.uint8 7), .array true [.object
      [bytes "xy", bytes "label"] [.array false [.scalar (.int16 (-1)), .scalar (.int16 5)],
        .string (bytes "ok")]]] ++ [3], samplePath⟩ 2 fuel = .ok s ∧
    s.messageBufferOffset = 2 + 15 ∧
    ∀ path w, (Value.object [bytes "id", bytes "points"] [.scalar (.uint8 7), .array true [.object
      [bytes "xy", bytes "label"] [.array false [.scalar (.int16 (-1)), .scalar (.int16 5)],
        .string (bytes "ok")]]]).follow path = some w →
      ∃ x, (Pointer.slot 0).follow s.rosValues path = .ok x ∧ x.Reads w := by
  refine parse_encode samplePath ?_ ?_ _ ⟨rfl, ?_⟩ [1, 2] [3]
  · intro d hd f hf htype
    have hdef : ∀ f ∈ d.fields, f.type = .object →
        samplePath.typeDefinition f = .ok samplePoint := by
      rcases samplePath_definitions hd with rfl | rfl <;> decide
    exact ⟨_, hdef f hf htype⟩
  · intro d hd
    rcases samplePath_definitions hd with rfl | rfl <;> decide
  · intro i hf hv
    match i, hv with
    | 0, _ => exact .scalar rfl rfl
    | 1, _ =>
      refine .dynamicArray rfl (by decide) fun v hv => ?_
      obtain rfl := List.mem_singleton.1 hv
      refine .object (d := samplePoint) rfl rfl rfl fun i hf hv => ?_
      match i, hv with
      | 0, _ =>
        refine .fixedArray (Int.le.intro 1 rfl) (by change (2 : ℤ) < 2 ^ 31; decide) rfl
          fun v hv => ?_
        rcases List.mem_pair.1 hv with rfl | rfl <;> exact .scalar rfl rfl
      | 1, _ => exact .string rfl rfl (by decide)

end Embag
