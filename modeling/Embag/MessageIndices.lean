import Embag.MessagePaths
import Embag.MsgDefBuild
import Embag.PyAdapters

/-! Indices into the values of a well-formed message. The two kinds of value with a
child list check an index against it; an array of numbers computes an address. -/

namespace Embag

open LittleEndian Outcomes

/-- The three accessors succeed on an index below `size()` and throw
`std::out_of_range` on any other; `getIndex` is for arrays. -/
structure IndexChecked (base : List RosValue) (v : RosValue) (i n : ℕ) : Prop where
  at_lt : i < n → ∃ q w, v.at i = .ok q ∧ q.deref base = .ok w
  at_ge : n ≤ i → ∃ what, v.at i = .error (.outOfRange what)
  subscript_lt : i < n → ∃ q w, v.subscript i = .ok q ∧ q.deref base = .ok w
  subscript_ge : n ≤ i → ∃ what, v.subscript i = .error (.outOfRange what)
  getIndex_lt : v.getType ≠ .object → i < n → ∃ o, getIndex base v i = .ok o
  getIndex_ge : v.getType ≠ .object → n ≤ i → ∃ what, getIndex base v i = .error (.outOfRange what)

variable {buffer : Bytes} {base : List RosValue} {low : ℕ} {x : RosValue} {shape : Shape}

/-- The shape is that of a part of a message whose bytes are all in the buffer. -/
def Held (buffer : Bytes) (shape : Shape) : Prop :=
  ∃ v, Holds (fun _ => True) buffer shape v

theorem Held.child {s s' : Shape} {i : ℕ} (h : Held buffer s) (hchild : s.child? i = some s') :
    Held buffer s' := by
  obtain ⟨v, hv⟩ := h
  cases hv with
  | scalar => cases hchild
  | string => cases hchild
  | numbers width types occurs =>
    rw [Shape.child?] at hchild
    split_ifs at hchild with hi
    cases hchild
    have hscalar := Holds.scalar (D := fun _ => True)
      (occursAt_flatMap_getElem width types occurs hi)
    have hwidth := (types _ (List.getElem_mem hi)) ▸ Scalar.primitiveTypeToSize_type _
    rw [width, Except.ok.injEq] at hwidth
    rw [types _ (List.getElem_mem hi), ← hwidth] at hscalar
    exact ⟨_, hscalar⟩
  | array length children =>
    obtain ⟨hi, rfl⟩ := List.getElem?_eq_some_iff.1 hchild
    exact ⟨_, children i hi (length ▸ hi)⟩
  | object length definition children =>
    obtain ⟨hi, rfl⟩ := List.getElem?_eq_some_iff.1 hchild
    exact ⟨_, children i hi (length ▸ hi)⟩

theorem castValue_of_held {q : Pointer} (hq : q.deref base = .ok x)
    (hrep : Represents buffer base low x shape) (h : Held buffer shape) :
    ∃ o, castValue base q = .ok o := by
  obtain ⟨v, hholds⟩ := h
  cases hholds with
  | @scalar s o occurs =>
    cases hrep with
    | scalar =>
      have hreads := (@Decodes.scalar _ base low _ _ occurs).reads
      exact ⟨_, castValue_of_scalar hq s.isContainer_type s.type_ne_string hreads⟩
  | string bound occurs =>
    cases hrep with
    | string =>
      have hreads := (@Decodes.string _ base low _ _ bound occurs).reads
      exact ⟨_, castValue_of_string hq rfl hreads⟩
  | numbers => cases hrep with | numbers => exact ⟨_, castValue_of_container hq rfl⟩
  | array => cases hrep with | array => exact ⟨_, castValue_of_container hq rfl⟩
  | object => cases hrep with | object => exact ⟨_, castValue_of_container hq rfl⟩

/-- An index below `size()` is accepted by all three accessors, whatever the value. -/
theorem indexChecked_of_lt {n i : ℕ} (hrep : Represents buffer base low x shape)
    (h : Held buffer shape) (hn : x.size = .ok n) (hi : i < n) : IndexChecked base x i n := by
  obtain ⟨q, w, s', hq, hw, hchild, hrep'⟩ := hrep.child hn hi
  have hge : ¬ n ≤ i := by omega
  refine ⟨fun _ => ⟨q, w, hq, hw⟩, fun h => absurd h hge, fun _ => ⟨q, w, hq, hw⟩,
    fun h => absurd h hge, fun hobj _ => ?_, fun _ h => absurd h hge⟩
  have harray : x.getType = .array ∨ x.getType = .primitiveArray := by
    cases x with
    | primitive => cases hn
    | object => exact absurd rfl hobj
    | array => exact Or.inl rfl
    | primitiveArray => exact Or.inr rfl
  rw [getIndex_of_array harray, hq, ok_bind]
  exact castValue_of_held hw hrep' (h.child hchild)

theorem indexChecked_of_ge {n i : ℕ} (hn : x.size = .ok n) (htype : x.getType ≠ .primitiveArray)
    (hi : n ≤ i) : IndexChecked base x i n := by
  have hlt : ¬ i < n := by omega
  have hat : x.at i = .error (.outOfRange (bytes "Provided index is out of range!")) := by
    cases x with
    | primitive => cases hn
    | object children fieldIndexes =>
      cases hn
      exact if_pos hi
    | array children =>
      cases hn
      exact if_pos hi
    | primitiveArray => exact absurd rfl htype
  refine ⟨fun h => absurd h hlt, fun _ => ⟨_, hat⟩, fun h => absurd h hlt, fun _ => ⟨_, hat⟩,
    fun _ h => absurd h hlt, fun hobj _ => ?_⟩
  have harray : x.getType = .array := by
    cases x with
    | primitive => cases hn
    | object => exact absurd rfl hobj
    | array => rfl
    | primitiveArray => exact absurd rfl htype
  rw [getIndex_of_array (Or.inl harray), hat]
  exact ⟨_, rfl⟩

/-- An array of numbers gives an element for every index. -/
theorem at_of_primitiveArray (h : Represents buffer base low x shape)
    (htype : x.getType = .primitiveArray) (i : ℕ) : ∃ q, x.at i = .ok q := by
  cases h with
  | scalar hw =>
    rw [RosValue.getType_primitive] at htype
    rw [htype] at hw
    cases hw
  | string => cases htype
  | numbers hw => exact ⟨_, Represents.at_of_numbers hw i⟩
  | array => cases htype
  | object => cases htype

theorem indexChecked_iff_of_held {n : ℕ} (hrep : Represents buffer base low x shape)
    (h : Held buffer shape) (hn : x.size = .ok n) (i : ℕ) :
    IndexChecked base x i n ↔ x.getType ≠ .primitiveArray ∨ i < n := by
  constructor
  · intro hchecked
    by_contra hnot
    rw [not_or, not_not, not_lt] at hnot
    obtain ⟨what, hwhat⟩ := hchecked.at_ge hnot.2
    obtain ⟨q, hq⟩ := at_of_primitiveArray hrep hnot.1 i
    rw [hq] at hwhat
    cases hwhat
  · intro hor
    rcases lt_or_ge i n with hi | hi
    · exact indexChecked_of_lt hrep h hn hi
    · exact indexChecked_of_ge hn (hor.resolve_right (not_lt.2 hi)) hi

/-- In every message an index is checked exactly where the value is no array of numbers
or the index is below `size()`. -/
theorem indexChecked_iff {info : MsgDefInfo} {name : Bytes} {m : MsgDef}
    (hm : MsgDef.ofInfo info name = .ok m) (vs : List Value)
    (hmsg : IsMessage m m.toBaseMsgDef vs) (pre suf : Bytes) :
    ∃ bound, ∀ fuel ≥ bound, ∃ s,
      MessageParser.parse ⟨pre ++ encodeList vs ++ suf, m⟩ pre.length fuel = .ok s ∧
      ∀ v, InTree s.rosValues v → v.getType.isContainer = true →
        ∃ n, v.size = .ok n ∧
          ∀ i, IndexChecked s.rosValues v i n ↔ v.getType ≠ .primitiveArray ∨ i < n := by
  refine ⟨depthList vs + 1, fun fuel hfuel => ?_⟩
  have hocc := occursAt_of_append pre (encodeList vs) suf
  obtain ⟨shape, hshape, hholds⟩ := shapeObject_finds (D := fun _ => True)
    (fun _ _ _ => trivial) trivial hmsg hfuel pre.length hocc
  have hfollows := MessageParser.parse_follows (p := ⟨pre ++ encodeList vs ++ suf, m⟩)
    (MsgDef.builtFrom_of_ofInfo hm).resolved pre.length fuel
  rw [hshape] at hfollows
  obtain ⟨s, hs, -, x, hx, hrep⟩ := hfollows.exists_ok
  refine ⟨s, hs, fun v hv hcontainer => ?_⟩
  obtain ⟨shape', hrep', hheld⟩ := hv.induct hx hrep ⟨_, hholds⟩ Held.child
  obtain ⟨n, hn⟩ := hrep'.size_of_container hcontainer
  exact ⟨n, hn, indexChecked_iff_of_held hrep' hheld hn⟩

def sampleDataInfo : MsgDefInfo where
  members := [.field ⟨bytes "uint8", -1, bytes "data"⟩, .field ⟨bytes "uint8", 0, bytes "next"⟩]
  embeddedDefinitions := []

def sampleData : MsgDef where
  name := bytes "pkg/Data"
  members := [.field { parsedInfo := ⟨bytes "uint8", -1, bytes "data"⟩ },
    .field { parsedInfo := ⟨bytes "uint8", 0, bytes "next"⟩ }]
  embeddedDefinitionMap := ∅

theorem ofInfo_sampleDataInfo : MsgDef.ofInfo sampleDataInfo (bytes "pkg/Data") = .ok sampleData :=
  rfl

def sampleValues : List Value := [.array true [.scalar (.uint8 1)], .scalar (.uint8 7)]

theorem isMessage_sampleValues : IsMessage sampleData sampleData.toBaseMsgDef sampleValues := by
  refine ⟨rfl, fun i hf hv => ?_⟩
  match i, hv with
  | 0, _ =>
    refine .dynamicArray rfl (by decide) fun v hv => ?_
    obtain rfl := List.mem_singleton.1 hv
    exact .scalar rfl rfl
  | 1, _ => exact .scalar rfl rfl

theorem indexChecked_iff_sampleValues : ∃ bound, ∀ fuel ≥ bound, ∃ s,
    MessageParser.parse ⟨[9] ++ encodeList sampleValues ++ [], sampleData⟩ 1 fuel = .ok s ∧
    ∀ v, InTree s.rosValues v → v.getType.isContainer = true →
      ∃ n, v.size = .ok n ∧
        ∀ i, IndexChecked s.rosValues v i n ↔ v.getType ≠ .primitiveArray ∨ i < n :=
  indexChecked_iff ofInfo_sampleDataInfo sampleValues isMessage_sampleValues [9] []

def sampleVector : List RosValue := [
  .object ⟨1, 2⟩ sampleData.fieldIndexes,
  .primitiveArray .uint8 4 1 [1, 0, 0, 0, 1, 7],
  .primitive .uint8 ⟨5, some [1, 0, 0, 0, 1, 7]⟩]

/-- Index 1 of the one byte in `data` is the byte of `next`. -/
theorem getIndex_past_end : ∃ s v,
    MessageParser.parse ⟨encodeList sampleValues, sampleData⟩ 0 2 = .ok s ∧
    InTree s.rosValues v ∧ v.size = .ok 1 ∧
    getIndex s.rosValues v 1 = .ok (.scalar (.uint8 7)) ∧ ¬ IndexChecked s.rosValues v 1 1 := by
  refine ⟨⟨sampleVector, 3, 6⟩, .primitiveArray .uint8 4 1 [1, 0, 0, 0, 1, 7], rfl, ?_, rfl, rfl,
    fun h => ?_⟩
  · exact .child (q := .slot 1) (.root rfl) rfl (show 0 < 2 by decide) rfl rfl
  · obtain ⟨what, hwhat⟩ := h.at_ge le_rfl
    cases hwhat

end Embag
