import Embag.MessageCycles
import Embag.MessageIndices
import Embag.MessageReads
import Embag.ShapeFields

/-! What the parser accepts is the encoding of a message: where it returns, and everything in its result
can be read, the buffer has the encoding of exactly one message of the definition at the offset. -/

namespace Embag

open LittleEndian Outcomes

/-- Everything in the result can be read, and every bool is a byte 0 or 1. -/
structure ReadsWhole (base : List RosValue) : Prop where
  scalars : ∀ v, InTree base v → v.getType.isContainer = false → v.getType ≠ .string →
    ∃ x, v.as v.getType = .ok x
  strings : ∀ v, InTree base v → v.getType = .string → ∃ s, v.asString = .ok s
  bools : ∀ v, InTree base v → v.getType = .rosBool → ∃ b ≤ 1, v.as .uint8 = .ok (.uint8 b)

/-- The array sizes are those that a definition can write. -/
def MsgDef.SizesFit (m : MsgDef) : Prop :=
  ∀ d, m.Has d → ∀ f ∈ d.fields, f.arraySize = -1 ∨ 0 ≤ f.arraySize ∧ f.arraySize < 2 ^ 31

theorem TimeValue.toBytes_ofBytes {bs : Bytes} (h : bs.length = 8) : (TimeValue.ofBytes bs).toBytes = bs := by
  have hword : ∀ word : Bytes, word.length = 4 → le 4 (UInt32.ofNat (ofLE word)).toNat = word := by
    intro word hlen
    have hlt := ofLE_lt word
    rw [hlen] at hlt
    rw [UInt32.toNat_ofNat_of_lt' hlt]
    exact hlen ▸ le_ofLE word
  rw [TimeValue.toBytes, TimeValue.ofBytes, hword _ (by simp [h]), hword _ (by simp [h]), List.take_append_drop]

theorem Scalar.type_of_ofBytes {type : RosValueType} {w : ℕ} (hw : primitiveTypeToSize type = .ok w) {bs : Bytes}
    {x : Scalar} (h : Scalar.ofBytes type bs = some x) : x.type = type := by
  cases type <;> cases hw <;> cases h <;> rfl

theorem Scalar.toBytes_bool {bs : Bytes} (hlen : bs.length = 1) (hbool : ofLE bs ≤ 1) :
    (Scalar.bool (ofLE bs != 0)).toBytes = bs := by
  have hle := le_mod_ofLE hlen
  obtain hb | hb : ofLE bs = 0 ∨ ofLE bs = 1 := by omega
  all_goals
    rw [hb] at hle ⊢
    exact hle

/-- A number is written as it was read, where a bool is 0 or 1. -/
theorem Scalar.toBytes_of_ofBytes {type : RosValueType} {w : ℕ} (hw : primitiveTypeToSize type = .ok w) {bs : Bytes}
    (hlen : bs.length = w) (hbool : type = .rosBool → ofLE bs ≤ 1) {x : Scalar}
    (h : Scalar.ofBytes type bs = some x) : x.type = type ∧ x.toBytes = bs := by
  refine ⟨type_of_ofBytes hw h, ?_⟩
  have hword := le_mod_ofLE hlen
  cases type with
  | rosBool =>
    cases hw
    cases h
    exact toBytes_bool hlen (hbool rfl)
  | int8 | int16 | int32 | int64 =>
    cases hw
    cases h
    simpa only [toBytes, Int8.toBitVec_ofNat', Int16.toBitVec_ofNat', Int32.toBitVec_ofNat', Int64.toBitVec_ofNat',
      BitVec.toNat_ofNat, Nat.reduceMul] using hword
  | uint8 | uint16 | uint32 | uint64 | float32 | float64 =>
    cases hw
    cases h
    simpa only [toBytes, UInt8.toNat_ofNat', UInt16.toNat_ofNat', UInt32.toNat_ofNat', UInt64.toNat_ofNat',
      Nat.reduceMul] using hword
  | rosTime | rosDuration =>
    cases hw
    cases h
    exact TimeValue.toBytes_ofBytes hlen
  | string | object | array | primitiveArray => cases hw

/-- Every leaf of the shape is the encoding of a number or a text. -/
inductive Legible (buffer : Bytes) : Shape → Prop
  | scalar {o w : ℕ} (x : Scalar) (occurs : OccursAt x.toBytes buffer o) : Legible buffer (.scalar x.type o w)
  | string {o : ℕ} (s : Bytes) (occurs : OccursAt s buffer (o + 4)) : Legible buffer (.string o s.length)
  | numbers {type : RosValueType} {o n w : ℕ}
    (elements : ∀ i < n, ∃ x : Scalar, x.type = type ∧ OccursAt x.toBytes buffer (o + i * w)) :
    Legible buffer (.numbers type o n w)
  | array {ss : List Shape} (elements : ∀ s ∈ ss, Legible buffer s) : Legible buffer (.array ss)
  | object {d : BaseMsgDef} {ss : List Shape} (fields : ∀ s ∈ ss, Legible buffer s) : Legible buffer (.object d ss)

section Legibles

variable {buffer : Bytes} {base : List RosValue} {low : ℕ} {x : RosValue} {shape : Shape}

theorem occursAt_of_readRaw {p n : ℕ} {bs : Bytes} (h : readRaw buffer p n = .ok bs) :
    OccursAt bs buffer p ∧ bs.length = n := by
  unfold readRaw at h
  split at h
  · rename_i bs' hslice
    cases h
    refine ⟨occursAt_of_sliceAt hslice, ?_⟩
    unfold sliceAt at hslice
    split_ifs at hslice with hlen
    cases hslice
    rw [List.length_take, List.length_drop]
    omega
  · cases h

theorem occursAt_of_readWord {w p n : ℕ} (h : readWord w buffer p = .ok n) :
    OccursAt (le w n) buffer p ∧ n < 256 ^ w := by
  rw [readWord, map_eq_ok] at h
  obtain ⟨bs, hbs, rfl⟩ := h
  obtain ⟨hocc, rfl⟩ := occursAt_of_readRaw hbs
  rw [le_ofLE]
  exact ⟨hocc, ofLE_lt bs⟩

theorem exists_of_as {type type' : RosValueType} {o w : ℕ} (hw : primitiveTypeToSize type' = .ok w) {y : Scalar}
    (h : (RosValue.primitive type ⟨o, some buffer⟩).as type' = .ok y) :
    ∃ bs : Bytes, OccursAt bs buffer o ∧ bs.length = w ∧ Scalar.ofBytes type' bs = some y := by
  unfold RosValue.as at h
  split_ifs at h
  rw [hw, ok_bind, RosValue.getPrimitive] at h
  obtain ⟨bs, hread, hy⟩ := bind_eq_ok.1 h
  obtain ⟨-, -, hraw⟩ := bind_eq_ok.1 hread
  obtain ⟨hocc, hlen⟩ := occursAt_of_readRaw hraw
  refine ⟨bs, hocc, hlen, ?_⟩
  split at hy
  · cases hy
    assumption
  · cases hy

theorem ReadsWhole.exists_scalar (h : ReadsWhole base) {type : RosValueType} {o w : ℕ}
    (hw : primitiveTypeToSize type = .ok w) (hx : InTree base (.primitive type ⟨o, some buffer⟩)) :
    ∃ x : Scalar, x.type = type ∧ OccursAt x.toBytes buffer o := by
  have hstr : type ≠ .string := by
    rintro rfl
    cases hw
  obtain ⟨y, hy⟩ := h.scalars _ hx (isContainer_of_size hw) hstr
  obtain ⟨bs, hocc, hlen, hbs⟩ := exists_of_as hw hy
  have hbool : type = .rosBool → ofLE bs ≤ 1 := by
    rintro rfl
    cases hw
    obtain ⟨b, hb, hbyte⟩ := h.bools _ hx rfl
    obtain ⟨bs', hocc', hlen', hbs'⟩ := exists_of_as (show primitiveTypeToSize .uint8 = .ok 1 from rfl) hbyte
    rw [hocc.unique hocc' (hlen.trans hlen'.symm)]
    have hlt := ofLE_lt bs'
    rw [hlen'] at hlt
    cases hbs'
    rw [← UInt8.toNat_ofNat_of_lt' hlt]
    exact hb
  obtain ⟨htype, hbytes⟩ := Scalar.toBytes_of_ofBytes hw hlen hbool hbs
  exact ⟨y, htype, hbytes.symm ▸ hocc⟩

theorem Represents.legible (h : Represents buffer base low x shape) (hx : InTree base x) (hread : ReadsWhole base) :
    Legible buffer shape := by
  induction h with
  | scalar hw =>
    obtain ⟨y, rfl, hocc⟩ := hread.exists_scalar hw hx
    exact .scalar y hocc
  | @string o n hn =>
    obtain ⟨s, hs⟩ := hread.strings _ hx rfl
    rw [RosValue.asString, if_neg (not_not.2 (RosValue.getType_primitive .string _))] at hs
    obtain ⟨-, -, hs⟩ := bind_eq_ok.1 hs
    rw [hn, ok_bind] at hs
    obtain ⟨hocc, rfl⟩ := occursAt_of_readRaw hs
    exact .string s hocc
  | numbers hw =>
    refine .numbers fun i hi => hread.exists_scalar hw ?_
    exact hx.child rfl hi (Represents.at_of_numbers hw i) rfl
  | array xs above slots children ih =>
    refine .array fun s hs => ?_
    obtain ⟨i, hi, rfl⟩ := List.mem_iff_getElem.1 hs
    exact ih i hi (hx.child rfl hi (RosValueList.at_of_lt hi) (deref_slot (slots i hi)))
  | object xs above length slots children ih =>
    refine .object fun s hs => ?_
    obtain ⟨i, hi, rfl⟩ := List.mem_iff_getElem.1 hs
    exact ih i hi (hx.child rfl hi (RosValueList.at_of_lt hi) (deref_slot (slots i hi)))

end Legibles

section Values

variable {m : MsgDef} {buffer : Bytes}

def Spells (m : MsgDef) (buffer : Bytes) (f : FieldDef) (layout : Layout) : Prop :=
  ∀ q shape q', q ≤ buffer.length → layout q = .ok (shape, q') → Legible buffer shape →
    ∃ v, HasType m f v ∧ OccursAt v.encode buffer q ∧ q' = q + v.encode.length

theorem occursAt_nil {q : ℕ} (h : q ≤ buffer.length) : OccursAt [] buffer q := ⟨h, List.nil_prefix⟩

theorem exists_values_of_shapes {step : FieldDef → Layout} {fields : List FieldDef}
    (h : ∀ f ∈ fields, Spells m buffer f (step f)) {q q' : ℕ} (hq : q ≤ buffer.length) {ss : List Shape}
    (hss : shapes step fields q = .ok (ss, q')) (hleg : ∀ s ∈ ss, Legible buffer s) :
    ∃ vs, List.Forall₂ (HasType m) fields vs ∧ OccursAt (encodeList vs) buffer q ∧
      q' = q + (encodeList vs).length := by
  induction fields generalizing q ss with
  | nil =>
    obtain ⟨rfl, rfl⟩ := shapes_nil_eq_ok hss
    exact ⟨[], .nil, occursAt_nil hq, rfl⟩
  | cons f fields ih =>
    obtain ⟨shape, q₁, rest, hshape, hrest, rfl⟩ := shapes_cons_eq_ok hss
    rw [List.forall_mem_cons] at h hleg
    obtain ⟨v, hv, hocc, rfl⟩ := h.1 q shape q₁ hq hshape hleg.1
    obtain ⟨vs, hvs, hoccs, rfl⟩ := ih h.2 hocc.add_length_le hrest hleg.2
    refine ⟨v :: vs, .cons hv hvs, occursAt_append.2 ⟨hocc, hoccs⟩, ?_⟩
    rw [encodeList, List.length_append, Nat.add_assoc]

theorem exists_scalars {type : RosValueType} {o w n : ℕ} (hw : primitiveTypeToSize type = .ok w)
    (ho : o ≤ buffer.length) (h : ∀ i < n, ∃ x : Scalar, x.type = type ∧ OccursAt x.toBytes buffer (o + i * w)) :
    ∃ xs : List Scalar, xs.length = n ∧ (∀ x ∈ xs, x.type = type) ∧ OccursAt (xs.flatMap Scalar.toBytes) buffer o := by
  induction n with
  | zero => exact ⟨[], rfl, nofun, occursAt_nil ho⟩
  | succ n ih =>
    obtain ⟨xs, rfl, htypes, hocc⟩ := ih fun i hi => h i (by omega)
    obtain ⟨x, hx, hoccx⟩ := h xs.length (by omega)
    refine ⟨xs ++ [x], by simp, ?_, ?_⟩
    · intro y hy
      rcases List.mem_append.1 hy with hy | hy
      · exact htypes y hy
      · rw [List.mem_singleton.1 hy, hx]
    · rw [List.flatMap_append, List.flatMap_singleton, occursAt_append, length_flatMap_toBytes hw htypes]
      exact ⟨hocc, hoccx⟩

section Fields

variable {object : BaseMsgDef → Layout} {f : FieldDef}

theorem spells_scalar (hsize : f.arraySize = 0)
    (hobject : ∀ d, m.typeDefinition f = .ok d → Spells m buffer f (object d)) :
    Spells m buffer f (shapeField m buffer object f) := by
  by_cases hobj : f.type = .object
  · intro q shape q' hq h hleg
    cases hd : m.typeDefinition f with
    | error e =>
      rw [shapeField, if_pos hsize, shapeElement, if_pos hobj, hd] at h
      cases h
    | ok d =>
      rw [shapeField_object hsize hd] at h
      exact hobject d hd q shape q' hq h hleg
  intro q shape q' hq h hleg
  by_cases hstr : f.type = .string
  · rw [shapeField_string hsize hstr, map_eq_ok] at h
    obtain ⟨n, hword, hs⟩ := h
    cases hs
    obtain ⟨-, -, hword⟩ := bind_eq_ok.1 hword
    obtain ⟨hocc, hlt⟩ := occursAt_of_readWord hword
    cases hleg with
    | string s hoccs =>
      refine ⟨.string s, .string hsize hstr hlt, ?_, ?_⟩
      · rw [Value.encode, occursAt_append, length_le]
        exact ⟨hocc, hoccs⟩
      · rw [Value.encode, List.length_append, length_le]
        omega
  · obtain ⟨w, hw, hwidth⟩ := exists_typeSize (not_or.2 ⟨hobj, hstr⟩)
    rw [shapeField_scalar hsize hwidth] at h
    cases h
    generalize htype : f.type = type at hleg
    cases hleg with
    | scalar x hocc =>
      have hlen := x.primitiveTypeToSize_type
      rw [← htype, hw, Except.ok.injEq] at hlen
      exact ⟨.scalar x, .scalar hsize htype, hocc, by rw [Value.encode, hlen]⟩

theorem exists_length (hsize : f.arraySize = -1 ∨ 0 < f.arraySize ∧ f.arraySize < 2 ^ 31) {q q' n : ℕ}
    (hq : q ≤ buffer.length) (h : shapeLength buffer f q = .ok (n, q')) :
    ∃ dynamic, OccursAt (lengthPrefix dynamic n) buffer q ∧ q' = q + (lengthPrefix dynamic n).length ∧
      ∀ vs : List Value, vs.length = n → (∀ v ∈ vs, HasType m f.element v) → HasType m f (.array dynamic vs) := by
  rcases hsize with hsize | ⟨hpos, hlt⟩
  · rw [shapeLength, if_pos hsize] at h
    obtain ⟨-, -, h⟩ := bind_eq_ok.1 h
    obtain ⟨word, hword, h⟩ := bind_eq_ok.1 h
    cases h
    obtain ⟨hocc, hbound⟩ := occursAt_of_readWord hword
    refine ⟨true, hocc, by rw [lengthPrefix, if_pos rfl, length_le], ?_⟩
    rintro vs rfl helements
    exact .dynamicArray hsize hbound helements
  · rw [shapeLength, if_neg (by omega)] at h
    cases h
    refine ⟨false, occursAt_nil hq, rfl, ?_⟩
    intro vs hlen helements
    exact .fixedArray (by omega) hlt (by omega) helements

theorem spells_array (hsize : f.arraySize = -1 ∨ 0 < f.arraySize ∧ f.arraySize < 2 ^ 31)
    (hobject : ∀ d, m.typeDefinition f = .ok d → Spells m buffer f.element (object d)) :
    Spells m buffer f (shapeField m buffer object f) := by
  intro q shape q' hq h hleg
  have hne : f.arraySize ≠ 0 := by omega
  by_cases htype : f.type = .object ∨ f.type = .string
  · rw [shapeField_array hne htype] at h
    obtain ⟨⟨n, q₁⟩, hlength, h⟩ := bind_eq_ok.1 h
    rw [map_eq_ok] at h
    obtain ⟨⟨ss, q₂⟩, hss, hs⟩ := h
    cases hs
    obtain ⟨dynamic, hword, rfl, hty⟩ := exists_length (m := m) hsize hq hlength
    cases hleg with
    | array elements =>
      have helement : ∀ g ∈ List.replicate n f.element, Spells m buffer g (shapeField m buffer object g) := by
        intro g hg
        rw [List.eq_of_mem_replicate hg]
        exact spells_scalar f.arraySize_element hobject
      obtain ⟨vs, hvs, hocc, rfl⟩ := exists_values_of_shapes helement hword.add_length_le hss elements
      have hlen : vs.length = n := by rw [← hvs.length_eq, List.length_replicate]
      refine ⟨.array dynamic vs, hty vs hlen fun v hv => ?_, ?_, ?_⟩
      · obtain ⟨g, hg, hgv⟩ := Loops.forall₂_mem_right hvs hv
        rwa [List.eq_of_mem_replicate hg] at hgv
      · subst hlen
        exact occursAt_append.2 ⟨hword, hocc⟩
      · subst hlen
        show _ = q + (lengthPrefix dynamic vs.length ++ encodeList vs).length
        rw [List.length_append, Nat.add_assoc]
  · obtain ⟨w, hw, hwidth⟩ := exists_typeSize htype
    rw [shapeField_numbers hne hwidth, map_eq_ok] at h
    obtain ⟨⟨n, q₁⟩, hlength, hs⟩ := h
    cases hs
    obtain ⟨dynamic, hword, rfl, hty⟩ := exists_length (m := m) hsize hq hlength
    cases hleg with
    | numbers elements =>
      obtain ⟨xs, rfl, htypes, hocc⟩ := exists_scalars hw hword.add_length_le elements
      have hcount : (xs.map Value.scalar).length = xs.length := List.length_map _
      refine ⟨.array dynamic (xs.map .scalar), hty _ hcount fun v hv => ?_, ?_, ?_⟩
      · obtain ⟨x, hx, rfl⟩ := List.mem_map.1 hv
        exact .scalar rfl (htypes x hx).symm
      · show OccursAt (lengthPrefix dynamic (xs.map Value.scalar).length ++ encodeList (xs.map .scalar)) buffer q
        rw [hcount, encodeList_map_scalar]
        exact occursAt_append.2 ⟨hword, hocc⟩
      · show _ = q + (lengthPrefix dynamic (xs.map Value.scalar).length ++ encodeList (xs.map .scalar)).length
        rw [hcount, encodeList_map_scalar, List.length_append, length_flatMap_toBytes hw htypes, Nat.add_assoc]

end Fields

/-- The layout of an object spells a message; the induction is on how deep objects are nested. -/
theorem exists_values_of_shapeObject (hsizes : m.SizesFit) {fuel : ℕ} {d : BaseMsgDef} (hd : m.Has d) {q q' : ℕ}
    {shape : Shape} (hq : q ≤ buffer.length) (h : shapeObject m buffer fuel d q = .ok (shape, q'))
    (hleg : Legible buffer shape) :
    ∃ vs, IsMessage m d vs ∧ OccursAt (encodeList vs) buffer q ∧ q' = q + (encodeList vs).length := by
  induction fuel generalizing d q q' shape with
  | zero => cases h
  | succ fuel ih =>
    rw [shapeObject_succ, map_eq_ok] at h
    obtain ⟨⟨ss, q₁⟩, hss, heq⟩ := h
    cases heq
    cases hleg with
    | object fields =>
      have hobject : ∀ g : FieldDef, g.arraySize = 0 → ∀ e, m.typeDefinition g = .ok e →
          Spells m buffer g (shapeObject m buffer fuel e) := by
        intro g hg e he q shape q' hq hshape hlegible
        obtain ⟨vs, hvs, hocc, rfl⟩ := ih (m.has_of_typeDefinition he) hq hshape hlegible
        exact ⟨.object (e.fields.map FieldDef.name) vs, .object hg he hvs.length hvs.fields, hocc, rfl⟩
      have hfield : ∀ f ∈ d.fields, Spells m buffer f (shapeField m buffer (shapeObject m buffer fuel) f) := by
        intro f hf
        by_cases hzero : f.arraySize = 0
        · exact spells_scalar hzero (hobject f hzero)
        · exact spells_array (by have := hsizes d hd f hf; omega) fun e he => hobject f.element rfl e he
      obtain ⟨vs, hvs, hocc, rfl⟩ := exists_values_of_shapes hfield hq hss fields
      exact ⟨vs, ⟨hvs.length_eq.symm, fun i hf hv => hvs.get hf hv⟩, hocc, rfl⟩

end Values

section Unique

variable {m : MsgDef} {buffer : Bytes}

def Alone (m : MsgDef) (buffer : Bytes) (f : FieldDef) (v : Value) : Prop :=
  ∀ w q, HasType m f w → OccursAt v.encode buffer q → OccursAt w.encode buffer q → v = w

theorem eq_of_alone {vs ws : List Value} (hlen : vs.length = ws.length)
    (h : ∀ i (hv : i < vs.length) (hw : i < ws.length) q, OccursAt vs[i].encode buffer q →
      OccursAt ws[i].encode buffer q → vs[i] = ws[i]) {q : ℕ} (hvs : OccursAt (encodeList vs) buffer q)
    (hws : OccursAt (encodeList ws) buffer q) : vs = ws := by
  induction vs generalizing ws q with
  | nil => exact (List.length_eq_zero_iff.1 hlen.symm).symm
  | cons v vs ih =>
    obtain ⟨w, ws, rfl⟩ : ∃ w ws', ws = w :: ws' := List.exists_cons_of_length_pos (by rw [← hlen]; simp)
    rw [encodeList, occursAt_append] at hvs hws
    obtain rfl : v = w := h 0 (by simp) (by simp) q hvs.1 hws.1
    rw [ih (by simpa using hlen)
      (fun i hv hw => h (i + 1) (by simpa using hv) (by simpa using hw)) hvs.2 hws.2]

theorem Scalar.alone {x y : Scalar} (htype : x.type = y.type) {q : ℕ} (hx : OccursAt x.toBytes buffer q)
    (hy : OccursAt y.toBytes buffer q) : x = y := by
  have hlen : x.toBytes.length = y.toBytes.length := by
    have hw := x.primitiveTypeToSize_type
    rw [htype, y.primitiveTypeToSize_type, Except.ok.injEq] at hw
    exact hw.symm
  have hread := x.ofBytes_toBytes
  rw [hx.unique hy hlen, htype, y.ofBytes_toBytes, Option.some.injEq] at hread
  exact hread.symm

theorem word_alone {n n' q : ℕ} (hn : n < 2 ^ 32) (hn' : n' < 2 ^ 32) (h : OccursAt (le 4 n) buffer q)
    (h' : OccursAt (le 4 n') buffer q) : n = n' := by
  have heq := h.unique h' (by rw [length_le, length_le])
  rw [← ofLE_le (w := 4) (n := n) (by omega), heq, ofLE_le (by omega)]

theorem HasType.alone {f : FieldDef} {v : Value} (h : HasType m f v) : Alone m buffer f v := by
  induction h with
  | @scalar f x size type =>
    intro w q hw hocc hocc'
    cases hw with
    | scalar _ type' => rw [Scalar.alone (type.symm.trans type') hocc hocc']
    | string _ type' => exact absurd (type.symm.trans type') x.type_ne_string
    | object _ definition =>
      exact absurd (type.symm.trans (MessageParser.type_of_typeDefinition definition)) x.type_ne_object
    | fixedArray size' => omega
    | dynamicArray size' => omega
  | @string f x size type bound =>
    intro w q hw hocc hocc'
    cases hw with
    | @scalar _ y _ type' => exact absurd (type'.symm.trans type) y.type_ne_string
    | @string _ y _ _ bound' =>
      rw [Value.encode, occursAt_append, length_le] at hocc hocc'
      rw [hocc.2.unique hocc'.2 (word_alone bound bound' hocc.1 hocc'.1)]
    | object _ definition =>
      have htype := MessageParser.type_of_typeDefinition definition
      rw [type] at htype
      cases htype
    | fixedArray size' => omega
    | dynamicArray size' => omega
  | @object f d vs size definition length fields ih =>
    intro w q hw hocc hocc'
    have htype := MessageParser.type_of_typeDefinition definition
    cases hw with
    | @scalar _ y _ type' => exact absurd (type'.symm.trans htype) y.type_ne_object
    | string _ type' =>
      rw [type'] at htype
      cases htype
    | object _ definition' length' fields' =>
      rw [definition] at definition'
      cases definition'
      rw [eq_of_alone (length.trans length'.symm)
        (fun i hv hw q => ih i (by omega) hv _ q (fields' i (by omega) hw)) hocc hocc']
    | fixedArray size' => omega
    | dynamicArray size' => omega
  | @fixedArray f vs size bound length elements ih =>
    intro w q hw hocc hocc'
    cases hw with
    | scalar size' | string size' | object size' | dynamicArray size' => omega
    | @fixedArray _ ws _ _ length' elements' =>
      rw [eq_of_alone (by omega) (fun i hv hw q => ih _ (List.getElem_mem hv) _ q (elements' _ (List.getElem_mem hw)))
        hocc hocc']
  | @dynamicArray f vs size bound elements ih =>
    intro w q hw hocc hocc'
    cases hw with
    | scalar size' | string size' | object size' | fixedArray size' => omega
    | @dynamicArray _ ws _ bound' elements' =>
      have hparts := occursAt_append.1 (show OccursAt (le 4 vs.length ++ encodeList vs) buffer q from hocc)
      have hparts' := occursAt_append.1 (show OccursAt (le 4 ws.length ++ encodeList ws) buffer q from hocc')
      rw [length_le] at hparts hparts'
      rw [eq_of_alone (word_alone bound bound' hparts.1 hparts'.1)
        (fun i hv hw q => ih _ (List.getElem_mem hv) _ q (elements' _ (List.getElem_mem hw))) hparts.2 hparts'.2]

/-- The encodings of two messages of a definition never stand in one place. -/
theorem IsMessage.unique {d : BaseMsgDef} {vs ws : List Value} (hvs : IsMessage m d vs) (hws : IsMessage m d ws) {q : ℕ}
    (hocc : OccursAt (encodeList vs) buffer q) (hocc' : OccursAt (encodeList ws) buffer q) : vs = ws :=
  eq_of_alone (hvs.length.trans hws.length.symm)
    (fun i hv hw q => (hvs.fields i (hvs.length ▸ hv) hv).alone _ q (hws.fields i (hws.length ▸ hw) hw)) hocc hocc'

end Unique

section Messages

variable {m : MsgDef} {buffer : Bytes} {base : List RosValue} {low : ℕ} {x : RosValue} {shape : Shape}

theorem readable_of_held (h : Represents buffer base low x shape) (hroot : base[0]? = some x) (hheld : Held buffer shape) :
    ReadsWhole base := by
  have hnode : ∀ v, InTree base v → ∃ s, Represents buffer base low v s ∧ Held buffer s :=
    fun v hv => hv.induct hroot h hheld Held.child
  refine ⟨fun v hv hcontainer hstr => ?_, fun v hv htype => ?_, fun v hv htype => ?_⟩
  · obtain ⟨s, hrep, w, hholds⟩ := hnode v hv
    cases hholds with
    | scalar occurs =>
      cases hrep with
      | scalar => exact ⟨_, (@Decodes.scalar _ base low _ _ occurs).reads⟩
    | string =>
      cases hrep
      exact absurd rfl hstr
    | numbers | array | object =>
      cases hrep
      cases hcontainer
  · obtain ⟨s, hrep, w, hholds⟩ := hnode v hv
    cases hholds with
    | @scalar y =>
      cases hrep
      exact absurd htype y.type_ne_string
    | string bound occurs =>
      cases hrep with
      | string => exact ⟨_, (@Decodes.string _ base low _ _ bound occurs).reads⟩
    | numbers | array | object =>
      cases hrep
      cases htype
  · obtain ⟨s, hrep, w, hholds⟩ := hnode v hv
    cases hholds with
    | @scalar y o occurs =>
      cases hrep
      cases y with
      | bool b =>
        have hbyte : (UInt8.ofNat b.toNat).toNat = b.toNat := by cases b <;> rfl
        have hocc : OccursAt (Scalar.uint8 (UInt8.ofNat b.toNat)).toBytes buffer o := by
          rw [Scalar.toBytes, hbyte]
          exact occurs
        exact ⟨_, by cases b <;> decide, (@Decodes.scalar _ base low _ _ hocc).reads⟩
      | _ => cases htype
    | string | numbers | array | object =>
      cases hrep
      cases htype

/-- The parser returns, and everything in its result can be read, exactly where the buffer has the encoding of
a message of the definition; there is one such message. -/
theorem readable_iff {info : MsgDefInfo} {name : Bytes} (hm : MsgDef.ofInfo info name = .ok m)
    (hsizes : m.SizesFit) {offset : ℕ} (hoffset : offset ≤ buffer.length) :
    (∃ fuel s, MessageParser.parse ⟨buffer, m⟩ offset fuel = .ok s ∧ ReadsWhole s.rosValues) ↔
      ∃! vs, IsMessage m m.toBaseMsgDef vs ∧ OccursAt (encodeList vs) buffer offset := by
  have hresolved := (MsgDef.builtFrom_of_ofInfo hm).resolved
  constructor
  · rintro ⟨fuel, s, hs, hread⟩
    have hfollows := MessageParser.parse_follows (p := ⟨buffer, m⟩) hresolved offset fuel
    rw [hs] at hfollows
    obtain ⟨⟨shape, q⟩, hshape, -, x, hx, hrep⟩ := hfollows.exists_of_ok
    obtain ⟨vs, hvs, hocc, -⟩ := exists_values_of_shapeObject hsizes (Or.inl rfl) hoffset hshape
      (hrep.legible (.root hx) hread)
    exact ⟨vs, ⟨hvs, hocc⟩, fun ws h => h.1.unique hvs h.2 hocc⟩
  · rintro ⟨vs, ⟨hvs, hocc⟩, -⟩
    obtain ⟨shape, hshape, hholds⟩ := shapeObject_finds (D := fun _ => True) (fun _ _ _ => trivial) trivial hvs
      (Nat.lt_succ_self _) offset hocc
    have hfollows := MessageParser.parse_follows (p := ⟨buffer, m⟩) hresolved offset (depthList vs + 1)
    rw [hshape] at hfollows
    obtain ⟨s, hs, -, x, hx, hrep⟩ := hfollows.exists_ok
    exact ⟨_, s, hs, readable_of_held hrep hx ⟨_, hholds⟩⟩

end Messages

theorem sizesFit_sampleData : sampleData.SizesFit := by
  intro d hd f hf
  have hroot : d = sampleData.toBaseMsgDef := by
    rcases hd with hd | ⟨key, hkey⟩
    · exact hd
    · rw [sampleData, AList.lookup_empty] at hkey
      cases hkey
  have hall : ∀ f ∈ sampleData.fields, f.arraySize = -1 ∨ 0 ≤ f.arraySize ∧ f.arraySize < 2 ^ 31 := by decide
  exact hall f (hroot ▸ hf)

theorem readable_iff_sampleData :
    (∃ fuel s, MessageParser.parse ⟨[9] ++ encodeList sampleValues, sampleData⟩ 1 fuel = .ok s ∧
        ReadsWhole s.rosValues) ↔
      ∃! vs, IsMessage sampleData sampleData.toBaseMsgDef vs ∧
        OccursAt (encodeList vs) ([9] ++ encodeList sampleValues) 1 :=
  readable_iff ofInfo_sampleDataInfo sizesFit_sampleData (by simp)

end Embag
