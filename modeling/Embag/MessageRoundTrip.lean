import Embag.MessageCodec
import Embag.MessageFollows

/-! Decoding undoes serialization. The bytes of a value have the layout of its type,
and the parser leaves a vector that represents that layout, so the vector represents
the value. -/

namespace Embag

open LittleEndian Outcomes

/-- The value lies in the buffer where the shape says; `D` holds of the definitions of
the objects in it. -/
inductive Holds (D : BaseMsgDef → Prop) (buffer : Bytes) : Shape → Value → Prop
  | scalar {s : Scalar} {o : ℕ} (occurs : OccursAt s.toBytes buffer o) :
    Holds D buffer (.scalar s.type o s.toBytes.length) (.scalar s)
  | string {s : Bytes} {o : ℕ} (bound : s.length < 2 ^ 32)
    (occurs : OccursAt (le 4 s.length ++ s) buffer o) :
    Holds D buffer (.string o s.length) (.string s)
  | numbers {type : RosValueType} {o w : ℕ} {dynamic : Bool} {xs : List Scalar}
    (width : primitiveTypeToSize type = .ok w) (types : ∀ x ∈ xs, x.type = type)
    (occurs : OccursAt (xs.flatMap Scalar.toBytes) buffer o) :
    Holds D buffer (.numbers type o xs.length w) (.array dynamic (xs.map .scalar))
  | array {dynamic : Bool} {ss : List Shape} {vs : List Value} (length : ss.length = vs.length)
    (children : ∀ i (hs : i < ss.length) (hv : i < vs.length), Holds D buffer ss[i] vs[i]) :
    Holds D buffer (.array ss) (.array dynamic vs)
  | object {d : BaseMsgDef} {ss : List Shape} {vs : List Value} (length : ss.length = vs.length)
    (definition : D d)
    (children : ∀ i (hs : i < ss.length) (hv : i < vs.length), Holds D buffer ss[i] vs[i]) :
    Holds D buffer (.object d ss) (.object (d.fields.map FieldDef.name) vs)

theorem Represents.decodes {buffer : Bytes} {base : List RosValue} {low : ℕ} {x : RosValue}
    {shape : Shape} {v : Value} (h : Represents buffer base low x shape)
    (hv : Holds (fun d => (d.fields.map FieldDef.name).Nodup) buffer shape v) :
    Decodes buffer base low x v := by
  induction h generalizing v with
  | scalar => cases hv with | scalar occurs => exact .scalar occurs
  | string => cases hv with | string bound occurs => exact .string bound occurs
  | numbers => cases hv with | numbers width types occurs => exact .primitiveArray types occurs
  | array xs above slots _ ih =>
    cases hv with
    | array length children =>
      rw [length] at slots ⊢
      exact .array xs above slots fun i hi => ih i (length ▸ hi) (children i _ hi)
  | @object _ d _ xs above hlength slots _ ih =>
    cases hv with
    | object length definition children =>
      rw [length] at slots hlength ⊢
      refine .object xs above (by rw [hlength, List.length_map]) ?_ slots
        fun i hi => ih i (length ▸ hi) (children i _ hi)
      intro i hi
      rw [List.getElem_map]
      exact BaseMsgDef.lookup_fieldIndexes definition (by simpa using hi)

variable {m : MsgDef} {buffer : Bytes} {D : BaseMsgDef → Prop}

def Finds (D : BaseMsgDef → Prop) (buffer : Bytes) (layout : Layout) (v : Value) : Prop :=
  ∀ q, OccursAt v.encode buffer q →
    ∃ shape, layout q = .ok (shape, q + v.encode.length) ∧ Holds D buffer shape v

theorem shapes_finds {α : Type} (step : α → Layout) {items : List α} {vs : List Value}
    (hlen : items.length = vs.length)
    (h : ∀ i (hi : i < items.length) (hv : i < vs.length), Finds D buffer (step items[i]) vs[i])
    {q : ℕ} (hocc : OccursAt (encodeList vs) buffer q) :
    ∃ ss, shapes step items q = .ok (ss, q + (encodeList vs).length) ∧ ss.length = vs.length ∧
      ∀ i (hs : i < ss.length) (hv : i < vs.length), Holds D buffer ss[i] vs[i] := by
  induction items generalizing vs q with
  | nil =>
    obtain rfl : vs = [] := List.length_eq_zero_iff.1 hlen.symm
    exact ⟨[], rfl, rfl, nofun⟩
  | cons a items ih =>
    obtain ⟨v, vs, rfl⟩ : ∃ v vs', vs = v :: vs' :=
      List.exists_cons_of_length_pos (by rw [← hlen]; simp)
    rw [encodeList, occursAt_append] at hocc
    obtain ⟨shape, hshape, hholds⟩ := h 0 (by simp) (by simp) q hocc.1
    rw [List.getElem_cons_zero, List.getElem_cons_zero] at hshape
    have hlen' : items.length = vs.length := by simpa using hlen
    obtain ⟨ss, hss, hlength, hall⟩ := ih hlen'
      (fun i hi hv => h (i + 1) (by simpa using hi) (by simpa using hv)) hocc.2
    refine ⟨shape :: ss, ?_, by rw [List.length_cons, List.length_cons, hlength], ?_⟩
    · rw [shapes_cons_of_ok hshape, hss, encodeList, List.length_append, Nat.add_assoc]
      rfl
    · intro i hs hv
      cases i with
      | zero => exact hholds
      | succ i => exact hall i (by simpa using hs) (by simpa using hv)

theorem typeSize_of_scalar {f : FieldDef} {x : Scalar} (ht : f.type = x.type) :
    f.typeSize = .ok x.toBytes.length := by
  have hne : ¬ (f.type = .object ∨ f.type = .string) := by
    rw [ht]
    exact not_or.2 ⟨x.type_ne_object, x.type_ne_string⟩
  rw [FieldDef.typeSize, if_neg hne, ht, x.primitiveTypeToSize_type]

theorem shapePrimitive_scalar {f : FieldDef} {x : Scalar} (ht : f.type = x.type) :
    Finds D buffer (shapePrimitive buffer f) (.scalar x) := by
  intro q hocc
  have hstr : f.type ≠ .string := by rw [ht]; exact x.type_ne_string
  refine ⟨.scalar x.type q x.toBytes.length, ?_, .scalar hocc⟩
  rw [shapePrimitive, if_neg hstr, typeSize_of_scalar ht, ht]
  rfl

theorem shapePrimitive_string {f : FieldDef} {x : Bytes} (ht : f.type = .string)
    (hx : x.length < 2 ^ 32) : Finds D buffer (shapePrimitive buffer f) (.string x) := by
  intro q hocc
  have hlen : (Value.string x).encode.length = x.length + 4 := by
    rw [Value.encode, List.length_append, length_le, Nat.add_comm]
  refine ⟨.string q x.length, ?_, .string hx hocc⟩
  rw [shapePrimitive, if_pos ht,
    atIndex_of_occursAt (le_ne_nil (by norm_num) _) (OccursAt.left hocc), ok_bind,
    readWord_of_occursAt hx (OccursAt.left hocc), ok_bind, hlen, ← Nat.add_assoc]
  rfl

def lengthPrefix (dynamic : Bool) (n : ℕ) : Bytes := if dynamic then LittleEndian.le 4 n else []

theorem shapeLength_of_hasType {f : FieldDef} {dynamic : Bool} {vs : List Value} {q : ℕ}
    (h : HasType m f (.array dynamic vs))
    (hocc : OccursAt (lengthPrefix dynamic vs.length) buffer q) :
    shapeLength buffer f q = .ok (vs.length, q + (lengthPrefix dynamic vs.length).length) := by
  cases h with
  | fixedArray size bound length elements =>
    have hne : f.arraySize ≠ -1 := by omega
    have hmod : (f.arraySize % 2 ^ 32).toNat = vs.length := by omega
    rw [shapeLength, if_neg hne, hmod]
    rfl
  | dynamicArray size bound elements =>
    rw [lengthPrefix, if_pos rfl] at hocc
    rw [shapeLength, if_pos size, atIndex_of_occursAt (le_ne_nil (by norm_num) _) hocc, ok_bind,
      readWord_of_occursAt bound hocc, ok_bind, lengthPrefix, if_pos rfl, length_le]
    rfl

theorem elements_of_hasType {f : FieldDef} {dynamic : Bool} {vs : List Value}
    (h : HasType m f (.array dynamic vs)) : ∀ v ∈ vs, HasType m f.element v := by
  cases h with
  | fixedArray _ _ _ elements => exact elements
  | dynamicArray _ _ elements => exact elements

theorem scalars_of_hasType {f : FieldDef} {vs : List Value}
    (htype : ¬ (f.type = .object ∨ f.type = .string)) (h : ∀ v ∈ vs, HasType m f.element v) :
    ∃ xs : List Scalar, vs = xs.map .scalar ∧ ∀ x ∈ xs, x.type = f.type := by
  induction vs with
  | nil => exact ⟨[], rfl, nofun⟩
  | cons v vs ih =>
    obtain ⟨xs, rfl, hxs⟩ := ih fun w hw => h w (List.mem_cons_of_mem _ hw)
    cases h v List.mem_cons_self with
    | @scalar _ x _ type =>
      refine ⟨x :: xs, rfl, fun y hy => ?_⟩
      rcases List.mem_cons.1 hy with rfl | hy
      · exact type.symm
      · exact hxs y hy
    | string _ type => exact absurd (Or.inr type) htype
    | object _ hd => exact absurd (Or.inl (MessageParser.type_of_typeDefinition hd)) htype
    | fixedArray size => simp at size
    | dynamicArray size => simp at size

theorem length_flatMap_toBytes {xs : List Scalar} {type : RosValueType} {w : ℕ}
    (hw : primitiveTypeToSize type = .ok w) (hxs : ∀ x ∈ xs, x.type = type) :
    (xs.flatMap Scalar.toBytes).length = xs.length * w := by
  induction xs with
  | nil => simp
  | cons x xs ih =>
    have hx := x.primitiveTypeToSize_type
    rw [hxs x List.mem_cons_self, hw, Except.ok.injEq] at hx
    rw [List.flatMap_cons, List.length_append, ih fun y hy => hxs y (List.mem_cons_of_mem _ hy), ← hx,
      List.length_cons, Nat.succ_mul, Nat.add_comm]

theorem shapeArray_finds {object : BaseMsgDef → Layout} {f : FieldDef} {dynamic : Bool}
    {vs : List Value} (hty : HasType m f (.array dynamic vs))
    (helements : ∀ v ∈ vs, Finds D buffer (shapeElement m buffer object f) v) :
    Finds D buffer (shapeArray m buffer object f) (.array dynamic vs) := by
  intro q hocc
  have hocc' := occursAt_append.1 (show OccursAt (lengthPrefix dynamic vs.length ++ encodeList vs)
    buffer q from hocc)
  have hencode : (Value.array dynamic vs).encode.length =
      (lengthPrefix dynamic vs.length).length + (encodeList vs).length := by
    rw [Value.encode, List.length_append]
    rfl
  unfold shapeArray
  rw [shapeLength_of_hasType hty hocc'.1, ok_bind, hencode, ← Nat.add_assoc]
  by_cases htype : f.type = .object ∨ f.type = .string
  · obtain ⟨ss, hss, hlen, hall⟩ := shapes_finds (fun _ => shapeElement m buffer object f)
      List.length_range (fun i _ hv => helements vs[i] (List.getElem_mem hv)) hocc'.2
    refine ⟨.array ss, ?_, .array hlen hall⟩
    simp only [if_pos htype, hss, ok_bind]
    rfl
  · obtain ⟨xs, rfl, hxs⟩ := scalars_of_hasType htype (elements_of_hasType hty)
    obtain ⟨w, hw, hsize⟩ := exists_typeSize htype
    rw [encodeList_map_scalar, length_flatMap_toBytes hw hxs]
    rw [encodeList_map_scalar] at hocc'
    simp only [if_neg htype, hsize, ok_bind, List.length_map]
    rw [List.length_map] at hocc'
    exact ⟨_, rfl, .numbers hw hxs hocc'.2⟩

/-- Every value of a field is found by the field's layout: the induction over the
value's type. -/
theorem shapeField_finds (hD : ∀ key d, m.embeddedDefinitionMap.lookup key = some d → D d)
    {f : FieldDef} {v : Value} (hty : HasType m f v) {fuel : ℕ} (hfuel : v.depth ≤ fuel) :
    Finds D buffer (shapeField m buffer (shapeObject m buffer fuel) f) v := by
  induction hty generalizing fuel with
  | @scalar f x size type =>
    have hne : f.type ≠ .object := by rw [type]; exact x.type_ne_object
    rw [shapeField, if_pos size, shapeElement_of_ne hne]
    exact shapePrimitive_scalar type
  | @string f x size type bound =>
    have hne : f.type ≠ .object := by rw [type]; decide
    rw [shapeField, if_pos size, shapeElement_of_ne hne]
    exact shapePrimitive_string type bound
  | @object f d vs size definition length fields ih =>
    rw [Value.depth] at hfuel
    obtain ⟨fuel, rfl⟩ : ∃ k, fuel = k + 1 := ⟨fuel - 1, by omega⟩
    rw [shapeField, if_pos size, shapeElement_of_definition definition]
    intro q hocc
    have hdepth : ∀ v ∈ vs, v.depth ≤ fuel :=
      fun v hv => (Value.depth_le_of_mem hv).trans (by omega)
    obtain ⟨ss, hss, hlen, hall⟩ := shapes_finds _ length.symm
      (fun i hi hv => ih i hi hv (hdepth vs[i] (List.getElem_mem hv))) hocc
    obtain ⟨key, hkey⟩ := MessageParser.mem_of_typeDefinition definition
    exact ⟨.object d ss, shapeObject_of_fields hss, .object hlen (hD key d hkey) hall⟩
  | @fixedArray f vs size bound length elements ih =>
    rw [shapeField, if_neg (by omega)]
    refine shapeArray_finds (.fixedArray size bound length elements) fun v hv => ?_
    have h := ih v hv ((Value.depth_le_of_mem hv).trans hfuel)
    rw [shapeField, if_pos f.arraySize_element] at h
    exact h
  | @dynamicArray f vs size bound elements ih =>
    rw [shapeField, if_neg (by omega)]
    refine shapeArray_finds (.dynamicArray size bound elements) fun v hv => ?_
    have h := ih v hv ((Value.depth_le_of_mem hv).trans hfuel)
    rw [shapeField, if_pos f.arraySize_element] at h
    exact h

theorem shapeObject_finds (hD : ∀ key d, m.embeddedDefinitionMap.lookup key = some d → D d)
    {d : BaseMsgDef} (hd : D d) {vs : List Value} (hmsg : IsMessage m d vs) {fuel : ℕ}
    (hfuel : depthList vs < fuel) :
    Finds D buffer (shapeObject m buffer fuel d) (.object (d.fields.map FieldDef.name) vs) := by
  intro q hocc
  obtain ⟨fuel, rfl⟩ : ∃ k, fuel = k + 1 := ⟨fuel - 1, by omega⟩
  have hdepth : ∀ v ∈ vs, v.depth ≤ fuel :=
    fun v hv => (Value.depth_le_of_mem hv).trans (by omega)
  obtain ⟨ss, hss, hlen, hall⟩ := shapes_finds _ hmsg.length.symm
    (fun i hi hv => shapeField_finds hD (hmsg.fields i hi hv)
      (hdepth vs[i] (List.getElem_mem hv))) hocc
  exact ⟨.object d ss, shapeObject_of_fields hss, .object hlen hd hall⟩

namespace MessageParser

variable {p : MessageParser}

/-- A whole message: the root slot represents it, and the cursor stands behind it. -/
theorem parse_inits (hresolved : p.msgDef.Resolved) (hdist : p.msgDef.DistinctFields)
    {vs : List Value} (hmsg : IsMessage p.msgDef p.msgDef.toBaseMsgDef vs) {offset fuel : ℕ}
    (hfuel : depthList vs < fuel) (hocc : OccursAt (encodeList vs) p.messageBuffer offset) :
    ∃ s', p.parse offset fuel = .ok s' ∧
      s'.messageBufferOffset = offset + (encodeList vs).length ∧
      ∃ low x, s'.rosValues[0]? = some x ∧ Decodes p.messageBuffer s'.rosValues low x
        (.object (p.msgDef.fields.map FieldDef.name) vs) := by
  obtain ⟨shape, hshape, hholds⟩ := shapeObject_finds
    (D := fun d => (d.fields.map FieldDef.name).Nodup)
    (fun key d hkey => hdist d (Or.inr ⟨key, hkey⟩)) (hdist _ (Or.inl rfl)) hmsg hfuel offset hocc
  have hfollows := p.parse_follows hresolved offset fuel
  rw [hshape] at hfollows
  obtain ⟨s', hs', hcursor, x, hx, hrep⟩ := hfollows.exists_ok
  exact ⟨s', hs', hcursor, 1, x, hx, hrep.decodes hholds⟩

end MessageParser

end Embag
