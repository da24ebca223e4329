import Embag.MessageRoundTrip
import Embag.ShapeFields

/-! What the parser leaves for the values of a message, with the field each of them is a value of:
the tag of a value is that of its field, also where the value is an empty array. -/

namespace Embag

open LittleEndian Outcomes

variable {m : MsgDef} {buffer : Bytes} {base : List RosValue}

mutual

/-- How deep arrays and objects are nested in a value. -/
def Value.height : Value → ℕ
  | .scalar _ | .string _ => 1
  | .array _ vs | .object _ vs => heightList vs + 1

def heightList : List Value → ℕ
  | [] => 0
  | v :: vs => max v.height (heightList vs)

end

theorem Value.height_le_of_mem {v : Value} {vs : List Value} (h : v ∈ vs) : v.height ≤ heightList vs := by
  induction vs with
  | nil => cases h
  | cons w vs ih =>
    rw [heightList]
    rcases List.mem_cons.1 h with rfl | h
    · exact le_max_left _ _
    · exact (ih h).trans (le_max_right _ _)

/-- The fields whose values have children of their own, one slot each. -/
def FieldDef.HasChildren (f : FieldDef) : Prop :=
  f.type = .object ∨ f.arraySize ≠ 0 ∧ f.type = .string

instance (f : FieldDef) : Decidable f.HasChildren := instDecidableOr

/-- The parser left `x` for a value of the field. -/
inductive Parsed (m : MsgDef) (buffer : Bytes) (base : List RosValue) : FieldDef → RosValue → Value → Prop
  | scalar {f : FieldDef} {s : Scalar} {o : ℕ} (size : f.arraySize = 0) (type : f.type = s.type)
    (occurs : OccursAt s.toBytes buffer o) :
    Parsed m buffer base f (.primitive s.type ⟨o, some buffer⟩) (.scalar s)
  | string {f : FieldDef} {s : Bytes} {o : ℕ} (size : f.arraySize = 0) (type : f.type = .string)
    (bound : s.length < 2 ^ 32) (occurs : OccursAt (le 4 s.length ++ s) buffer o) :
    Parsed m buffer base f (.primitive .string ⟨o, some buffer⟩) (.string s)
  | object {f : FieldDef} {d : BaseMsgDef} {c : ℕ} {vs : List Value} (xs : ℕ → RosValue)
    (size : f.arraySize = 0) (definition : m.typeDefinition f = .ok d) (length : vs.length = d.fields.length)
    (slots : ∀ i < vs.length, base[c + i]? = some (xs i))
    (fields : ∀ i (hf : i < d.fields.length) (hv : i < vs.length), Parsed m buffer base d.fields[i] (xs i) vs[i]) :
    Parsed m buffer base f (.object ⟨c, vs.length⟩ d.fieldIndexes) (.object (d.fields.map FieldDef.name) vs)
  | array {f : FieldDef} {c : ℕ} {dynamic : Bool} {vs : List Value} (xs : ℕ → RosValue)
    (size : f.arraySize ≠ 0) (type : f.type = .object ∨ f.type = .string)
    (slots : ∀ i < vs.length, base[c + i]? = some (xs i))
    (elements : ∀ i (hv : i < vs.length), Parsed m buffer base f.element (xs i) vs[i]) :
    Parsed m buffer base f (.array ⟨c, vs.length⟩) (.array dynamic vs)
  | numbers {f : FieldDef} {o w : ℕ} {dynamic : Bool} {xs : List Scalar} (size : f.arraySize ≠ 0)
    (width : primitiveTypeToSize f.type = .ok w) (types : ∀ x ∈ xs, x.type = f.type)
    (occurs : OccursAt (xs.flatMap Scalar.toBytes) buffer o) :
    Parsed m buffer base f (.primitiveArray f.type o xs.length buffer) (.array dynamic (xs.map .scalar))

structure ParsedFields (m : MsgDef) (buffer : Bytes) (base : List RosValue) (fields : List FieldDef)
    (c : ℕ) (vs : List Value) : Prop where
  length : vs.length = fields.length
  exists_slots : ∃ xs : ℕ → RosValue, (∀ i < vs.length, base[c + i]? = some (xs i)) ∧
    ∀ i (hf : i < fields.length) (hv : i < vs.length), Parsed m buffer base fields[i] (xs i) vs[i]

/-- The field's shape says what the tag of a value is, the vector which slots its children are in,
and the buffer what the values are. -/
theorem HasShape.parsed {D : BaseMsgDef → Prop} {low : ℕ} {f : FieldDef} {shape : Shape} {x : RosValue}
    {v : Value} (h : HasShape m f shape) (hx : Represents buffer base low x shape)
    (hv : Holds D buffer shape v) : Parsed m buffer base f x v := by
  induction h generalizing x v with
  | scalar size width =>
    cases hx
    generalize htype : FieldDef.type _ = type at hv
    cases hv with
    | scalar occurs => exact .scalar size htype occurs
  | string size type =>
    cases hx
    cases hv with
    | string bound occurs => exact .string size type bound occurs
  | object size definition _ fields ih =>
    cases hx with
    | object xs _ hlength slots children =>
      cases hv with
      | object length _ values =>
        rw [length] at slots ⊢
        refine .object xs size definition (by rw [← length, hlength]) slots fun i hf hv => ?_
        exact ih i hf (by omega) (children i _) (values i _ hv)
  | array size type elements ih =>
    cases hx with
    | array xs _ slots children =>
      cases hv with
      | array length values =>
        rw [length] at slots ⊢
        exact .array xs size type slots fun i hv => ih i (by omega) (children i _) (values i _ hv)
  | numbers size width =>
    cases hx
    generalize htype : FieldDef.type _ = type at hv
    cases hv with
    | numbers _ types occurs =>
      subst htype
      exact .numbers size width types occurs

def ShapedFields (D : BaseMsgDef → Prop) (m : MsgDef) (buffer : Bytes) (base : List RosValue) (c : ℕ)
    (ss : List Shape) (vs : List Value) : Prop :=
  ∃ xs : ℕ → RosValue, (∀ i < vs.length, base[c + i]? = some (xs i)) ∧
    ∀ i (hf : i < m.fields.length) (hs : i < ss.length) (hv : i < vs.length),
      HasShape m m.fields[i] ss[i] ∧ Represents buffer base 1 (xs i) ss[i] ∧ Holds D buffer ss[i] vs[i]

theorem MessageParser.exists_shaped {p : MessageParser} (D : BaseMsgDef → Prop) (hresolved : p.msgDef.Resolved)
    (hD : ∀ key d, p.msgDef.embeddedDefinitionMap.lookup key = some d → D d) (hroot : D p.msgDef.toBaseMsgDef)
    {vs : List Value} (hmsg : IsMessage p.msgDef p.msgDef.toBaseMsgDef vs) {offset fuel : ℕ}
    (hfuel : depthList vs < fuel) (hocc : OccursAt (encodeList vs) p.messageBuffer offset) :
    ∃ s c ss, p.parse offset fuel = .ok s ∧
      s.rosValues[0]? = some (.object ⟨c, vs.length⟩ p.msgDef.fieldIndexes) ∧ ss.length = vs.length ∧
      (∃ q, shapeObject p.msgDef p.messageBuffer fuel p.msgDef.toBaseMsgDef offset =
        .ok (.object p.msgDef.toBaseMsgDef ss, q)) ∧
      ShapedFields D p.msgDef p.messageBuffer s.rosValues c ss vs := by
  obtain ⟨fuel, rfl⟩ : ∃ k, fuel = k + 1 := ⟨fuel - 1, by omega⟩
  obtain ⟨shape, hshape, hholds⟩ := shapeObject_finds hD hroot hmsg hfuel offset hocc
  have hfollows := p.parse_follows hresolved offset (fuel + 1)
  rw [hshape] at hfollows
  obtain ⟨s, hs, -, x, hx, hrep⟩ := hfollows.exists_ok
  have hsucc := hshape
  rw [shapeObject_succ, map_eq_ok] at hsucc
  obtain ⟨⟨ss, q⟩, hss, heq⟩ := hsucc
  cases heq
  obtain ⟨-, hfields⟩ := hasShape_of_shapeFields (fun _ _ _ _ => hasShape_of_shapeField) hss
  cases hrep with
  | @object c _ _ xs _ _ slots children =>
    cases hholds with
    | object length _ values =>
      refine ⟨s, c, ss, hs, length ▸ hx, length, ⟨_, hshape⟩, xs, length ▸ slots, fun i hf hs hv => ?_⟩
      exact ⟨hfields i hf hs, children i hs, values i hs hv⟩

theorem MessageParser.exists_parsed {p : MessageParser} (hresolved : p.msgDef.Resolved) {vs : List Value}
    (hmsg : IsMessage p.msgDef p.msgDef.toBaseMsgDef vs) {offset fuel : ℕ} (hfuel : depthList vs < fuel)
    (hocc : OccursAt (encodeList vs) p.messageBuffer offset) :
    ∃ s c, p.parse offset fuel = .ok s ∧
      s.rosValues[0]? = some (.object ⟨c, vs.length⟩ p.msgDef.fieldIndexes) ∧
      ParsedFields p.msgDef p.messageBuffer s.rosValues p.msgDef.fields c vs := by
  obtain ⟨s, c, ss, hs, hroot, hlength, -, xs, slots, hfields⟩ :=
    exists_shaped (fun _ => True) hresolved (fun _ _ _ => trivial) trivial hmsg hfuel hocc
  refine ⟨s, c, hs, hroot, hmsg.length, xs, slots, fun i hf hv => ?_⟩
  obtain ⟨hshape, hrep, hholds⟩ := hfields i hf (by omega) hv
  exact hshape.parsed hrep hholds

theorem FieldDef.not_hasChildren_of_size {f : FieldDef} {w : ℕ} (h : primitiveTypeToSize f.type = .ok w) :
    ¬ f.HasChildren := by
  rintro (htype | ⟨-, htype⟩) <;> rw [htype] at h <;> cases h

namespace Parsed

variable {f : FieldDef} {x : RosValue} {v : Value}

theorem getType_iff (h : Parsed m buffer base f x v) :
    x.getType = .object ∨ x.getType = .array ↔ f.HasChildren := by
  cases h with
  | @scalar _ s o size type occurs =>
    have hcontainer := s.isContainer_type
    refine iff_of_false ?_ (FieldDef.not_hasChildren_of_size (type ▸ s.primitiveTypeToSize_type))
    rw [RosValue.getType_primitive]
    rintro (h | h) <;> rw [h] at hcontainer <;> cases hcontainer
  | string size type =>
    refine iff_of_false nofun ?_
    rintro (h | h)
    · rw [type] at h
      cases h
    · exact h.1 size
  | object xs size definition => exact iff_of_true (Or.inl rfl) (Or.inl (MessageParser.type_of_typeDefinition definition))
  | array xs size type => exact iff_of_true (Or.inr rfl) (type.imp_right fun h => ⟨size, h⟩)
  | numbers size width => exact iff_of_false nofun (FieldDef.not_hasChildren_of_size width)

end Parsed

end Embag
