import Embag.MessageTree
import Embag.MessageWalk
import Embag.MsgDefBuild

/-! The reads a message causes, while it is parsed and through the values it leaves.
They stay inside the buffer exactly when the buffer ends inside no length word and,
once the layout is complete, inside no leaf. -/

namespace Embag

open LittleEndian Outcomes

/-- The reads a caller makes of one value are in the buffer, or throw. -/
structure ReadsInside (base : List RosValue) (v : RosValue) : Prop where
  scalar : v.getType.isContainer = false → v.getType ≠ .string → v.as v.getType ≠ .error .undefined
  string : v.getType = .string → v.asString ≠ .error .undefined
  numbers : v.getType = .primitiveArray → v.primitiveArrayBytes base ≠ .error .undefined

/-- Parsing reads inside the buffer, and so does every caller of what it returns. -/
structure MessageParser.ReadsInside (p : MessageParser) (offset : ℕ) : Prop where
  parse : ∀ fuel, p.parse offset fuel ≠ .error .undefined
  values : ∀ fuel s, p.parse offset fuel = .ok s →
    ∀ v, InTree s.rosValues v → Embag.ReadsInside s.rosValues v

/-- The buffer ends inside no length word the walk comes to and, if the walk comes to an
end, inside none of its leaves. -/
structure Fits (m : MsgDef) (buffer : Bytes) (offset : ℕ) : Prop where
  words : ¬ ComesToTornWord m buffer m.fields offset
  leaves : ∀ leaves q, Walks m buffer m.fields offset leaves [] q →
    ∀ r ∈ leaves, ¬ Straddles buffer r

variable {buffer : Bytes} {base : List RosValue} {low : ℕ} {x : RosValue} {shape : Shape}

theorem checkedRead_eq_undefined {o n : ℕ} :
    (atIndex buffer o >>= fun _ => readRaw buffer o n) = .error .undefined ↔
      Straddles buffer (o, o + n) := by
  unfold Straddles atIndex readRaw sliceAt
  by_cases ho : o < buffer.length
  · rw [if_pos ho, ok_bind]
    by_cases hn : o + n ≤ buffer.length
    · rw [if_pos hn]
      exact ⟨nofun, fun h => absurd hn (not_le.2 h.2)⟩
    · rw [if_neg hn]
      exact ⟨fun _ => ⟨ho, not_le.1 hn⟩, fun _ => rfl⟩
  · rw [if_neg ho, error_bind]
    exact ⟨nofun, fun h => absurd h.1 ho⟩

theorem exists_ofBytes {type : RosValueType} {w : ℕ} (h : primitiveTypeToSize type = .ok w)
    (bs : Bytes) : ∃ s, Scalar.ofBytes type bs = some s := by
  cases type <;> first | exact ⟨_, rfl⟩ | cases h

theorem as_scalar {type : RosValueType} {o w : ℕ} (hw : primitiveTypeToSize type = .ok w) :
    (RosValue.primitive type ⟨o, some buffer⟩).as type = .error .undefined ↔
      Straddles buffer (o, o + w) := by
  have hne : ¬ ((RosValue.primitive type ⟨o, some buffer⟩).getType = .object ∨
      (RosValue.primitive type ⟨o, some buffer⟩).getType = .array) := by
    rw [RosValue.getType_primitive]
    rintro (h | h) <;> rw [h] at hw <;> cases hw
  rw [← checkedRead_eq_undefined, RosValue.as, if_neg hne, hw, ok_bind, RosValue.getPrimitive]
  cases (atIndex buffer o >>= fun _ => readRaw buffer o w) with
  | error e => exact ⟨fun h => by cases h; rfl, fun h => by cases h; rfl⟩
  | ok bs =>
    obtain ⟨s, hs⟩ := exists_ofBytes hw bs
    rw [ok_bind, hs]
    exact iff_of_false (fun h => by cases h) (fun h => by cases h)

theorem asString_string {o n : ℕ} (hn : readWord 4 buffer o = .ok n) :
    (RosValue.primitive .string ⟨o, some buffer⟩).asString = .error .undefined ↔
      Straddles buffer (o, o + 4 + n) := by
  have hat := atIndex_of_readWord hn (by norm_num)
  rw [RosValue.asString, if_neg (not_not.2 (RosValue.getType_primitive .string _)), hat, ok_bind,
    hn, ok_bind, readRaw, sliceAt, Straddles]
  rw [atIndex_ok_iff] at hat
  by_cases hend : o + 4 + n ≤ buffer.length
  · rw [if_pos hend]
    exact ⟨fun h => (by cases h), fun h => absurd hend (not_le.2 h.2)⟩
  · rw [if_neg hend]
    exact ⟨fun _ => ⟨hat, not_le.1 hend⟩, fun _ => rfl⟩

theorem primitiveArrayBytes_numbers {type : RosValueType} {o n w : ℕ}
    (hw : primitiveTypeToSize type = .ok w) :
    (RosValue.primitiveArray type o n buffer).primitiveArrayBytes base = .error .undefined ↔
      Straddles buffer (o, o + n * w) := by
  rw [← checkedRead_eq_undefined, RosValue.primitiveArrayBytes,
    RosValue.getPrimitiveArrayRosValueBuffer,
    if_neg (not_not.2 (RosValue.getType_primitiveArray type o n buffer)),
    Represents.at_of_numbers hw, ok_bind, Pointer.deref, ok_bind, RosValue.primitiveAddress,
    RosValue.getPrimitiveArrayRosValueBufferSize, hw, Nat.zero_mul, Nat.add_zero]
  cases atIndex buffer o with
  | error e => rfl
  | ok => rfl

/-- The reads of a value leave the buffer when the buffer ends inside one of its leaves. -/
theorem Represents.readsInside (h : Represents buffer base low x shape)
    (hfits : ∀ r ∈ shape.regions, ¬ Straddles buffer r) : ReadsInside base x := by
  cases h with
  | @scalar type o w hw =>
    have hprim := isContainer_of_size hw
    refine ⟨fun _ _ h => ?_, fun h => ?_, fun h => ?_⟩
    · exact hfits _ (List.mem_singleton_self _) ((as_scalar hw).1 h)
    · rw [RosValue.getType_primitive] at h
      rw [h] at hw
      cases hw
    · rw [RosValue.getType_primitive] at h
      rw [h] at hw
      cases hw
  | string hn =>
    refine ⟨fun _ h => absurd rfl h, fun _ h => ?_, nofun⟩
    exact hfits _ (List.mem_singleton_self _) ((asString_string hn).1 h)
  | numbers hw =>
    refine ⟨nofun, nofun, fun _ h => ?_⟩
    exact hfits _ (List.mem_singleton_self _) ((primitiveArrayBytes_numbers hw).1 h)
  | array => exact ⟨nofun, nofun, nofun⟩
  | object => exact ⟨nofun, nofun, nofun⟩

theorem mem_regionsOf {ss : List Shape} {r : Region} :
    r ∈ regionsOf ss ↔ ∃ s ∈ ss, r ∈ s.regions := by
  induction ss with
  | nil => simp [regionsOf]
  | cons s ss ih => simp [regionsOf, ih]

theorem fits_child {s s' : Shape} {i : ℕ} (h : ∀ r ∈ s.regions, ¬ Straddles buffer r)
    (hchild : s.child? i = some s') : ∀ r ∈ s'.regions, ¬ Straddles buffer r := by
  cases s with
  | scalar => cases hchild
  | string => cases hchild
  | numbers type o n w =>
    rw [Shape.child?] at hchild
    split_ifs at hchild with hi
    cases hchild
    intro r hr
    obtain rfl := List.mem_singleton.1 hr
    rintro ⟨hstart, hend⟩
    refine h _ (List.mem_singleton_self _) ⟨Nat.lt_of_le_of_lt (Nat.le_add_right _ _) hstart, ?_⟩
    have hle : (i + 1) * w ≤ n * w := Nat.mul_le_mul_right w hi
    rw [Nat.succ_mul] at hle
    change buffer.length < o + i * w + w at hend
    change buffer.length < o + n * w
    omega
  | array ss =>
    intro r hr
    exact h r (mem_regionsOf.2 ⟨s', List.mem_of_getElem? hchild, hr⟩)
  | object d ss =>
    intro r hr
    exact h r (mem_regionsOf.2 ⟨s', List.mem_of_getElem? hchild, hr⟩)

theorem Represents.exists_leaf (h : Represents buffer base low x shape) (hx : InTree base x)
    {r : Region} (hr : r ∈ shape.regions) (hinside : ∀ v, InTree base v → ReadsInside base v) :
    ¬ Straddles buffer r := by
  induction h with
  | scalar hw =>
    obtain rfl := List.mem_singleton.1 hr
    rw [← as_scalar hw]
    exact (hinside _ hx).scalar (isContainer_of_size hw) (by
      intro h
      rw [RosValue.getType_primitive] at h
      rw [h] at hw
      cases hw)
  | string hn =>
    obtain rfl := List.mem_singleton.1 hr
    rw [← asString_string hn]
    exact (hinside _ hx).string rfl
  | numbers hw =>
    obtain rfl := List.mem_singleton.1 hr
    rw [← primitiveArrayBytes_numbers hw]
    exact (hinside _ hx).numbers rfl
  | array xs above slots children ih =>
    obtain ⟨s, hs, hr⟩ := mem_regionsOf.1 hr
    obtain ⟨i, hi, rfl⟩ := List.mem_iff_getElem.1 hs
    exact ih i hi (hx.child rfl hi (RosValueList.at_of_lt hi) (deref_slot (slots i hi))) hr
  | object xs above length slots children ih =>
    obtain ⟨s, hs, hr⟩ := mem_regionsOf.1 hr
    obtain ⟨i, hi, rfl⟩ := List.mem_iff_getElem.1 hs
    exact ih i hi (hx.child rfl hi (RosValueList.at_of_lt hi) (deref_slot (slots i hi))) hr

/-- Parsing and reading a message stays inside the buffer exactly where the buffer ends
inside no length word and no leaf of it. -/
theorem readsInside_iff {info : MsgDefInfo} {name : Bytes} {m : MsgDef}
    (hm : MsgDef.ofInfo info name = .ok m) (buffer : Bytes) (offset : ℕ) :
    (MessageParser.mk buffer m).ReadsInside offset ↔ Fits m buffer offset := by
  have hresolved := (MsgDef.builtFrom_of_ofInfo hm).resolved
  have hfollows := MessageParser.parse_follows (p := ⟨buffer, m⟩) hresolved offset
  constructor
  · intro hinside
    constructor
    · intro htorn
      obtain ⟨fuel, hfuel⟩ := htorn.undefined
      refine hinside.parse (fuel + 1) (((hfollows (fuel + 1)).error_iff _).2 ?_)
      rw [shapeObject_succ]
      change (shapeFields m buffer fuel m.fields offset).map _ = _
      rw [hfuel]
      rfl
    · intro leaves q hwalks r hr
      obtain ⟨fuel, ss, hss, rfl⟩ := hwalks.exists_layout
      have hparse := hfollows (fuel + 1)
      rw [shapeObject_of_fields hss] at hparse
      obtain ⟨s, hs, -, x, hx, hrep⟩ := hparse.exists_ok
      exact hrep.exists_leaf (.root hx) hr (hinside.values _ s hs)
  · intro hfits
    constructor
    · intro fuel hundefined
      have htraced := traced_shapeObject buffer hresolved fuel (Or.inl rfl) offset
      rw [((hfollows fuel).error_iff _).1 hundefined] at htraced
      have htorn := htraced.torn rfl []
      rw [List.append_nil] at htorn
      exact hfits.words htorn
    · intro fuel s hs v hv
      have hparse := hfollows fuel
      rw [hs] at hparse
      obtain ⟨⟨shape, q⟩, hshape, -, x, hx, hrep⟩ := hparse.exists_of_ok
      have htraced := traced_shapeObject buffer hresolved fuel (Or.inl rfl) offset
      change shapeObject m buffer fuel m.toBaseMsgDef offset = _ at hshape
      rw [hshape] at htraced
      have hwalk := htraced []
      rw [List.append_nil] at hwalk
      have hleaves := hfits.leaves _ q hwalk
      rw [regionsOf, regionsOf, List.append_nil] at hleaves
      obtain ⟨s', hrep', hs'⟩ := hv.induct hx hrep hleaves fits_child
      exact hrep'.readsInside hs'

def sampleTextInfo : MsgDefInfo := ⟨[.field ⟨bytes "string", 0, bytes "text"⟩], []⟩

def sampleText : MsgDef where
  name := bytes "pkg/Text"
  members := [.field { parsedInfo := ⟨bytes "string", 0, bytes "text"⟩ }]
  embeddedDefinitionMap := ∅

theorem ofInfo_sampleTextInfo : MsgDef.ofInfo sampleTextInfo (bytes "pkg/Text") = .ok sampleText :=
  rfl

theorem readsInside_iff_sampleText :
    (MessageParser.mk [5] sampleText).ReadsInside 0 ↔ Fits sampleText [5] 0 :=
  readsInside_iff ofInfo_sampleTextInfo [5] 0

/-- The four bytes of the length are read from a buffer of one byte. -/
theorem not_readsInside_sampleText : ¬ (MessageParser.mk [5] sampleText).ReadsInside 0 :=
  fun h => h.parse 1 rfl

end Embag
