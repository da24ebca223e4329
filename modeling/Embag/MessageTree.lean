import Embag.MessageFollows

/-! The values of a parsed message, as its caller reaches them. -/

namespace Embag

/-- The values a caller reaches from the root by indices below `size()`. -/
inductive InTree (base : List RosValue) : RosValue → Prop
  | root {v : RosValue} (h : base[0]? = some v) : InTree base v
  | child {v w : RosValue} {n i : ℕ} {q : Pointer} (parent : InTree base v) (size : v.size = .ok n)
    (lt : i < n) (at_eq : v.at i = .ok q) (deref : q.deref base = .ok w) : InTree base w

def Shape.child? : Shape → ℕ → Option Shape
  | .numbers type o n w, i => if i < n then some (.scalar type (o + i * w) w) else none
  | .array ss, i => ss[i]?
  | .object _ ss, i => ss[i]?
  | _, _ => none

theorem deref_slot {base : List RosValue} {i : ℕ} {x : RosValue} (h : base[i]? = some x) :
    (Pointer.slot i).deref base = .ok x := by
  simp only [Pointer.deref, h]

variable {buffer : Bytes} {base : List RosValue} {low : ℕ} {x : RosValue} {shape : Shape}

theorem Represents.at_of_numbers {type : RosValueType} {o n w : ℕ}
    (hw : primitiveTypeToSize type = .ok w) (i : ℕ) :
    (RosValue.primitiveArray type o n buffer).at i =
      .ok (.value (.primitive type ⟨o + i * w, some buffer⟩)) := by
  rw [RosValue.at, hw, ok_bind, RosValue.ofTypeAt, isContainer_of_size hw]
  rfl

theorem Represents.child {n i : ℕ} (h : Represents buffer base low x shape)
    (hn : x.size = .ok n) (hi : i < n) :
    ∃ q y shape', x.at i = .ok q ∧ q.deref base = .ok y ∧ shape.child? i = some shape' ∧
      Represents buffer base low y shape' := by
  cases h with
  | scalar => cases hn
  | string => cases hn
  | numbers hw =>
    cases hn
    exact ⟨_, _, _, Represents.at_of_numbers hw i, rfl, if_pos hi, .scalar hw⟩
  | array xs above slots children =>
    cases hn
    exact ⟨_, xs i, _, RosValueList.at_of_lt hi, deref_slot (slots i hi),
      List.getElem?_eq_getElem hi, children i hi⟩
  | object xs above length slots children =>
    cases hn
    exact ⟨_, xs i, _, RosValueList.at_of_lt hi, deref_slot (slots i hi),
      List.getElem?_eq_getElem hi, children i hi⟩

/-- What passes from every shape to its children holds of every value in the tree. -/
theorem InTree.induct {I : Shape → Prop} {root : RosValue} (h : InTree base x)
    (hroot : base[0]? = some root) (hrep : Represents buffer base low root shape) (hI : I shape)
    (hstep : ∀ {s s' i}, I s → s.child? i = some s' → I s') :
    ∃ s, Represents buffer base low x s ∧ I s := by
  induction h with
  | root h =>
    rw [hroot] at h
    cases h
    exact ⟨shape, hrep, hI⟩
  | child parent size lt at_eq deref ih =>
    obtain ⟨s, hs, hI⟩ := ih
    obtain ⟨q, y, s', hq, hy, hchild, hrep'⟩ := hs.child size lt
    rw [hq] at at_eq
    cases at_eq
    rw [hy] at deref
    cases deref
    exact ⟨s', hrep', hstep hI hchild⟩

theorem Represents.size_of_container (h : Represents buffer base low x shape)
    (hcontainer : x.getType.isContainer = true) : ∃ n, x.size = .ok n := by
  cases h with
  | scalar hw =>
    rw [RosValue.getType_primitive, isContainer_of_size hw] at hcontainer
    cases hcontainer
  | string => cases hcontainer
  | numbers => exact ⟨_, rfl⟩
  | array => exact ⟨_, rfl⟩
  | object => exact ⟨_, rfl⟩

end Embag
