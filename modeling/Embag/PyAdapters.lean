import Embag.RosValue

/-! What Python's `__getitem__` makes of a value: a leaf is read and converted, an
object or an array stays a pointer into the parser's vector. -/

namespace Embag

/-- `py::object`, as far as `castValue` makes one. -/
inductive PyObject where
  | value (v : Pointer)
  | scalar (x : Scalar)
  /-- A string decoded as Latin-1, which every byte string is. -/
  | str (s : Bytes)

/-- `castValue`, with times kept as they are -/
def castValue (base : List RosValue) (value : Pointer) : Except Fault PyObject := do
  let v ← value.deref base
  match v.getType with
  | .object | .array | .primitiveArray => .ok (.value value)
  | .string => v.asString.map .str
  | type => (v.as type).map .scalar

def getIndex (base : List RosValue) (v : RosValue) (index : ℕ) : Except Fault PyObject :=
  if v.getType ≠ .array ∧ v.getType ≠ .primitiveArray then
    .error (.runtimeError (bytes "Can only getIndex on an array"))
  else do
    castValue base (← v.at index)

theorem castValue_of_container {base : List RosValue} {q : Pointer} {v : RosValue}
    (hq : q.deref base = .ok v) (h : v.getType.isContainer = true) :
    castValue base q = .ok (.value q) := by
  unfold castValue
  rw [hq, ok_bind]
  cases htype : v.getType <;> rw [htype] at h <;> first | rfl | cases h

theorem castValue_of_string {base : List RosValue} {q : Pointer} {v : RosValue} {s : Bytes}
    (hq : q.deref base = .ok v) (htype : v.getType = .string) (h : v.asString = .ok s) :
    castValue base q = .ok (.str s) := by
  unfold castValue
  rw [hq, ok_bind, htype, h]
  rfl

theorem castValue_of_scalar {base : List RosValue} {q : Pointer} {v : RosValue} {x : Scalar}
    (hq : q.deref base = .ok v) (hcontainer : v.getType.isContainer = false)
    (hstr : v.getType ≠ .string) (h : v.as v.getType = .ok x) :
    castValue base q = .ok (.scalar x) := by
  unfold castValue
  rw [hq, ok_bind]
  generalize v.getType = type at h hcontainer hstr
  have hmap : (v.as type).map PyObject.scalar = .ok (.scalar x) := by rw [h]; rfl
  cases type <;> first | exact hmap | exact absurd rfl hstr | cases hcontainer

theorem getIndex_of_array {base : List RosValue} {v : RosValue} {index : ℕ}
    (h : v.getType = .array ∨ v.getType = .primitiveArray) :
    getIndex base v index = v.at index >>= castValue base := by
  unfold getIndex
  rw [if_neg]
  rintro ⟨harray, hprimitive⟩
  exact h.elim harray hprimitive

end Embag
