import Embag.Library.LittleEndian

/-! How a C++ call of the library can end without a value, and the reads it makes
of a byte buffer. An exception the caller can catch and an access the language
gives no meaning to are different outcomes, so that a theorem can exclude either. -/

namespace Embag

open LittleEndian

/-- A `std::string`, or the contents of a `std::vector<char>`. -/
abbrev Bytes := List UInt8

/-- The bytes of a string literal of the source, all of them ASCII. -/
def bytes (s : String) : Bytes := s.toList.map fun c => UInt8.ofNat c.toNat

inductive Fault where
  /-- `std::out_of_range`, thrown by an `at` or written out in the source. -/
  | outOfRange (what : Bytes)
  /-- `std::runtime_error` with its text. -/
  | runtimeError (what : Bytes)
  /-- An access outside an object, through a null pointer or to an inactive union member. -/
  | undefined
  /-- The recursion bound of the model was reached; the source has no such bound. -/
  | outOfFuel
  deriving DecidableEq, Repr

namespace Fault

def thrown : Fault → Bool
  | outOfRange _ | runtimeError _ => true
  | undefined | outOfFuel => false

/-- An exception or an undefined access, with which the program itself can end a call. -/
def Occurs (e : Fault) : Prop := e.thrown = true ∨ e = undefined

end Fault

/-- `vector::at` used for an address: the index must name an element. -/
def atIndex (buffer : Bytes) (p : ℕ) : Except Fault Unit :=
  if p < buffer.length then .ok () else .error (.outOfRange (bytes "vector::at"))

/-- Copying `n` bytes from position `p` through a pointer. -/
def readRaw (buffer : Bytes) (p n : ℕ) : Except Fault Bytes :=
  match sliceAt buffer p n with
  | some bs => .ok bs
  | none => .error .undefined

/-- `*reinterpret_cast<const uintN_t *>` at position `p`, little-endian. -/
def readWord (w : ℕ) (buffer : Bytes) (p : ℕ) : Except Fault ℕ :=
  (readRaw buffer p w).map ofLE

@[simp] theorem ok_bind {α β : Type} (a : α) (f : α → Except Fault β) :
    (Except.ok a >>= f) = f a := rfl

@[simp] theorem error_bind {α β : Type} (e : Fault) (f : α → Except Fault β) :
    (Except.error e >>= f) = .error e := rfl

theorem map_bind {α β γ : Type} (x : Except Fault α) (f : α → β) (g : β → Except Fault γ) :
    (x.map f >>= g) = (x >>= fun a => g (f a)) := by
  cases x <;> rfl

theorem bind_eq_ok {α β : Type} {x : Except Fault α} {f : α → Except Fault β} {b : β} :
    (x >>= f) = .ok b ↔ ∃ a, x = .ok a ∧ f a = .ok b := by
  cases x with
  | ok a => exact ⟨fun h => ⟨a, rfl, h⟩, fun ⟨_, ha, h⟩ => by cases ha; exact h⟩
  | error e => exact ⟨nofun, fun ⟨_, ha, _⟩ => nomatch ha⟩

theorem map_eq_error {α β : Type} {x : Except Fault α} {f : α → β} {e : Fault} :
    x.map f = .error e ↔ x = .error e := by
  cases x with
  | ok a => exact ⟨nofun, nofun⟩
  | error e' => exact ⟨fun h => by cases h; rfl, fun h => by cases h; rfl⟩

theorem map_eq_ok {α β : Type} {x : Except Fault α} {f : α → β} {b : β} :
    x.map f = .ok b ↔ ∃ a, x = .ok a ∧ f a = b := by
  cases x with
  | ok a => exact ⟨fun h => ⟨a, rfl, Except.ok.inj h⟩, fun ⟨_, ha, h⟩ => by cases ha; exact congrArg _ h⟩
  | error e => exact ⟨nofun, fun ⟨_, ha, _⟩ => nomatch ha⟩

theorem isSome_toOption_iff {α : Type} {x : Except Fault α} :
    x.toOption.isSome = true ↔ ∃ a, x = .ok a := by
  cases x with
  | ok a => exact ⟨fun _ => ⟨a, rfl⟩, fun _ => rfl⟩
  | error e => exact ⟨nofun, nofun⟩

@[simp] theorem atIndex_of_lt {buffer : Bytes} {p : ℕ} (h : p < buffer.length) :
    atIndex buffer p = .ok () := if_pos h

theorem atIndex_ok_iff {buffer : Bytes} {p : ℕ} :
    atIndex buffer p = .ok () ↔ p < buffer.length := by
  unfold atIndex
  split_ifs with h <;> simp [h]

theorem atIndex_of_readWord {buffer : Bytes} {w p n : ℕ} (h : readWord w buffer p = .ok n)
    (hw : 0 < w) : atIndex buffer p = .ok () := by
  unfold readWord readRaw sliceAt at h
  split_ifs at h with hlen
  · exact atIndex_of_lt (by omega)
  · cases h

theorem atIndex_error {buffer : Bytes} {p : ℕ} {e : Fault} (h : atIndex buffer p = .error e) :
    e.thrown = true ∧ buffer.length ≤ p := by
  unfold atIndex at h
  split_ifs at h with hp
  cases h
  exact ⟨rfl, Nat.le_of_not_lt hp⟩

section Reads

variable {buffer : Bytes} {p n : ℕ}

theorem readRaw_ok_iff : (∃ bs, readRaw buffer p n = .ok bs) ↔ p + n ≤ buffer.length := by
  unfold readRaw sliceAt
  split_ifs with h <;> simp [h]

theorem readRaw_error {e : Fault} (h : readRaw buffer p n = .error e) : e = .undefined := by
  unfold readRaw at h
  split at h <;> cases h
  rfl

theorem readWord_ok_iff : (∃ x, readWord n buffer p = .ok x) ↔ p + n ≤ buffer.length := by
  rw [← readRaw_ok_iff]
  unfold readWord
  cases readRaw buffer p n with
  | ok bs => exact ⟨fun _ => ⟨bs, rfl⟩, fun _ => ⟨_, rfl⟩⟩
  | error e => exact ⟨nofun, nofun⟩

theorem readWord_error {e : Fault} (h : readWord n buffer p = .error e) : e = .undefined :=
  readRaw_error (map_eq_error.1 h)

end Reads

theorem readRaw_of_occursAt {buffer x : Bytes} {p : ℕ} (h : OccursAt x buffer p) :
    readRaw buffer p x.length = .ok x := by
  simp only [readRaw, sliceAt_of_occursAt h]

theorem readWord_of_occursAt {buffer : Bytes} {w n p : ℕ} (hn : n < 256 ^ w)
    (h : OccursAt (le w n) buffer p) : readWord w buffer p = .ok n := by
  have hr := readRaw_of_occursAt h
  rw [length_le] at hr
  simp only [readWord, hr, Except.map, ofLE_le hn]

theorem atIndex_of_occursAt {buffer x : Bytes} {p : ℕ} (hx : x ≠ [])
    (h : OccursAt x buffer p) : atIndex buffer p = .ok () := by
  have hl := h.add_length_le
  have hpos := List.length_pos_iff.2 hx
  exact atIndex_of_lt (by omega)

end Embag
