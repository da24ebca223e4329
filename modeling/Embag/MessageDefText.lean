import Embag.MessageDefParser

/-! The text of a message definition with its layout: members, the gaps behind them,
and the embedded definitions, each behind a line of 80 `=` and a line with its name. -/

namespace Embag

def isLetter (c : UInt8) : Bool := 65 ≤ c && c ≤ 90 || 97 ≤ c && c ≤ 122 || c = 95

/-- The bytes of a name or of a path of names. -/
def isNameByte (c : UInt8) : Bool := isLetter c || isDigit c || c = 47

structure Identifier where
  text : Bytes
  starts : ∃ c r, text = c :: r ∧ isLetter c
  valid : ∀ c ∈ text, isLetter c || isDigit c

def isIdentifier : Bytes → Bool
  | [] => false
  | c :: r => isLetter c && r.all fun c => isLetter c || isDigit c

def Identifier.of (text : Bytes) (h : isIdentifier text) : Identifier where
  text := text
  starts := by
    cases text with
    | nil => cases h
    | cons c r => exact ⟨c, r, rfl, (Bool.and_eq_true_iff.1 h).1⟩
  valid := by
    cases text with
    | nil => simp
    | cons c r =>
      rw [isIdentifier, Bool.and_eq_true] at h
      rw [List.forall_mem_cons]
      exact ⟨by simp [h.1], List.all_eq_true.1 h.2⟩

inductive TypeName where
  | name (name : Identifier)
  | path (package name : Identifier)

def TypeName.text : TypeName → Bytes
  | name n => n.text
  | path p n => p.text ++ bytes "/" ++ n.text

/-- A type name without the package `std_msgs`. -/
def TypeName.unscoped : TypeName → Bytes
  | name n => n.text
  | path p n => if p.text = bytes "std_msgs" then n.text else p.text ++ bytes "/" ++ n.text

structure Digits where
  text : Bytes
  ne_nil : text ≠ []
  valid : ∀ c ∈ text, isDigit c

inductive ArraySuffix where
  | none
  | dynamic
  | fixed (digits : Digits)

namespace ArraySuffix

def text : ArraySuffix → Bytes
  | none => []
  | dynamic => bytes "[]"
  | fixed digits => bytes "[" ++ digits.text ++ bytes "]"

def size : ArraySuffix → ℤ
  | none => 0
  | dynamic => -1
  | fixed digits => toInt32 (decimalValue digits.text)

end ArraySuffix

def blanks (n : ℕ) : Bytes := List.replicate n 32

/-- A member with the blanks inside it; `extra` counts those beyond the one that has
to stand between the type and the name. -/
inductive Item where
  | field (type : TypeName) (array : ArraySuffix) (extra : ℕ) (name : Identifier)
  | constant (type : TypeName) (extra : ℕ) (name : Identifier) (before after : ℕ) (value : Bytes)

namespace Item

def text : Item → Bytes
  | field type array extra name => type.text ++ (array.text ++ (blanks (extra + 1) ++ name.text))
  | constant type extra name before after value =>
    type.text ++ (blanks (extra + 1) ++ (name.text ++ (blanks before ++
      61 :: (blanks after ++ value))))

def info : Item → MemberInfo
  | field type array _ name => .field ⟨type.unscoped, array.size, name.text⟩
  | constant type _ name _ _ value => .constant ⟨type.unscoped, name.text, value⟩

end Item

structure Comment where
  text : Bytes
  oneLine : 10 ∉ text

/-- What may stand between two members; a comment reaches over the end of its line. -/
inductive Piece where
  | blank
  | newline
  | comment (c : Comment)

def Piece.text : Piece → Bytes
  | blank => [32]
  | newline => [10]
  | comment c => 35 :: c.text ++ [10]

abbrev Gap := List Piece

namespace Gap

def text (gap : Gap) : Bytes := gap.flatMap Piece.text

def HasLineEnd (gap : Gap) : Prop := ∃ piece ∈ gap, piece ≠ .blank

def CommentFree (gap : Gap) : Prop := ∀ c, Piece.comment c ∉ gap

end Gap

structure Placed where
  item : Item
  gap : Gap

def Placed.EndsLine (p : Placed) (x : Bytes) : Prop := p.gap.HasLineEnd ∨ x = []

@[irreducible] def separatorLine : Bytes := List.replicate 80 61

def membersText : List Placed → Bytes → Bytes
  | [], tail => tail
  | p :: ps, tail => p.item.text ++ (Gap.text p.gap ++ membersText ps tail)

/-- An embedded definition; `before` is the gap between the end of the separator line and
the line with the name, `after` the gap behind that line. -/
structure EmbeddedText where
  before : Gap
  name : TypeName
  after : Gap
  members : List Placed

def embeddedText : List EmbeddedText → Bytes
  | [] => []
  | e :: es => separatorLine ++ (Gap.text (.newline :: e.before) ++ (bytes "MSG: " ++
      (e.name.text ++ (Gap.text (.newline :: e.after) ++ membersText e.members (embeddedText es)))))

def EmbeddedText.info (e : EmbeddedText) : EmbeddedInfo :=
  { typeName := e.name.unscoped, members := e.members.map fun p => p.item.info }

/-- A property of every member and of the text behind its gap. -/
def MembersAll (P : Placed → Bytes → Prop) : List Placed → Bytes → Prop
  | [], _ => True
  | p :: ps, tail => P p (membersText ps tail) ∧ MembersAll P ps tail

/-- A property of every embedded definition and of the text behind its last gap. -/
def EmbeddedAll (P : EmbeddedText → Bytes → Prop) : List EmbeddedText → Prop
  | [] => True
  | e :: es => P e (embeddedText es) ∧ EmbeddedAll P es

structure DefinitionText where
  lead : Gap
  members : List Placed
  embedded : List EmbeddedText
  lines : MembersAll Placed.EndsLine members (embeddedText embedded)
  embeddedLines : EmbeddedAll (fun e x => MembersAll Placed.EndsLine e.members x) embedded

namespace DefinitionText

def text (d : DefinitionText) : Bytes :=
  Gap.text d.lead ++ membersText d.members (embeddedText d.embedded)

def info (d : DefinitionText) : MsgDefInfo where
  members := d.members.map fun p => p.item.info
  embeddedDefinitions := d.embedded.map EmbeddedText.info

end DefinitionText

theorem length_separatorLine : separatorLine.length = 80 := by
  unfold separatorLine
  rfl

theorem separatorLine_eq : separatorLine = 61 :: List.replicate 79 61 := by
  unfold separatorLine
  rfl

theorem eq_of_mem_separatorLine {c : UInt8} (h : c ∈ separatorLine) : c = 61 := by
  unfold separatorLine at h
  exact List.eq_of_mem_replicate h

theorem isNameByte_spec {c : UInt8} (h : isNameByte c) :
    isAscii c = true ∧ isSpace c = false ∧ c ≠ 35 ∧ c ≠ 61 ∧ c ≠ 91 ∧ c ≠ 58 ∧ c ≠ 32 ∧ c ≠ 10 ∧
      c ≠ 13 := by
  simp only [isNameByte, isLetter, isDigit, isAscii, isSpace, Bool.or_eq_true, Bool.and_eq_true,
    Bool.or_eq_false_iff, Bool.and_eq_false_iff, decide_eq_true_eq, decide_eq_false_iff_not, ne_eq,
    UInt8.le_iff_toNat_le, UInt8.lt_iff_toNat_lt, ← UInt8.toNat_inj, UInt8.reduceToNat] at h ⊢
  omega

theorem Identifier.nameBytes (n : Identifier) : ∀ c ∈ n.text, isNameByte c := by
  intro c hc
  rw [isNameByte, n.valid c hc, Bool.true_or]

theorem Identifier.text_ne_nil (n : Identifier) : n.text ≠ [] := by
  obtain ⟨c, r, h, -⟩ := n.starts
  rw [h]
  exact List.cons_ne_nil _ _

theorem TypeName.nameBytes (t : TypeName) : ∀ c ∈ t.text, isNameByte c := by
  cases t with
  | name n => exact n.nameBytes
  | path p n =>
    intro c hc
    simp only [text, List.mem_append] at hc
    rcases hc with (hc | hc) | hc
    · exact p.nameBytes c hc
    · rw [List.mem_singleton.1 hc]
      decide
    · exact n.nameBytes c hc

theorem TypeName.text_ne_nil (t : TypeName) : t.text ≠ [] := by
  cases t with
  | name n => exact n.text_ne_nil
  | path p n =>
    rw [text, Ne, List.append_eq_nil_iff, not_and_or]
    exact Or.inr n.text_ne_nil

end Embag
