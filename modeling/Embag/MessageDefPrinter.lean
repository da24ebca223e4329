import Mathlib.Data.Nat.Digits.Defs
import Embag.MessageDefLayout

/-! Definitions printed one member a line, and read back. -/

namespace Embag

open Qi Qi.Rule RosMsgSkipper RosMsgGrammar

inductive ArraySize where
  | scalar
  | dynamic
  | fixed (n : ℕ) (pos : 1 ≤ n) (bound : n < 2 ^ 31)

inductive Member where
  | field (type : TypeName) (array : ArraySize) (name : Identifier)
  | constant (type : TypeName) (name : Identifier) (value : Bytes) (ne_nil : value ≠ [])
      (valid : ∀ c ∈ value, isSpace c = false ∧ c ≠ 35)

structure EmbeddedDefinition where
  name : TypeName
  members : List Member
  ne_nil : members ≠ []

structure Definition where
  members : List Member
  embedded : List EmbeddedDefinition

def decimal (n : ℕ) : Bytes := ((Nat.digits 10 n).map fun d => UInt8.ofNat (48 + d)).reverse

def ArraySize.print : ArraySize → Bytes
  | scalar => []
  | dynamic => bytes "[]"
  | fixed n _ _ => bytes "[" ++ decimal n ++ bytes "]"

def Member.print : Member → Bytes
  | field type array name => type.text ++ array.print ++ bytes " " ++ name.text
  | constant type name value _ _ => type.text ++ bytes " " ++ name.text ++ bytes "=" ++ value

def printMembers (ms : List Member) : Bytes := ms.flatMap fun m => m.print ++ bytes "\n"

def EmbeddedDefinition.print (e : EmbeddedDefinition) : Bytes :=
  separatorLine ++ bytes "\n" ++ bytes "MSG: " ++ e.name.text ++ bytes "\n" ++
    printMembers e.members

def Definition.print (d : Definition) : Bytes :=
  printMembers d.members ++ d.embedded.flatMap EmbeddedDefinition.print

def ArraySize.size : ArraySize → ℤ
  | scalar => 0
  | dynamic => -1
  | fixed n _ _ => n

def Member.info : Member → MemberInfo
  | field type array name => .field ⟨type.unscoped, array.size, name.text⟩
  | constant type name value _ _ => .constant ⟨type.unscoped, name.text, value⟩

def EmbeddedDefinition.info (e : EmbeddedDefinition) : EmbeddedInfo :=
  ⟨e.name.unscoped, e.members.map Member.info⟩

def Definition.info (d : Definition) : MsgDefInfo :=
  ⟨d.members.map Member.info, d.embedded.map EmbeddedDefinition.info⟩

def Member.value? : Member → Option Bytes
  | field _ _ _ => none
  | constant _ _ value _ _ => some value

/-- The values of all constants, of the definition and of those it embeds. -/
def Definition.values (d : Definition) : List Bytes :=
  (d.members ++ d.embedded.flatMap EmbeddedDefinition.members).filterMap Member.value?

/-- A value the parser reads: ASCII, and with no run of 80 `=` from the constant's own on. -/
def Readable (value : Bytes) : Prop :=
  (∀ c ∈ value, isAscii c) ∧ ¬ List.replicate 79 61 <+: value

theorem decimalValue_reverse (ds : List ℕ) (h : ∀ d ∈ ds, d < 10) :
    decimalValue (ds.map fun d => UInt8.ofNat (48 + d)).reverse = Nat.ofDigits 10 ds := by
  rw [decimalValue, List.foldl_reverse]
  induction ds with
  | nil => rfl
  | cons d ds ih =>
    have hd := h d List.mem_cons_self
    have hbyte : (UInt8.ofNat (48 + d)).toNat = 48 + d := by
      rw [UInt8.toNat_ofNat']
      omega
    rw [List.map_cons, List.foldr_cons, ih fun e he => h e (List.mem_cons_of_mem _ he), hbyte,
      Nat.ofDigits_cons]
    omega

theorem decimalValue_decimal (n : ℕ) : decimalValue (decimal n) = n := by
  rw [decimal, decimalValue_reverse _ fun d hd => Nat.digits_lt_base (by norm_num) hd,
    Nat.ofDigits_digits]

theorem isDigit_decimal (n : ℕ) : ∀ c ∈ decimal n, isDigit c := by
  intro c hc
  simp only [decimal, List.mem_reverse, List.mem_map] at hc
  obtain ⟨d, hd, rfl⟩ := hc
  have hlt : d < 10 := Nat.digits_lt_base (by norm_num) hd
  have hbyte : (UInt8.ofNat (48 + d)).toNat = 48 + d := by
    rw [UInt8.toNat_ofNat']
    omega
  simp only [isDigit, Bool.and_eq_true, decide_eq_true_eq, UInt8.le_iff_toNat_le, hbyte,
    UInt8.reduceToNat]
  omega

def decimalDigits (n : ℕ) (h : 1 ≤ n) : Digits where
  text := decimal n
  ne_nil := by
    rw [decimal, Ne, List.reverse_eq_nil_iff, List.map_eq_nil_iff, Nat.digits_eq_nil_iff_eq_zero]
    omega
  valid := isDigit_decimal n

def ArraySize.suffix : ArraySize → ArraySuffix
  | scalar => .none
  | dynamic => .dynamic
  | fixed n pos _ => .fixed (decimalDigits n pos)

def Member.item : Member → Item
  | field type array name => .field type array.suffix 0 name
  | constant type name value _ _ => .constant type 0 name 0 0 value

def Member.placed (m : Member) : Placed := { item := m.item, gap := [.newline] }

theorem membersAll_endsLine_placed (ms : List Member) (x : Bytes) :
    MembersAll Placed.EndsLine (ms.map Member.placed) x := by
  induction ms with
  | nil => trivial
  | cons m ms ih => exact ⟨Or.inl ⟨.newline, List.mem_cons_self, by simp⟩, ih⟩

def EmbeddedDefinition.placed (e : EmbeddedDefinition) : EmbeddedText :=
  { before := [], name := e.name, after := [], members := e.members.map Member.placed }

theorem embeddedAll_endsLine_placed (es : List EmbeddedDefinition) :
    EmbeddedAll (fun e x => MembersAll Placed.EndsLine e.members x)
      (es.map EmbeddedDefinition.placed) := by
  induction es with
  | nil => trivial
  | cons e es ih => exact ⟨membersAll_endsLine_placed e.members _, ih⟩

def Definition.placed (d : Definition) : DefinitionText where
  lead := []
  members := d.members.map Member.placed
  embedded := d.embedded.map EmbeddedDefinition.placed
  lines := membersAll_endsLine_placed d.members _
  embeddedLines := embeddedAll_endsLine_placed d.embedded

theorem ArraySize.suffix_text (a : ArraySize) : a.suffix.text = a.print := by
  cases a <;> rfl

theorem ArraySize.suffix_fits (a : ArraySize) : a.suffix.Fits := by
  cases a with
  | scalar => exact trivial
  | dynamic => exact trivial
  | fixed n pos bound =>
    simp only [suffix, ArraySuffix.Fits, decimalDigits, decimalValue_decimal]
    omega

theorem ArraySize.suffix_size (a : ArraySize) : a.suffix.size = a.size := by
  cases a with
  | scalar => rfl
  | dynamic => rfl
  | fixed n pos bound =>
    have hvalue : decimalValue (decimalDigits n pos).text = n := decimalValue_decimal n
    rw [suffix, ArraySuffix.size, hvalue, size]
    exact Int.bmod_eq_of_le_mul_two (by push_cast; omega) (by push_cast; omega)

theorem Member.item_text (m : Member) : m.item.text = m.print := by
  cases m with
  | field t a n => simp only [item, Item.text, print, a.suffix_text, List.append_assoc]; rfl
  | constant t n v ne_nil valid => simp only [item, Item.text, print, List.append_assoc]; rfl

theorem Member.item_info (m : Member) : m.item.info = m.info := by
  cases m with
  | field t a n => rw [item, Item.info, info, a.suffix_size]
  | constant t n v ne_nil valid => rfl

theorem membersText_placed (ms : List Member) (tail : Bytes) :
    membersText (ms.map Member.placed) tail = printMembers ms ++ tail := by
  induction ms with
  | nil => rfl
  | cons m ms ih =>
    have hm : m.placed.item.text = m.print := m.item_text
    rw [List.map_cons, membersText, ih, hm]
    simp only [printMembers, List.flatMap_cons, List.append_assoc]
    rfl

theorem embeddedText_placed (es : List EmbeddedDefinition) :
    embeddedText (es.map EmbeddedDefinition.placed) = es.flatMap EmbeddedDefinition.print := by
  induction es with
  | nil => rfl
  | cons e es ih =>
    rw [List.map_cons, embeddedText, ih, List.flatMap_cons, EmbeddedDefinition.print]
    simp only [EmbeddedDefinition.placed, membersText_placed, List.append_assoc]
    rfl

theorem Definition.placed_text (d : Definition) : d.placed.text = d.print := by
  simp only [placed, DefinitionText.text, membersText_placed, embeddedText_placed]
  rfl

theorem EmbeddedDefinition.placed_info (e : EmbeddedDefinition) : e.placed.info = e.info := by
  simp only [EmbeddedText.info, info, placed, List.map_map]
  congr 1
  exact List.map_congr_left fun m _ => m.item_info

theorem Definition.placed_info (d : Definition) : d.placed.info = d.info := by
  simp only [DefinitionText.info, info, placed, List.map_map]
  congr 1
  · exact List.map_congr_left fun m _ => m.item_info
  · exact List.map_congr_left fun e _ => e.placed_info

def Comparison.tree : Comparison MemberInfo where
  read := id
  meant := Item.info
  Exact _ := True
  read_info _ := by simp
  field_of_read h := ⟨_, h⟩
  constant_of_read h := ⟨_, h, rfl⟩

theorem valueOk_iff_readable {v : Bytes} (hne : v ≠ [])
    (hv : ∀ c ∈ v, isSpace c = false ∧ c ≠ 35) : ValueOk 0 v ↔ Readable v := by
  have hchar : ∀ c ∈ v, isValueChar c = true ↔ isAscii c = true := by
    intro c hc
    simp [isValueChar, hv c hc]
  have hsep : separatorLine <+: 61 :: (blanks 0 ++ v) ↔ List.replicate 79 61 <+: v := by
    rw [separatorLine_eq, List.cons_prefix_cons]
    exact ⟨fun h => h.2, fun h => ⟨rfl, h⟩⟩
  constructor
  · intro h
    exact ⟨fun c hc => (hchar c hc).1 (h.isValue.2 c hc), mt hsep.2 h.atEquals⟩
  · rintro ⟨hascii, hrun⟩
    refine ⟨⟨hne, fun c hc => (hchar c hc).2 (hascii c hc)⟩, mt hsep.1 hrun, fun h => hrun ?_⟩
    have hpre : List.replicate 79 (61 : UInt8) <+: separatorLine := by
      rw [separatorLine_eq, ← List.replicate_succ, List.replicate_succ']
      exact List.prefix_append _ _
    exact hpre.trans h

theorem Definition.placed_commentFree (d : Definition) : d.placed.CommentFree := by
  have hnil : Gap.CommentFree [] := fun c hc => by cases hc
  have hgap : ∀ m : Member, Gap.CommentFree m.placed.gap := by
    intro m c hc
    cases List.mem_singleton.1 hc
  refine ⟨hnil, ?_, ?_⟩
  · intro p hp
    obtain ⟨m, -, rfl⟩ := List.mem_map.1 hp
    exact hgap m
  · intro e he
    obtain ⟨e', -, rfl⟩ := List.mem_map.1 he
    refine ⟨hnil, hnil, fun p hp => ?_⟩
    obtain ⟨m, -, rfl⟩ := List.mem_map.1 hp
    exact hgap m

theorem Definition.allMembers_placed (d : Definition) : d.placed.allMembers =
    (d.members ++ d.embedded.flatMap EmbeddedDefinition.members).map Member.placed := by
  rw [DefinitionText.allMembers, List.map_append, List.map_flatMap]
  simp only [placed, List.flatMap_map]
  rfl

theorem Member.sound_iff (m : Member) : m.item.Sound ↔ ∀ v ∈ m.value?, Readable v := by
  cases m with
  | field t a n => simpa [item, Item.Sound, value?] using a.suffix_fits
  | constant t n v ne_nil valid =>
    simpa [item, Item.Sound, value?] using valueOk_iff_readable ne_nil valid

theorem Definition.placed_ok_iff (d : Definition) :
    d.placed.Ok Comparison.tree ↔ ∀ v ∈ d.values, Readable v := by
  have hnewline : Gap.Skipped [.newline] := Gap.skipped_newline fun c hc => by cases hc
  rw [d.placed_commentFree.ok_iff, d.allMembers_placed]
  constructor
  · rintro ⟨-, hall, -⟩ v hv
    obtain ⟨m, hm, hmv⟩ := List.mem_filterMap.1 hv
    exact m.sound_iff.1 (hall _ (List.mem_map_of_mem hm)).1 v hmv
  · intro hall
    refine ⟨skipper_nil, fun p hp => ?_, fun e he => ?_⟩
    · obtain ⟨m, hm, rfl⟩ := List.mem_map.1 hp
      have hsound := m.sound_iff.2 fun v hv => hall v (List.mem_filterMap.2 ⟨m, hm, hv⟩)
      exact ⟨hsound, trivial, hnewline⟩
    · obtain ⟨e', -, rfl⟩ := List.mem_map.1 he
      rw [EmbeddedDefinition.placed, Ne, List.map_eq_nil_iff]
      exact e'.ne_nil

/-- The parser reads a printed definition back exactly when it can read all values of
its constants: field lines, embedded definitions and the lines between them never fail. -/
theorem parse_print_iff (d : Definition) :
    phraseParse msg skipper d.print = some (d.info, []) ↔ ∀ v ∈ d.values, Readable v := by
  rw [← d.placed_text, ← d.placed_ok_iff]
  constructor
  · intro h
    have hfree := d.placed_commentFree
    have hread := d.placed.agrees_info Comparison.tree fun p hp => trivial
    rw [d.placed_info] at hread
    exact DefinitionText.ok_of_phraseParse _ hfree.crFree hfree.determined h hread
  · intro h
    rw [DefinitionText.phraseParse_msg _ h, d.placed_info]

/-- `string S=` and a value of 79 `=`: the skipper takes all 80 for a separator. -/
def equalsConstant : Definition where
  members := [.constant (.name (.of (bytes "string") rfl))
    (.of (bytes "S") rfl) (List.replicate 79 61) (by decide)
    fun c hc => by rw [List.eq_of_mem_replicate hc]; decide]
  embedded := []

theorem parse_equalsConstant :
    phraseParse msg skipper equalsConstant.print ≠ some (equalsConstant.info, []) := by
  decide +kernel

end Embag
