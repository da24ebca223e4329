import Embag.Library.Qi
import Embag.RosMsgTypes

/-! The grammar of message definitions, rule by rule, and `parseMsgDef`. -/

namespace Embag

open Qi Qi.Rule

/-- `ascii::space` -/
def isSpace (c : UInt8) : Bool := 9 ≤ c && c ≤ 13 || c = 32

/-- `ascii::char_` -/
def isAscii (c : UInt8) : Bool := c < 128

def isDigit (c : UInt8) : Bool := 48 ≤ c && c ≤ 57

def char : Rule UInt8 UInt8 := token isAscii

def space : Rule UInt8 UInt8 := token isSpace

def eol : Rule UInt8 Unit := lit (bytes "\r\n") <|> lit (bytes "\n") <|> lit (bytes "\r")

/-! ### `ros_msg_skipper` -/

namespace RosMsgSkipper

def comment : Rule UInt8 Unit := do
  let _ ← many space
  let _ ← lit (bytes "#")
  let _ ← many (char.diff eol)

def separator : Rule UInt8 Unit := do
  let _ ← (times 80 (lit (bytes "="))).diff eol

def blankLines : Rule UInt8 Unit := do
  let _ ← many (lit (bytes " "))
  eol

def lineNoise : Rule UInt8 Unit := do
  let _ ← eol
  let _ ← many space

def skip : Rule UInt8 Unit := lineNoise <|> comment <|> separator <|> eol <|> blankLines

theorem reads_eol : eol.Reads :=
  (reads_lit (by decide)).orElse ((reads_lit (by decide)).orElse (reads_lit (by decide)))

/-- Every alternative of the skipper reads something, so `skip_over` ends. -/
theorem reads_skip : skip.Reads := by
  have hcomment : comment.Reads := Reads.bind_right fun _ => (reads_lit (by decide)).bind
  have hseparator : separator.Reads := (Reads.diff (Reads.bind (reads_lit (by decide)))).bind
  have hblank : blankLines.Reads := Reads.bind_right fun _ => reads_eol
  have hnoise : lineNoise.Reads := reads_eol.bind
  exact hnoise.orElse (hcomment.orElse (hseparator.orElse (reads_eol.orElse hblank)))

end RosMsgSkipper

def skipper : Skipper UInt8 := .over RosMsgSkipper.skip RosMsgSkipper.reads_skip

def decimalValue (digits : Bytes) : ℕ := digits.foldl (fun n c => 10 * n + (c.toNat - 48)) 0

/-- `uint_`, which fails on a number that is no `unsigned int` -/
def uint : Rule UInt8 ℕ where
  parse sk s :=
    let digits := (sk s).takeWhile isDigit
    if digits = [] ∨ 2 ^ 32 ≤ decimalValue digits then none
    else some (decimalValue digits, (sk s).dropWhile isDigit)
  parse_suffix {sk s _ _} h := by
    dsimp only at h
    split_ifs at h
    cases h
    exact (List.dropWhile_suffix _).trans (sk.run_suffix s)

/-- An `unsigned int` assigned to an `int32_t` wraps. -/
def toInt32 (n : ℕ) : ℤ := Int.bmod n (2 ^ 32)

/-! ### `ros_msg_grammar` -/

namespace RosMsgGrammar

def arraySize : Rule UInt8 ℤ :=
  (do
    let _ ← lit (bytes "[")
    let size ← (do let n ← uint; return toInt32 n) <|> attr (-1)
    let _ ← lit (bytes "]")
    return size) <|> attr 0

def typeChar : Rule UInt8 UInt8 := char.diff (lit (bytes "[") <|> void space)

def type : Rule UInt8 Bytes :=
  (do let _ ← lit (bytes "std_msgs/"); plus typeChar) <|> plus typeChar

def fieldName : Rule UInt8 Bytes := lexeme (plus (char.diff (void space <|> eol <|> lit (bytes "#"))))

def field : Rule UInt8 FieldInfo := do
  let typeName ← type
  let arraySize ← arraySize
  let _ ← plus (lit (bytes " "))
  let fieldName ← fieldName
  return { typeName, arraySize, fieldName }

def constantName : Rule UInt8 Bytes := lexeme (plus (char.diff (void space <|> lit (bytes "="))))

def constantValue : Rule UInt8 Bytes :=
  lexeme (plus (char.diff (void space <|> eol <|> lit (bytes "#"))))

def constant : Rule UInt8 ConstantDef := do
  let typeName ← type
  let _ ← plus (lit (bytes " "))
  let constantName ← constantName
  let _ ← many (lit (bytes " "))
  let _ ← lit (bytes "=")
  let _ ← many (lit (bytes " "))
  let value ← constantValue
  return { typeName, constantName, value }

def member : Rule UInt8 MemberInfo :=
  (do let c ← constant; return .constant c) <|> (do let f ← field; return .field f)

def embeddedTypeName : Rule UInt8 Bytes := do
  let _ ← lit (bytes "MSG: std_msgs/") <|> lit (bytes "MSG: ")
  lexeme (plus (char.diff eol))

def embeddedTypeDefinition : Rule UInt8 EmbeddedInfo := do
  let typeName ← embeddedTypeName
  let members ← plus (member.diff (lit (bytes "MSG: ")))
  return { typeName, members }

def msg : Rule UInt8 MsgDefInfo := do
  let members ← many (member.diff (lit (bytes "MSG: ")))
  let embeddedDefinitions ← many embeddedTypeDefinition
  return { members, embeddedDefinitions }

end RosMsgGrammar

/-- The part of `parseMsgDef` before the definition is built: the syntax tree, or the
exception with the text around the place where the parser stopped. -/
def parseInfo (definition : Bytes) : Except Fault MsgDefInfo :=
  match phraseParse RosMsgGrammar.msg skipper definition with
  | some (ast, []) => .ok ast
  | some (_, rest) =>
    .error (.runtimeError (bytes "Message definition parsing failed at: " ++ rest.take 30))
  | none =>
    .error (.runtimeError (bytes "Message definition parsing failed at: " ++ definition.take 30))

theorem parseInfo_eq_ok_iff {s : Bytes} {ast : MsgDefInfo} :
    parseInfo s = .ok ast ↔ phraseParse RosMsgGrammar.msg skipper s = some (ast, []) := by
  unfold parseInfo
  split
  · next ast' h => simp [h]
  · next ast' rest hrest h =>
    refine ⟨fun h => (nomatch h), fun h' => ?_⟩
    rw [h] at h'
    cases h'
    exact absurd rfl hrest
  · next h => simp [h]

def parseMsgDef (definition name : Bytes) : Except Fault MsgDef := do
  let ast ← parseInfo definition
  MsgDef.ofInfo ast name

end Embag
