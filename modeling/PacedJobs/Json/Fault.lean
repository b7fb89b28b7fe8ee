import PacedJobs.Decimal.Notation
import PacedJobs.Json.Basic
import PacedJobs.Text.Position
import PacedJobs.Text.Quoted

/-!
# Why a text is refused

A text can break the grammar, end too early, or hold a value of the wrong shape. The first two are
noticed at a place of the text. A value that is only found wanting after the whole of it was read
is refused without a place.
-/

namespace PacedJobs

namespace Json

/-- The kind of a value, with the value itself where a message shows it. -/
inductive Shape where
  | null
  | bool (b : Bool)
  | integer (n : Int)
  | double (x : Double)
  | string (s : String)
  | sequence
  | map
deriving DecidableEq, Repr

def shape : Json → Shape
  | .null => .null
  | .bool b => .bool b
  | .integer n => .integer n
  | .double x => .double x
  | .string s => .string s
  | .array _ => .sequence
  | .object _ => .map

def Shape.text : Shape → String
  | .null => "null"
  | .bool b => "boolean `" ++ (if b then "true" else "false") ++ "`"
  | .integer n => "integer `" ++ String.ofList (integerText n) ++ "`"
  | .double x => "floating point `" ++ String.ofList x.text ++ "`"
  | .string s => "string " ++ String.ofList (Quoted.write s)
  | .sequence => "sequence"
  | .map => "map"

inductive Mismatch where
  | shape (found : Shape) (expected : String)
  | range (found : Shape) (expected : String)
  | length (found : Nat) (expected : String)
  | variant (found : String) (known : List String)
  | duplicateField (name : String)
  | missingField (name : String)
deriving DecidableEq, Repr

namespace Mismatch

def choice : List String → String
  | [a] => "`" ++ a ++ "`"
  | [a, b] => "`" ++ a ++ "` or `" ++ b ++ "`"
  | names => "one of " ++ ", ".intercalate (names.map fun a => "`" ++ a ++ "`")

def message : Mismatch → String
  | .shape found expected => "invalid type: " ++ found.text ++ ", expected " ++ expected
  | .range found expected => "invalid value: " ++ found.text ++ ", expected " ++ expected
  | .length found expected => "invalid length " ++ toString found ++ ", expected " ++ expected
  | .variant found known => "unknown variant `" ++ found ++ "`, expected " ++ choice known
  | .duplicateField name => "duplicate field `" ++ name ++ "`"
  | .missingField name => "missing field `" ++ name ++ "`"

end Mismatch

inductive Cause where
  | endOfValue
  | endOfString
  | endOfArray
  | endOfObject
  | noValue
  | noWord
  | noColon
  | noCommaInArray
  | noCommaInObject
  | noKey
  | trailingComma
  | trailingText
  | badNumber
  | numberTooLarge
  | rawControl
  | badEscape
  | loneSurrogate
  | endOfEscape
  | tooDeep
  | mismatch (m : Mismatch)
deriving DecidableEq, Repr

/-- What went wrong in the large: the text ended, broke the grammar, or holds the wrong data. -/
inductive Category where
  | eof
  | syntaxError
  | data
deriving DecidableEq, Repr

namespace Cause

def message : Cause → String
  | .endOfValue => "EOF while parsing a value"
  | .endOfString => "EOF while parsing a string"
  | .endOfArray => "EOF while parsing a list"
  | .endOfObject => "EOF while parsing an object"
  | .noValue => "expected value"
  | .noWord => "expected ident"
  | .noColon => "expected `:`"
  | .noCommaInArray => "expected `,` or `]`"
  | .noCommaInObject => "expected `,` or `\x7d`"
  | .noKey => "key must be a string"
  | .trailingComma => "trailing comma"
  | .trailingText => "trailing characters"
  | .badNumber => "invalid number"
  | .numberTooLarge => "number out of range"
  | .rawControl => "control character (\\u0000-\\u001F) found while parsing a string"
  | .badEscape => "invalid escape"
  | .loneSurrogate => "lone leading surrogate in hex escape"
  | .endOfEscape => "unexpected end of hex escape"
  | .tooDeep => "recursion limit exceeded"
  | .mismatch m => m.message

def category : Cause → Category
  | .endOfValue | .endOfString | .endOfArray | .endOfObject => .eof
  | .mismatch _ => .data
  | _ => .syntaxError

end Cause

/-- A cause with the number of bytes that were unread when it was noticed. -/
structure Fault where
  cause : Cause
  unread : Nat
deriving DecidableEq, Repr

namespace Fault

def here (c : Cause) (rest : List Char) : Fault :=
  ⟨c, byteLength rest⟩

/-- Noticed at the first byte of the rest, which counts as read. -/
def atNext (c : Cause) (rest : List Char) : Fault :=
  ⟨c, byteLength rest - 1⟩

end Fault

/-- A cause with its place in the text, if it has one. -/
structure Refusal where
  cause : Cause
  place : Option Position
deriving DecidableEq, Repr

namespace Refusal

def message (r : Refusal) : String :=
  match r.place with
  | none => r.cause.message
  | some p => r.cause.message ++ p.ending

end Refusal

/-- The fault placed in the text whose reading ended in it. -/
def Fault.inText (f : Fault) (text : List Char) : Refusal :=
  ⟨f.cause, some (Position.after {} text (byteLength text - f.unread))⟩

end Json
end PacedJobs
