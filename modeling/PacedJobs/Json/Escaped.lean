import PacedJobs.Json.Fault

/-!
# Strings in documents

Writing escapes the quotation mark, the backslash and the thirty-two controls, and nothing else.
Reading takes every escape of the grammar; a character above the basic plane may be escaped as two
surrogates, which must stand together.
-/

namespace PacedJobs
namespace Json
namespace Escaped

def escapeChar (c : Char) : List Char :=
  match c with
  | '"' => ['\\', '"']
  | '\\' => ['\\', '\\']
  | '\x08' => ['\\', 'b']
  | '\x0c' => ['\\', 'f']
  | '\n' => ['\\', 'n']
  | '\r' => ['\\', 'r']
  | '\t' => ['\\', 't']
  | c =>
    if c.toNat < 0x20 then
      ['\\', 'u', '0', '0', Nat.digitChar (c.toNat / 16), Nat.digitChar (c.toNat % 16)]
    else [c]

def write (s : String) : List Char :=
  '"' :: s.toList.flatMap escapeChar ++ ['"']

/-- The value of a digit in base sixteen, in either case. -/
def hexDigit? (c : Char) : Option Nat :=
  if '0' ≤ c && c ≤ '9' then some (c.val - '0'.val).toNat
  else if 'a' ≤ c && c ≤ 'f' then some (c.val - 'a'.val + 10).toNat
  else if 'A' ≤ c && c ≤ 'F' then some (c.val - 'A'.val + 10).toNat
  else none

def hexValue? : List Char → Option Nat
  | [a, b, c, d] => do
    return (((← hexDigit? a) * 16 + (← hexDigit? b)) * 16 + (← hexDigit? c)) * 16 + (← hexDigit? d)
  | _ => none

/-- Reads four digits. What stands in their place counts as read when it is something else. -/
def readHex (s : List Char) : Except Fault (Nat × List Char) :=
  match hexValue? (s.take 4) with
  | some n => .ok (n, s.drop 4)
  | none =>
    if byteLength s < 4 then .error ⟨.endOfString, 0⟩
    else .error ⟨.badEscape, byteLength s - 4⟩

def isLeading (n : Nat) : Bool :=
  0xD800 ≤ n && n < 0xDC00

def isTrailing (n : Nat) : Bool :=
  0xDC00 ≤ n && n < 0xE000

/-- Reads one given character in the middle of a pair of surrogates. -/
def readMark (mark : Char) : List Char → Except Fault (List Char)
  | [] => .error (.here .endOfString [])
  | c :: s => if c = mark then .ok s else .error (.atNext .endOfEscape (c :: s))

/-- Reads the escape by number that the letter `u` has begun. -/
def readUnicode (s : List Char) : Except Fault (Char × List Char) := do
  let (n, s) ← readHex s
  if isTrailing n then throw (.here .loneSurrogate s)
  else if isLeading n then
    let s ← readMark '\\' s
    let s ← readMark 'u' s
    let (m, s) ← readHex s
    if isTrailing m then
      return (Char.ofNat ((n - 0xD800) * 0x400 + (m - 0xDC00) + 0x10000), s)
    else throw (.here .loneSurrogate s)
  else return (Char.ofNat n, s)

def readEscape : List Char → Except Fault (Char × List Char)
  | [] => .error (.here .endOfString [])
  | '"' :: s => .ok ('"', s)
  | '\\' :: s => .ok ('\\', s)
  | '/' :: s => .ok ('/', s)
  | 'b' :: s => .ok ('\x08', s)
  | 'f' :: s => .ok ('\x0c', s)
  | 'n' :: s => .ok ('\n', s)
  | 'r' :: s => .ok ('\r', s)
  | 't' :: s => .ok ('\t', s)
  | 'u' :: s => readUnicode s
  | c :: s => .error (.atNext .badEscape (c :: s))

/-- Reads up to the closing quotation mark, at most as many characters as the bound. -/
def readChars : Nat → List Char → Except Fault (List Char × List Char)
  | 0, _ => .error ⟨.endOfString, 0⟩
  | _ + 1, [] => .error (.here .endOfString [])
  | _ + 1, '"' :: s => .ok ([], s)
  | n + 1, '\\' :: s => do
    let (c, s) ← readEscape s
    let (cs, s) ← readChars n s
    return (c :: cs, s)
  | n + 1, c :: s => do
    if c.toNat < 0x20 then throw (.atNext .rawControl (c :: s))
    let (cs, s) ← readChars n s
    return (c :: cs, s)

/-- Reads a string whose opening quotation mark has been read. The bound is at least the length of the
text. -/
def readRest (bound : Nat) (s : List Char) : Except Fault (String × List Char) := do
  let (cs, s) ← readChars bound s
  return (String.ofList cs, s)

end Escaped
end Json
end PacedJobs
