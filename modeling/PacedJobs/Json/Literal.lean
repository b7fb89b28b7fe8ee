import PacedJobs.Decimal.Digits
import PacedJobs.Json.Fault

/-!
# Number literals

A literal is an optional minus sign, a whole part without needless zeros, an optional fraction and
an optional exponent. Without the last two it stands for an integer as long as that fits 64 bits;
any other literal stands for a double. A double takes its digits from the front of the literal
while they fit 64 bits.
-/

namespace PacedJobs
namespace Json

open Digits

/-- An absent fraction is empty. The exponent comes with whether it is negative. -/
structure Literal where
  negative : Bool
  whole : List Char
  fraction : List Char
  exponent : Option (Bool × List Char)
deriving DecidableEq, Repr

namespace Literal

def readWhole : List Char → Except Fault (List Char × List Char)
  | [] => .error (.here .endOfValue [])
  | '0' :: s =>
    match s with
    | c :: _ => if isDigit c then .error (.atNext .badNumber s) else .ok (['0'], s)
    | [] => .ok (['0'], [])
  | c :: s =>
    if isDigit c then .ok (c :: s.takeWhile isDigit, s.dropWhile isDigit)
    else .error (.atNext .badNumber (c :: s))

def readFraction : List Char → Except Fault (List Char × List Char)
  | '.' :: s =>
    match s with
    | [] => .error (.here .endOfValue [])
    | c :: _ =>
      if isDigit c then .ok (s.takeWhile isDigit, s.dropWhile isDigit)
      else .error (.atNext .badNumber s)
  | s => .ok ([], s)

def splitSign : List Char → Bool × List Char
  | '+' :: s => (false, s)
  | '-' :: s => (true, s)
  | s => (false, s)

def readExponent (s : List Char) :
    Except Fault (Option (Bool × List Char) × List Char) :=
  match s with
  | c :: t =>
    if c = 'e' || c = 'E' then
      let (negative, t) := splitSign t
      match t with
      | [] => .error (.here .endOfValue [])
      | d :: _ =>
        if isDigit d then .ok (some (negative, t.takeWhile isDigit), t.dropWhile isDigit)
        else .error (.atNext .badNumber t)
    else .ok (none, s)
  | [] => .ok (none, [])

def readUnsigned (negative : Bool) (s : List Char) : Except Fault (Literal × List Char) := do
  let (whole, s) ← readWhole s
  let (fraction, s) ← readFraction s
  let (exponent, s) ← readExponent s
  return (⟨negative, whole, fraction, exponent⟩, s)

def read : List Char → Except Fault (Literal × List Char)
  | '-' :: s => readUnsigned true s
  | s => readUnsigned false s

/-- Whether the literal has neither a fraction nor an exponent and fits 64 bits, the sign counted
in. A negative zero does not count as an integer. -/
def isInteger (l : Literal) : Bool :=
  l.fraction.isEmpty && l.exponent.isNone &&
    if l.negative then 0 < value l.whole && value l.whole ≤ Nat.pow 2 63
    else value l.whole < Nat.pow 2 64

def stated (l : Literal) : Int :=
  match l.exponent with
  | none => 0
  | some (negative, ds) => if negative then -(value ds : Int) else value ds

/-- The digits in front that fit 64 bits, and the power of ten that scales them. Digits of the whole
part that do not fit still count as places; those of the fraction are dropped. -/
def decimal (l : Literal) : Nat × Int :=
  let (n, excess) := absorb (Nat.pow 2 64) 0 l.whole
  let (m, dropped) := absorb (Nat.pow 2 64) n l.fraction
  (m, l.stated + excess.length - (l.fraction.length - dropped.length : Nat))

/-- The number, or `none` if it is too large for a double. -/
def number? (l : Literal) : Option Json :=
  if l.isInteger then
    some (.integer (if l.negative then -(value l.whole : Int) else value l.whole))
  else
    (Magnitude.ofDecimal? l.decimal.1 l.decimal.2).map fun m => .double ⟨l.negative, m⟩

/-- How many digits of an exponent stand behind the one that takes it past `2 ^ 31 - 1`. Reading
stops there if the number is too large. -/
def digitsPast (l : Literal) : Nat :=
  match l.exponent with
  | none => 0
  | some (_, ds) => (absorb (Nat.pow 2 31) 0 ds).2.length - 1

end Literal

def readNumber (s : List Char) : Except Fault (Json × List Char) := do
  let (l, rest) ← Literal.read s
  match l.number? with
  | some v => return (v, rest)
  | none => throw ⟨.numberTooLarge, byteLength rest + l.digitsPast⟩

end Json
end PacedJobs
