import PacedJobs.Decimal.Digits
import PacedJobs.Text.Position

/-!
# Reasons in words of their own

A value may say in its own words why it has no form as a document. Words that end like a message
with a place are taken apart, and the place is written again in plain numbers. Lines are counted
from one, so line zero is no place.
-/

namespace PacedJobs
namespace Json

structure Remark where
  words : List Char
  place : Option Position
deriving DecidableEq, Repr

namespace Remark

/-- Takes a word and the digits behind it off the end of a text. The number has 64 bits. -/
def dropNumber? (word : String) (s : List Char) : Option (List Char × Nat) :=
  let digits := (s.reverse.takeWhile Digits.isDigit).reverse
  let before := (s.reverse.dropWhile Digits.isDigit).reverse
  match digits, Digits.absorb (Nat.pow 2 64) 0 digits with
  | _ :: _, (n, []) => (word.toList.isSuffixOf? before).map fun s => (s, n)
  | _, _ => none

def dropPosition? (s : List Char) : Option (List Char × Position) := do
  let (s, column) ← dropNumber? " column " s
  let (s, line) ← dropNumber? " at line " s
  return (s, ⟨line, column⟩)

def ofText (reason : String) : Remark :=
  match dropPosition? reason.toList with
  | none => ⟨reason.toList, none⟩
  | some (words, p) => ⟨words, if p.line = 0 then none else some p⟩

def message (r : Remark) : String :=
  match r.place with
  | none => String.ofList r.words
  | some p => String.ofList r.words ++ p.ending

end Remark
end Json
end PacedJobs
