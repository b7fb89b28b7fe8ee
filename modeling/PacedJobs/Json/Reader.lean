import PacedJobs.Json.Escaped
import PacedJobs.Json.Literal

/-!
# Reading JSON

A reader takes the text that is left and gives a result with the text behind it, or the fault it
met first. `value` descends through brackets, of which a given number may be open at once. The
loops over characters, elements and members take a bound, which the length of the whole text always
meets: every round takes in at least one character.
-/

namespace PacedJobs
namespace Json

namespace Reader

/-- Blanks between tokens are fewer than those of Unicode. -/
def isSpace (c : Char) : Bool :=
  c == ' ' || c == '\n' || c == '\t' || c == '\r'

def skipSpace (s : List Char) : List Char :=
  s.dropWhile isSpace

/-- Reads the rest of a word that its first letter has announced. -/
def readWord : (word s : List Char) → Except Fault (List Char)
  | [], s => .ok s
  | _ :: _, [] => .error (.here .endOfValue [])
  | w :: ws, c :: s => if c = w then readWord ws s else .error (.atNext .noWord (c :: s))

/-- Reads a value that is no array or object, from its first character. -/
def readScalar (bound : Nat) : List Char → Except Fault (Json × List Char)
  | [] => .error (.here .endOfValue [])
  | 'n' :: s => do return (.null, ← readWord "ull".toList s)
  | 't' :: s => do return (.bool true, ← readWord "rue".toList s)
  | 'f' :: s => do return (.bool false, ← readWord "alse".toList s)
  | '"' :: s => do
    let (t, s) ← Escaped.readRest bound s
    return (.string t, s)
  | c :: s =>
    if c = '-' || Digits.isDigit c then readNumber (c :: s)
    else .error (.atNext .noValue (c :: s))

def readColon (s : List Char) : Except Fault (List Char) :=
  match skipSpace s with
  | [] => .error (.here .endOfObject [])
  | ':' :: s => .ok s
  | s => .error (.atNext .noColon s)

section Loops

variable {α σ : Type} (bound : Nat) (item : List Char → Except Fault (α × List Char))
  (member : σ → String → List Char → Except Fault (α × σ × List Char))

/-- Reads what follows an element, up to the closing bracket. -/
def moreItems : Nat → List Char → Except Fault (List α × List Char)
  | 0, _ => .error ⟨.endOfArray, 0⟩
  | n + 1, s =>
    match skipSpace s with
    | [] => .error (.here .endOfArray [])
    | ']' :: s => .ok ([], s)
    | ',' :: s =>
      match skipSpace s with
      | [] => .error (.here .endOfValue [])
      | ']' :: s => .error (.atNext .trailingComma (']' :: s))
      | s => do
        let (v, s) ← item s
        let (vs, s) ← moreItems n s
        return (v :: vs, s)
    | s => .error (.atNext .noCommaInArray s)

/-- Reads the elements behind an opening bracket, and the closing one. -/
def readItems (s : List Char) : Except Fault (List α × List Char) :=
  match skipSpace s with
  | [] => .error (.here .endOfArray [])
  | ']' :: s => .ok ([], s)
  | s => do
    let (v, s) ← item s
    let (vs, s) ← moreItems item bound s
    return (v :: vs, s)

def readKey : List Char → Except Fault (String × List Char)
  | '"' :: s => Escaped.readRest bound s
  | s => .error (.atNext .noKey s)

/-- Reads what follows a member, up to the closing brace. The reader of a member starts behind the
key and may carry a state from one member to the next. -/
def moreMembers : Nat → σ → List Char → Except Fault (List α × List Char)
  | 0, _, _ => .error ⟨.endOfObject, 0⟩
  | n + 1, state, s =>
    match skipSpace s with
    | [] => .error (.here .endOfObject [])
    | '\x7d' :: s => .ok ([], s)
    | ',' :: s =>
      match skipSpace s with
      | [] => .error (.here .endOfValue [])
      | '\x7d' :: s => .error (.atNext .trailingComma ('\x7d' :: s))
      | s => do
        let (k, s) ← readKey bound s
        let (v, state, s) ← member state k s
        let (vs, s) ← moreMembers n state s
        return (v :: vs, s)
    | s => .error (.atNext .noCommaInObject s)

/-- Reads the members behind an opening brace, and the closing one. -/
def readMembers (state : σ) (s : List Char) : Except Fault (List α × List Char) :=
  match skipSpace s with
  | [] => .error (.here .endOfObject [])
  | '\x7d' :: s => .ok ([], s)
  | s => do
    let (k, s) ← readKey bound s
    let (v, state, s) ← member state k s
    let (vs, s) ← moreMembers bound member bound state s
    return (v :: vs, s)

end Loops

def readMember {α : Type} (item : List Char → Except Fault (α × List Char)) (k : String)
    (s : List Char) : Except Fault ((String × α) × List Char) := do
  let s ← readColon s
  let (v, s) ← item s
  return ((k, v), s)

/-- Reads a value in which the given number of brackets may be open at once. -/
def value (bound : Nat) : Nat → List Char → Except Fault (Json × List Char)
  | 0, s =>
    match skipSpace s with
    | '[' :: s => .error (.atNext .tooDeep ('[' :: s))
    | '\x7b' :: s => .error (.atNext .tooDeep ('\x7b' :: s))
    | s => readScalar bound s
  | depth + 1, s =>
    match skipSpace s with
    | '[' :: s => do
      let (vs, s) ← readItems bound (value bound depth) s
      return (.array vs, s)
    | '\x7b' :: s => do
      let member (_ : Unit) k s := do
        let (m, s) ← readMember (value bound depth) k s
        return (m, (), s)
      let (ms, s) ← readMembers bound member () s
      return (.object ms, s)
    | s => readScalar bound s

def readEnd (s : List Char) : Except Fault Unit :=
  match skipSpace s with
  | [] => .ok ()
  | s => .error (.atNext .trailingText s)

end Reader

/-- The number of brackets that may be open at once. -/
def depthLimit : Nat := 127

def read? (depth : Nat) (text : List Char) : Except Fault Json := do
  let (v, s) ← Reader.value text.length depth text
  Reader.readEnd s
  return v

end Json
end PacedJobs
