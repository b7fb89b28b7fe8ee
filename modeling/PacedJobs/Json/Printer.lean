import PacedJobs.Json.Escaped

/-!
# Writing JSON

The compact form has no white space. The indented form gives every element and every member a line
of its own, two spaces deeper than what holds it, and keeps an empty array or object together.
-/

namespace PacedJobs
namespace Json

mutual

def compact : Json → List Char
  | .null => "null".toList
  | .bool true => "true".toList
  | .bool false => "false".toList
  | .integer n => integerText n
  | .double x => x.text
  | .string s => Escaped.write s
  | .array [] => ['[', ']']
  | .array (v :: vs) => '[' :: v.compact ++ compactItems vs
  | .object [] => ['\x7b', '\x7d']
  | .object ((k, v) :: ms) => '\x7b' :: Escaped.write k ++ ':' :: v.compact ++ compactMembers ms

/-- The elements behind the first and the closing bracket. -/
def compactItems : List Json → List Char
  | [] => [']']
  | v :: vs => ',' :: v.compact ++ compactItems vs

def compactMembers : List (String × Json) → List Char
  | [] => ['\x7d']
  | (k, v) :: ms => ',' :: Escaped.write k ++ ':' :: v.compact ++ compactMembers ms

end

def newLine (level : Nat) : List Char :=
  '\n' :: List.replicate (2 * level) ' '

mutual

/-- The indented form of a value that stands at a level. -/
def indented (level : Nat) : Json → List Char
  | .array (v :: vs) =>
    '[' :: newLine (level + 1) ++ v.indented (level + 1) ++ indentedItems level vs
  | .object ((k, v) :: ms) =>
    '\x7b' :: newLine (level + 1) ++ Escaped.write k ++ ':' :: ' ' :: v.indented (level + 1) ++
      indentedMembers level ms
  | .array [] => ['[', ']']
  | .object [] => ['\x7b', '\x7d']
  | .null => "null".toList
  | .bool b => (if b then "true" else "false").toList
  | .integer n => integerText n
  | .double x => x.text
  | .string s => Escaped.write s

def indentedItems (level : Nat) : List Json → List Char
  | [] => newLine level ++ [']']
  | v :: vs => ',' :: newLine (level + 1) ++ v.indented (level + 1) ++ indentedItems level vs

def indentedMembers (level : Nat) : List (String × Json) → List Char
  | [] => newLine level ++ ['\x7d']
  | (k, v) :: ms =>
    ',' :: newLine (level + 1) ++ Escaped.write k ++ ':' :: ' ' :: v.indented (level + 1) ++
      indentedMembers level ms

end

def text (v : Json) : String :=
  String.ofList v.compact

def indentedText (v : Json) : String :=
  String.ofList (v.indented 0)

end Json
end PacedJobs
