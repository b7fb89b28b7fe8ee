import PacedJobs.Json.Reader
import PacedJobs.Schema.Field

/-!
# Values told apart by a tag

A schema lists variants by name. A text names the variant in the member whose key is the tag, at any
place among the members, or in the first element of an array. The whole value is read before its
other parts are turned into the fields of the variant, so a text that breaks the grammar is refused
for that first. What is amiss with the fields has no place in the text.
-/

namespace PacedJobs

open Json

structure Variant (α : Type) where
  name : String
  label : String
  fields : List Field
  build : Record fields → α

structure Schema (α : Type) where
  label : String
  tag : String
  variants : List (Variant α)

namespace Schema

/-- What a tagged value holds besides its tag. -/
inductive Content where
  | members (ms : List (String × Json))
  | items (vs : List Json)

/-- What the reader of a member finds. -/
inductive Part (α : Type) where
  | tag (variant : Variant α)
  | member (k : String) (v : Json)

def Part.tag? {α : Type} : Part α → Option (Variant α)
  | .tag v => some v
  | .member _ _ => none

def Part.member? {α : Type} : Part α → Option (String × Json)
  | .tag _ => none
  | .member k v => some (k, v)

section

variable {α : Type} (schema : Schema α)

def names : List String :=
  schema.variants.map Variant.name

def find? (name : String) : Option (Variant α) :=
  schema.variants.find? (·.name == name)

/-- Reads the name of a variant. An array or object in its place is refused unread. -/
def readTag (bound : Nat) (s : List Char) : Except Fault (Variant α × List Char) :=
  let mistaken (found : Shape) := Cause.mismatch (.shape found "variant identifier")
  match Reader.skipSpace s with
  | '[' :: s => .error (.here (mistaken .sequence) ('[' :: s))
  | '\x7b' :: s => .error (.here (mistaken .map) ('\x7b' :: s))
  | s => do
    match ← Reader.readScalar bound s with
    | (.string name, s) =>
      match schema.find? name with
      | some v => return (v, s)
      | none => throw (.here (.mismatch (.variant name schema.names)) s)
    | (v, s) => throw (.here (mistaken v.shape) s)

/-- The text behind a closing brace, if that is next. -/
def closed (s : List Char) : List Char :=
  match Reader.skipSpace s with
  | '\x7d' :: s => s
  | s => s

/-- Reads a member behind its key. The state tells whether the tag has come before. -/
def readPart (bound : Nat) (seen : Bool) (k : String) (s : List Char) :
    Except Fault (Part α × Bool × List Char) := do
  if k = schema.tag then
    if seen then throw (.here (.mismatch (.duplicateField k)) (closed s))
    let s ← Reader.readColon s
    let (v, s) ← schema.readTag bound s
    return (.tag v, true, s)
  else
    let ((k, v), s) ← Reader.readMember (Reader.value bound (depthLimit - 1)) k s
    return (.member k v, seen, s)

/-- Reads a whole tagged value without looking into its fields. The bound is at least the length of
the text. -/
def readContent (bound : Nat) (s : List Char) :
    Except Fault ((Variant α × Content) × List Char) :=
  let untagged := Cause.mismatch (.missingField schema.tag)
  match Reader.skipSpace s with
  | '\x7b' :: s => do
    let (parts, s) ← Reader.readMembers bound (schema.readPart bound) false s
    match parts.findSome? Part.tag? with
    | some v => return ((v, .members (parts.filterMap Part.member?)), s)
    | none => throw (.here untagged s)
  | '[' :: s =>
    match Reader.skipSpace s with
    | [] => .error (.here .endOfArray [])
    | ']' :: s => .error (.here untagged s)
    | s => do
      let (v, s) ← schema.readTag bound s
      let (vs, s) ← Reader.moreItems (Reader.value bound (depthLimit - 1)) bound s
      return ((v, .items vs), s)
  | s => do
    let (v, s) ← Reader.readScalar bound s
    throw (.here (.mismatch (.shape v.shape ("internally tagged enum " ++ schema.label))) s)

def build (v : Variant α) : Content → Except Mismatch α
  | .members ms => (Record.ofMembers v.fields ms).map v.build
  | .items vs => (Record.ofItems (schema.label ++ "::" ++ v.label) v.fields vs).map v.build

def read (text : List Char) : Except Refusal α :=
  match schema.readContent text.length text with
  | .error f => .error (f.inText text)
  | .ok ((v, content), s) =>
    match schema.build v content with
    | .error m => .error ⟨.mismatch m, none⟩
    | .ok a =>
      match Reader.readEnd s with
      | .error f => .error (f.inText text)
      | .ok () => .ok a

end

end Schema
end PacedJobs
