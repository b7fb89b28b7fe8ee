import PacedJobs.Json.Reader

/-!
# Values chosen by name

A setting with a few values is given by the name of one, as an option on the command line or as a
string in a document. Only the option may pass over the case of letters.
-/

namespace PacedJobs

structure Choice (α : Type) where
  values : List α
  name : α → String
  help : α → String

namespace Choice

variable {α : Type} (choice : Choice α)

def names : List String :=
  choice.values.map choice.name

def ofName? (s : String) : Option α :=
  choice.values.find? (choice.name · == s)

/-- The value with the name, up to the case of the letters from a to z. -/
def ofNameIgnoringCase? (s : String) : Option α :=
  choice.values.find? fun v => (choice.name v).toList.map Char.toLower == s.toList.map Char.toLower

def read (text : List Char) : Except Json.Refusal α :=
  let name : Except Json.Fault α :=
    match Json.Reader.skipSpace text with
    | '"' :: s => do
      let (name, s) ← Json.Escaped.readRest s.length s
      match choice.ofName? name with
      | some v =>
        Json.Reader.readEnd s
        return v
      | none => throw (.here (.mismatch (.variant name choice.names)) s)
    | [] => .error (.here .endOfValue [])
    | s => .error (.atNext .noValue s)
  name.mapError fun f => f.inText text

end Choice
end PacedJobs
