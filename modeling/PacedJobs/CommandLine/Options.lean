import PacedJobs.Config
import PacedJobs.Text.Terminal

/-!
# Options

Every option takes a value, either attached behind an equality sign or as the next argument. An
argument that begins with a minus sign is no such value. A value that stands apart is looked at when
the next option or the end of the arguments is reached, so an argument that is no option is refused
first. A refusal shows of an argument what a terminal would show of it.
-/

namespace PacedJobs

inductive Flag where
  | workers
  | timeSlice
  | selection
  | reservation
deriving DecidableEq, Repr

namespace Flag

def all : List Flag :=
  [workers, timeSlice, selection, reservation]

def name : Flag → String
  | workers => "--workers"
  | timeSlice => "--time-slice-ms"
  | selection => "--selection"
  | reservation => "--reservation"

def usage : Flag → String
  | workers => "--workers <WORKERS>"
  | timeSlice => "--time-slice-ms <MS>"
  | selection => "--selection <SELECTION>"
  | reservation => "--reservation <RESERVATION>"

def summary : Flag → String
  | workers => "Number of worker threads"
  | timeSlice => "Minimum duration of one worker cycle in milliseconds"
  | selection => "End of the urgency order that is taken first"
  | reservation => "When multi-part jobs reserve their extra time slices"

/-- The values to choose from with what they mean, if the value is a choice. -/
def choices : Flag → List (String × String)
  | workers | timeSlice => []
  | selection =>
    Selection.choice.values.map fun v => (Selection.choice.name v, Selection.choice.help v)
  | reservation =>
    Reservation.choice.values.map fun v => (Reservation.choice.name v, Reservation.choice.help v)

end Flag

inductive NumberFault where
  | empty
  | digit
  | overflow
deriving DecidableEq, Repr

namespace NumberFault

def message : NumberFault → String
  | empty => "cannot parse integer from empty string"
  | digit => "invalid digit found in string"
  | overflow => "number too large to fit in target type"

end NumberFault

inductive UsageError where
  /-- An argument that is no option, beside the options that the usage is shown for. -/
  | unexpected (argument : String) (beside : List Flag)
  /-- A value for a request that takes none, with or without options before it. -/
  | unneeded (value : String) (request : String) (withOptions : Bool)
  | repeated (flag : Flag)
  | missing (flag : Flag)
  | badNumber (flag : Flag) (value : String) (fault : NumberFault)
  | badChoice (flag : Flag) (value : String)
deriving DecidableEq, Repr

namespace UsageError

def synopsis : List Flag → String
  | [] => "Usage: dispatchd [OPTIONS]"
  | flags => "Usage: dispatchd " ++ " ".intercalate (flags.map Flag.usage)

/-- The usage of a request, which goes with any one of the options. -/
def requestSynopsis (request : String) (withOptions : Bool) : String :=
  "Usage: dispatchd " ++ request ++
    if withOptions then " <" ++ "|".intercalate (Flag.all.map Flag.usage) ++ ">" else ""

def quoted (s : String) : String :=
  "'" ++ String.ofList (Terminal.visible s.toList) ++ "'"

def choiceLine (flag : Flag) : String :=
  match flag.choices with
  | [] => ""
  | vs => "\n  [possible values: " ++ ", ".intercalate (vs.map Prod.fst) ++ "]"

def message : UsageError → String
  | unexpected a beside => "unexpected argument " ++ quoted a ++ " found\n\n" ++ synopsis beside
  | unneeded v request withOptions =>
    "unexpected value " ++ quoted v ++ " for '" ++ request ++
      "' found; no more were expected\n\n" ++ requestSynopsis request withOptions
  | repeated f =>
    "the argument '" ++ f.usage ++ "' cannot be used multiple times\n\n" ++ synopsis []
  | missing f =>
    "a value is required for '" ++ f.usage ++ "' but none was supplied" ++ choiceLine f
  | badNumber f v fault =>
    "invalid value " ++ quoted v ++ " for '" ++ f.usage ++ "': " ++ fault.message
  | badChoice f v => "invalid value " ++ quoted v ++ " for '" ++ f.usage ++ "'" ++ choiceLine f

def text (e : UsageError) : String :=
  "error: " ++ e.message ++ "\n\nFor more information, try '--help'.\n"

end UsageError

structure Given where
  /-- The options that have been taken, in their order. -/
  taken : List Flag := []
  workers : Option Nat := none
  timeSlice : Option Nat := none
  selection : Option Selection := none
  reservation : Option Reservation := none
deriving DecidableEq, Repr

/-- Why the arguments do not lead to a run. -/
inductive Stop where
  | help (long : Bool)
  | version
  | refused (e : UsageError)
deriving DecidableEq, Repr

namespace Given

/-- Reads the digits of a number of 64 bits behind a value. The first character that is no digit or
takes the number past the limit decides. -/
def readDigits (n : Nat) : List Char → Except NumberFault Nat
  | [] => .ok n
  | c :: cs =>
    if '0' ≤ c && c ≤ '9' then
      let n := 10 * n + (c.val - '0'.val).toNat
      if n < 2 ^ 64 then readDigits n cs else .error .overflow
    else .error .digit

def readNumber (s : String) : Except NumberFault Nat :=
  match s.toList with
  | [] => .error .empty
  | ['+'] => .error .digit
  | '+' :: cs => readDigits 0 cs
  | cs => readDigits 0 cs

/-- Takes the value of an option that has not come before. -/
def set (g : Given) (flag : Flag) (value : String) : Except UsageError Given :=
  let number := (readNumber value).mapError (UsageError.badNumber flag value)
  let choice {α : Type} (a : Option α) : Except UsageError α :=
    if value = "" then .error (.missing flag)
    else
      match a with
      | some a => .ok a
      | none => .error (.badChoice flag value)
  match flag with
  | .workers => number.map fun n => { g with workers := some n }
  | .timeSlice => number.map fun n => { g with timeSlice := some n }
  | .selection =>
    (choice (Selection.choice.ofName? value)).map fun v => { g with selection := some v }
  | .reservation =>
    (choice (Reservation.choice.ofName? value)).map fun v => { g with reservation := some v }

/-- An option with the value that stands apart from it, if that has come. -/
abbrev Pending := Option (Flag × Option String)

/-- Looks at an option: its value may be missing, it may have come before, its value may be bad. -/
def accept (g : Given) (flag : Flag) : Option String → Except Stop Given
  | none => .error (.refused (.missing flag))
  | some value =>
    if g.taken.contains flag then .error (.refused (.repeated flag))
    else (set { g with taken := g.taken ++ [flag] } flag value).mapError Stop.refused

def settle (g : Given) : Pending → Except Stop Given
  | none => .ok g
  | some (flag, value) => g.accept flag value

/-- The part of an argument before its first equality sign, and the part behind it if there is
one. -/
def splitValue (s : List Char) : List Char × Option (List Char) :=
  match s.dropWhile (· != '=') with
  | [] => (s, none)
  | _ :: value => (s.takeWhile (· != '='), some value)

/-- The options taken once the pending one has been tried, whether or not its value is good. An
option that comes again loses its place. -/
def tried (g : Given) : Pending → List Flag
  | some (flag, some _) => if g.taken.contains flag then g.taken.erase flag else g.taken ++ [flag]
  | _ => g.taken

def unexpected {α : Type} (argument : List Char) (beside : List Flag) : Except Stop α :=
  .error (.refused (.unexpected (String.ofList argument) beside))

/-- Handles an argument that begins with two minus signs and goes on. -/
def long (g : Given) (pending : Pending) (argument : List Char) :
    Except Stop (Given × Pending) := do
  let (name, value) := splitValue argument
  let value := value.map String.ofList
  match Flag.all.find? (·.name.toList == name) with
  | some flag =>
    let g ← g.settle pending
    match value with
    | some v => return (← g.accept flag (some v), none)
    | none => return (g, some (flag, none))
  | none =>
    match String.ofList name, value with
    | "--help", none =>
      let _ ← g.settle pending
      throw (.help true)
    | "--version", none =>
      let _ ← g.settle pending
      throw .version
    | "--help", some v => throw (.refused (.unneeded v "--help" !g.taken.isEmpty))
    | "--version", some v => throw (.refused (.unneeded v "--version" !g.taken.isEmpty))
    | _, _ => unexpected name (g.tried pending)

/-- Handles an argument of one minus sign and letters, of which the first decides. -/
def short (g : Given) (pending : Pending) (letter : Char) : Except Stop (Given × Pending) := do
  match letter with
  | 'h' =>
    let _ ← g.settle pending
    throw (.help false)
  | 'V' =>
    let _ ← g.settle pending
    throw .version
  | c => unexpected ['-', c] []

/-- Reads arguments from the left. The first problem, or a request for help or the version, ends
the reading. -/
def read (g : Given) (pending : Pending) : List String → Except Stop Given
  | [] => g.settle pending
  | argument :: rest =>
    match argument.toList with
    | ['-', '-'] =>
      match rest with
      | [] => g.settle pending
      | word :: _ => unexpected word.toList []
    | '-' :: '-' :: cs =>
      match g.long pending ('-' :: '-' :: cs) with
      | .error stop => .error stop
      | .ok (g, pending) => g.read pending rest
    | '-' :: c :: _ =>
      match g.short pending c with
      | .error stop => .error stop
      | .ok (g, pending) => g.read pending rest
    | cs =>
      match pending with
      | some (flag, none) => g.read (some (flag, some argument)) rest
      | _ => unexpected cs []

def config (g : Given) : Config where
  workers := g.workers.getD 4
  timeSlice := (g.timeSlice.getD 1000) * nanosecondsPerMillisecond
  selection := g.selection.getD default
  reservation := g.reservation.getD default

end Given
end PacedJobs
