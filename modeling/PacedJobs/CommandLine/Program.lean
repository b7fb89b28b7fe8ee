import PacedJobs.CommandLine.Help
import PacedJobs.Session.Basic
import PacedJobs.Session.PoolDesk

/-!
# The program

The program reads its arguments and then serves one session over a pool that echoes payloads. It
ends with an exit code, 1 for a session that failed and 2 for arguments that were refused.
-/

namespace PacedJobs

/-- How the program ends before it reads any input. -/
structure Exit where
  code : Nat
  output : String := ""
  errors : String := ""
deriving DecidableEq, Repr

namespace Program

/-- The exit of a run that the arguments have stopped. -/
def exitOf : Stop → Exit
  | .help long => ⟨0, if long then Help.long else Help.short, ""⟩
  | .version => ⟨0, Help.version, ""⟩
  | .refused e => ⟨2, "", e.text⟩

/-- The configuration for a run, or the exit without one. -/
def configure (arguments : List String) : Except Exit Config :=
  match Given.read {} none arguments with
  | .error stop => .error (exitOf stop)
  | .ok given =>
    if given.config.workers = 0 then .error ⟨2, "", "Error: --workers must be at least 1\n"⟩
    else .ok given.config

/-- Steps of an odd size run through all names before one comes again. -/
def names (k : Nat) : JobId :=
  ⟨UInt64.ofNat (0xD1B54A32D192ED03 + k * 0x9E3779B97F4A7C15)⟩

/-- All workers step, and the transport answers at once. -/
def schedule {ω : Type} (t : Transport Json ω) : Schedule Json ω where
  mayWork _ := true
  answer context payload := some (t.execute context payload)
  names := names

def desk : Desk (Run Json Json) Json :=
  let s := schedule Transport.echo
  s.desk s.settle

def start (c : Config) : Session (Run Json Json) :=
  { desk := Run.start c Transport.echo.operation }

def feed (s : Session (Run Json Json)) (bytes : List UInt8) : Session (Run Json Json) :=
  s.feed desk bytes

/-- Sets the clock of the pool forward to a time and lets the pool run on. -/
def passTime (s : Session (Run Json Json)) (now : Nat) : Session (Run Json Json) :=
  let r := s.desk.elapse (now - s.desk.pool.now)
  { s with desk := (schedule Transport.echo).settle r }

/-- The end of the input: what remains is answered, and the results follow. -/
def finish (s : Session (Run Json Json)) : Session (Run Json Json) :=
  (s.endInput desk).report desk .ok

def causeLines : List String → String
  | [] => ""
  | [c] => "\n\nCaused by:\n    " ++ c
  | cs => "\n\nCaused by:" ++ String.join (cs.zipIdx.map fun (c, i) =>
      "\n    " ++ toString i ++ ": " ++ c)

/-- The exit after a session whose output has been taken away. -/
def exit (s : Session (Run Json Json)) : Exit :=
  match s.failure with
  | none => ⟨0, "", ""⟩
  | some f => ⟨1, "", "Error: " ++ f.message ++ causeLines f.causes ++ "\n"⟩

/-- A whole run over an input, with the names that were given to jobs. -/
def run (arguments : List String) (input : List UInt8) : Exit × List JobId :=
  match configure arguments with
  | .error e => (e, [])
  | .ok c =>
    let s := finish (feed (start c) input)
    ({ exit s with output := String.ofList s.sink.text }, s.receipts.map Receipt.id)

end Program
end PacedJobs
