import PacedJobs.Failure
import PacedJobs.Reply

/-!
# Where replies go

A reply is written in three stages: its text, a line feed, and a flush. A sink may be bound to fail
in one of the stages from some reply on.
-/

namespace PacedJobs

inductive Stage where
  | text
  | lineFeed
  | flush
deriving DecidableEq, Repr

/-- The stage that fails once some replies have been written, and the message of the failure. -/
structure Breakage where
  stage : Stage
  after : Nat
  message : String
deriving DecidableEq, Repr

structure Sink where
  /-- The texts that have been written and not been taken away, the latest first. -/
  written : List (List Char) := []
  /-- The number of replies that were written and flushed. -/
  replies : Nat := 0
  breakage : Option Breakage := none

namespace Sink

/-- All that has been written and not been taken away. -/
def text (s : Sink) : List Char :=
  s.written.reverse.flatten

def put (s : Sink) (text : List Char) : Sink :=
  { s with written := text :: s.written }

def write (s : Sink) (r : Reply) : Option Failure × Sink :=
  match s.breakage.filter fun b => b.after ≤ s.replies with
  | none => (none, { s with replies := s.replies + 1 }.put (r.write ++ ['\n']))
  | some b =>
    match b.stage with
    | .text => (some ((Failure.ofMessage b.message).within "failed to encode reply"), s)
    | .lineFeed => (some (.ofMessage b.message), s.put r.write)
    | .flush => (some (.ofMessage b.message), s.put (r.write ++ ['\n']))

end Sink
end PacedJobs
