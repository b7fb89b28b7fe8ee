import PacedJobs.Json.Printer

/-!
# Logs of executions

A log lists executions in the order of their start, with the milliseconds that had passed.
-/

namespace PacedJobs

structure LoggedExecution where
  job : Nat
  worker : Nat
  value : Nat
  offset : Nat
deriving DecidableEq, Repr

namespace LoggedExecution

def json (e : LoggedExecution) : Json :=
  .object [("job", .integer e.job), ("worker", .integer e.worker), ("value", .integer e.value),
    ("offset_ms", .integer e.offset)]

end LoggedExecution

abbrev ExecutionLog := List LoggedExecution

namespace ExecutionLog

def json (log : ExecutionLog) : Json :=
  .object [("executions", .array (log.map LoggedExecution.json))]

def dump (log : ExecutionLog) : String :=
  (json log).indentedText

def line (log : ExecutionLog) : String :=
  (json log).text

end ExecutionLog
end PacedJobs
