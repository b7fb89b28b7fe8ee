import PacedJobs.Failure
import PacedJobs.Job.Id
import PacedJobs.Json.Printer

/-!
# Transports

A transport executes payloads against the world outside. It knows the job and the worker it
executes for, and answers with an output or a failure.
-/

namespace PacedJobs

/-- What a transport is told about the job that it executes. -/
structure Context where
  worker : Nat
  job : JobId
  priority : UInt16
  taskCount : UInt32
deriving DecidableEq, Repr

structure Transport (π ω : Type) where
  /-- The name of the operation in messages. -/
  operation : String
  execute : Context → π → Except Failure ω

namespace Transport

/-- Answers a payload with itself. An object with a member `fail` is answered by that as a
failure. -/
def echo : Transport Json Json where
  operation := "echo payload"
  execute context payload :=
    match payload.member? "fail" with
    | some (.string reason) => .error (.ofMessage reason)
    | some reason => .error (.ofMessage reason.text)
    | none =>
      .ok (.object [("echo", payload), ("priority", .integer context.priority.toNat),
        ("worker", .integer context.worker)])

end Transport
end PacedJobs
