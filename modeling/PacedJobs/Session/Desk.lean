import PacedJobs.Job.Error
import PacedJobs.Json.Basic

/-!
# Desks

A desk takes a session's requests. It has a state of its own, and every ticket that it gives out is
resolved once it has been waited for.
-/

namespace PacedJobs

/-- A ticket in the hands of a session: the job's name and the number of the ticket. -/
structure Receipt where
  id : JobId
  ticket : Nat
deriving DecidableEq, Repr

structure Desk (σ ω : Type) where
  submit : σ → Json → UInt16 → UInt32 → Receipt × σ
  cancel : σ → JobId → Bool × σ
  /-- Cancels all jobs with a priority below the given one. -/
  cancelBelow : σ → UInt16 → List JobId × σ
  /-- Waits for the results of all receipts. -/
  await : σ → List Receipt → σ
  /-- The result of a receipt that has been waited for. -/
  result : σ → Receipt → Except JobError ω

end PacedJobs
