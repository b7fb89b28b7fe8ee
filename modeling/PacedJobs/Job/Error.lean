import PacedJobs.Failure
import PacedJobs.Job.Description

/-!
# Why a job has no value

A job that ran can fail in its transport. A job that never ran was dropped.
-/

namespace PacedJobs

inductive JobError where
  | transport (worker : Nat) (job : JobId) (operation : String) (source : Failure)
  | dropped (job : JobId)
deriving DecidableEq, Repr

namespace JobError

def job : JobError → JobId
  | transport _ job _ _ => job
  | dropped job => job

def message : JobError → String
  | transport worker job operation _ =>
    "worker " ++ toString worker ++ " failed to " ++ operation ++ " for job " ++ job.text
  | dropped job => "job " ++ job.text ++ " was dropped before it produced a result"

def failure (e : JobError) : Failure :=
  match e with
  | transport _ _ _ source => source.within e.message
  | dropped _ => .ofMessage e.message

def description? : JobError → Option String
  | transport _ _ _ _ => none
  | dropped job => some (Description.oneLine "Dropped" [("job", job.description)])

end JobError
end PacedJobs
