import PacedJobs.ExecutionLog
import PacedJobs.Failure
import PacedJobs.Job.Id

/-!
# A transport that records what it executes

A recording keeps every execution in the order of the starts and answers with the payload, a number.
Single payloads can be held back until they are released or made to fail. A call takes the
latency of the recording, once nothing holds it back.
-/

namespace PacedJobs

structure Execution where
  job : JobId
  worker : Nat
  value : Nat
  startedAt : Nat
deriving DecidableEq, Repr

inductive RecordedCall where
  | held (value : Nat)
  | busy (value finishAt : Nat)
  | done (result : Except Failure Nat)

structure Recording where
  latency : Nat := 0
  now : Nat := 0
  executions : List Execution := []
  failing : List Nat := []
  held : List Nat := []
  calls : List RecordedCall := []

namespace Recording

def operation : String := "record value"

def failOn (r : Recording) (value : Nat) : Recording :=
  { r with failing := value :: r.failing }

def hold (r : Recording) (value : Nat) : Recording :=
  { r with held := value :: r.held }

def result (r : Recording) (value : Nat) : Except Failure Nat :=
  if r.failing.contains value then
    .error (.ofMessage ("value " ++ toString value ++ " is configured to fail"))
  else .ok value

def finish (r : Recording) : RecordedCall → RecordedCall
  | .busy value finishAt =>
    if finishAt ≤ r.now then .done (r.result value) else .busy value finishAt
  | c => c

def resume (r : Recording) : RecordedCall → RecordedCall
  | .held value => if r.held.contains value then .held value else .busy value (r.now + r.latency)
  | c => c

def settle (r : Recording) : Recording :=
  { r with calls := r.calls.map fun c => r.finish (r.resume c) }

def elapseTo (r : Recording) (time : Nat) : Recording :=
  settle { r with now := max r.now time }

def release (r : Recording) : Recording :=
  settle { r with held := [] }

/-- Begins a call beside the others. Its execution is recorded at once. -/
def start (r : Recording) (job : JobId) (worker value : Nat) : Recording :=
  settle { r with
    executions := r.executions ++ [⟨job, worker, value, r.now⟩]
    calls := r.calls ++ [.held value] }

def awaitCall (r : Recording) : RecordedCall → Recording
  | .busy _ finishAt => r.elapseTo finishAt
  | _ => r

/-- Waits for all calls and takes their results. A call that is still held has none. -/
def join (r : Recording) : List (Option (Except Failure Nat)) × Recording :=
  let r := r.calls.foldl awaitCall r
  (r.calls.map fun
    | .done x => some x
    | _ => none, { r with calls := [] })

def execute (r : Recording) (job : JobId) (worker value : Nat) :
    Option (Except Failure Nat) × Recording :=
  let others := r.calls.length
  let r := r.start job worker value
  let r := (r.calls[others]?).elim r r.awaitCall
  let result := match r.calls[others]? with
    | some (.done x) => some x
    | _ => none
  (result, { r with calls := r.calls.take others })

/-- Waits, at most for the time, until the value has been executed. -/
def waitFor (r : Recording) (value timeout : Nat) : Bool × Recording :=
  if r.executions.any (·.value == value) then (true, r)
  else (false, r.elapseTo (r.now + timeout))

def values (r : Recording) : List Nat :=
  r.executions.map Execution.value

def log (r : Recording) : ExecutionLog :=
  r.executions.map fun e => ⟨e.job.word.toNat, e.worker, e.value, e.startedAt / 1000000⟩

end Recording
end PacedJobs
