import PacedJobs.Pool.Step
import PacedJobs.Transport

/-!
# Running a pool

A schedule decides who steps next: the first worker that can, and the coordinator when no worker
can. It says which workers step at all, how the transport answers and which names are given out.
A pool settles when it runs until nobody can step. The clock then moves to the next deadline, if
something is waited for.
-/

namespace PacedJobs

structure Schedule (π ω : Type) where
  mayWork : Nat → Bool
  /-- The answer of the transport, missing while the call is held back. -/
  answer : Context → π → Option (Except Failure ω)
  /-- Names in the order in which they are given out. -/
  names : Nat → JobId

/-- A pool and the number of names that have been given out in it. -/
structure Run (π ω : Type) where
  pool : Pool π ω
  named : Nat

namespace Run

variable {π ω : Type}

def start (c : Config) (operation : String) : Run π ω :=
  ⟨Pool.start c operation, 0⟩

def elapse (r : Run π ω) (time : Nat) : Run π ω :=
  { r with pool := { r.pool with now := r.pool.now + time } }

def update (r : Run π ω) (pool : Pool π ω) : Run π ω :=
  { r with pool := pool }

end Run

namespace Pool

variable {π ω : Type}

/-- The jobs that a worker may still have to process. -/
def outstanding (p : Pool π ω) : List (Job π) :=
  let offered := match p.coordinator with
    | .holding j | .offering j => [j]
    | _ => []
  let taken := p.workers.flatMap fun
    | .received j | .admitted j | .processing j _ => [j]
    | _ => []
  p.queue.line ++ offered ++ taken

/-- More steps than can be taken before all has settled, and more pauses than can follow. A job
takes up less than twenty-four steps, and executing it may reserve a slice for each further task. -/
def effort (p : Pool π ω) : Nat :=
  let cycles := p.outstanding.foldl (fun n j => n + j.taskCount.toNat) 0
  24 * (cycles + p.workers.length + 1)

end Pool

namespace Schedule

variable {π ω : Type} (s : Schedule π ω)

/-- The next names. There are none to give when the queue is closed. -/
def take (r : Run π ω) (count : Nat) : List JobId :=
  if r.pool.queue.closed then [] else (List.range count).map fun k => s.names (r.named + k)

/-- Takes a step that uses the names, if it is possible. -/
def step? (r : Run π ω) (label : Label π ω) (ids : List JobId) : Option (Run π ω) :=
  (r.pool.step label).map fun p => ⟨p, r.named + ids.length⟩

def work? (r : Run π ω) (i : Nat) : Option (Run π ω) :=
  match r.pool.workers[i]? with
  | some (.executing w _) =>
    (s.answer ⟨i, w.id, w.priority, w.taskCount⟩ w.payload).bind fun x => step? r (.answer i x) []
  | some (.asleep deadline) =>
    if deadline ≤ r.pool.now then step? r (.rouseWorker i) [] else none
  | some .receiving => step? r (.handOver i) [] <|> step? r (.work i []) []
  | some (.processing (.work w) _) =>
    let ids := if r.pool.reservation = .onExecute then s.take r w.reserved else []
    step? r (.work i ids) ids
  | some _ => step? r (.work i []) []
  | none => none

def next? (r : Run π ω) : Option (Run π ω) :=
  ((List.range r.pool.workers.length).findSome? fun i => if s.mayWork i then s.work? r i else none)
    <|> step? r .coordinate []

def steps : Nat → Run π ω → Run π ω
  | 0, r => r
  | n + 1, r =>
    match s.next? r with
    | some r => steps n r
    | none => r

def settle (r : Run π ω) : Run π ω :=
  s.steps r.pool.effort r

def nextDeadline? (r : Run π ω) : Option Nat :=
  (r.pool.workers.zipIdx.filterMap fun
    | (.asleep deadline, i) => if s.mayWork i then some deadline else none
    | _ => none).min?

/-- Settles, and lets the time pass up to the next deadline until the goal is reached or nobody
sleeps. -/
def settleUntil (goal : Pool π ω → Bool) : Nat → Run π ω → Run π ω
  | 0, r => s.settle r
  | n + 1, r =>
    let r := s.settle r
    if goal r.pool then r
    else
      match s.nextDeadline? r with
      | some deadline => settleUntil goal n (r.elapse (deadline - r.pool.now))
      | none => r

/-- Waits until the goal is reached, or can not be reached by waiting. -/
def await (goal : Pool π ω → Bool) (r : Run π ω) : Run π ω :=
  s.settleUntil goal r.pool.effort r

/-- A client's call goes on until it returns, in at most as many steps as a call has. -/
def finishCall (k : Nat) : Nat → Run π ω → Run π ω
  | 0, r => r
  | n + 1, r =>
    let ids := match r.pool.calls[k]? with
      | some (.reserving count) => s.take r count
      | _ => []
    match step? r (.resume k ids) ids with
    | some r => finishCall k n r
    | none => r

/-- Submits work and gives its name and the number of its ticket. -/
def submit (r : Run π ω) (payload : π) (priority : UInt16) (taskCount : UInt32) :
    (JobId × Nat) × Run π ω :=
  let id := s.names r.named
  let ticket := r.pool.tickets.length
  let call := r.pool.calls.length
  let p := r.pool.submit id priority r.pool.now taskCount payload
  ((id, ticket), s.finishCall call 1 ⟨p, r.named + 1⟩)

def close (r : Run π ω) : Run π ω :=
  s.finishCall r.pool.calls.length 2 (r.update r.pool.close)

/-- Closes the pool and waits until it has finished. -/
def finish (r : Run π ω) : Run π ω :=
  s.await Pool.isFinished (s.close r)

end Schedule
end PacedJobs
