import PacedJobs.Queue.Sweep
import PacedJobs.Signal
import PacedJobs.Ticket

/-!
# Pools of workers

A pool has a queue, a coordinator that takes jobs from it one at a time, and workers that take them
over from the coordinator. Coordinator and workers are machines that take one step at a time, and
between two steps of one the others and the clients may take any. A step that holds a lock is one
step, so no lock is ever held between steps, the one on the hand-over apart: at most one worker
is receiving.
-/

namespace PacedJobs

/-- Where the coordinator is. Asleep, it has been told of nothing since it last looked. -/
inductive Coordinator (π : Type) where
  | checking
  | asleep
  | popping
  | holding (job : Job π)
  | offering (job : Job π)
  | stopped
deriving DecidableEq, Repr

/-- Where a worker is in its cycle. From the beginning of a cycle to its pause it remembers the time
of the beginning. Asleep, it has been told of nothing since it last looked at the signal. -/
inductive Worker (π ω : Type) where
  | looping
  | queuing
  | receiving
  | received (job : Job π)
  | admitted (job : Job π)
  | processing (job : Job π) (began : Nat)
  | ready (work : Work π) (began : Nat)
  | executing (work : Work π) (began : Nat)
  | replying (work : Work π) (result : Except JobError ω) (began : Nat)
  | delivered (work : Work π) (began : Nat)
  | undelivered (work : Work π) (began : Nat)
  | measuring (began : Nat)
  | pausing (timeout : Nat)
  | watching (deadline : Nat)
  | asleep (deadline : Nat)
  | stopped
  | crashed

/-- What a client's call has still to do. -/
inductive Call where
  /-- To reserve slices for a job that was pushed. -/
  | reserving (count : Nat)
  /-- To fire the signal and then close the queue. -/
  | triggering
  /-- To close the queue. -/
  | shutting
  | returned
deriving DecidableEq, Repr

/-- What has happened in a pool. -/
inductive Event (π ω : Type) where
  | pushed (work : Work π)
  | refused (work : Work π)
  | reserved (ids : List JobId)
  | cancelled (jobs : List (Job π))
  | popped (job : Job π)
  | received (worker : Nat) (job : Job π)
  | began (worker : Nat) (job : Job π) (time : Nat)
  | called (worker : Nat) (work : Work π)
  | returned (worker : Nat) (work : Work π) (result : Except Failure ω)
  | written (worker : Nat) (work : Work π) (result : Except JobError ω)
  /-- The coordinator or a worker has stopped with the job in hand. -/
  | abandoned (job : Job π)
  | triggered
  | closed (jobs : List (Job π))

structure Pool (π ω : Type) where
  timeSlice : Nat
  reservation : Reservation
  /-- The name of what the transport does. -/
  operation : String
  queue : Queue π
  triggered : Bool
  coordinator : Coordinator π
  workers : List (Worker π ω)
  tickets : Tickets ω
  calls : List Call
  now : Nat
  /-- From the last event to the first. -/
  history : List (Event π ω)

namespace Coordinator

variable {π : Type}

def isStopped : Coordinator π → Bool
  | stopped => true
  | _ => false

def notify : Coordinator π → Coordinator π
  | asleep => checking
  | c => c

end Coordinator

namespace Worker

variable {π ω : Type}

def isReceiving : Worker π ω → Bool
  | receiving => true
  | _ => false

def hasEnded : Worker π ω → Bool
  | stopped | crashed => true
  | _ => false

def notify : Worker π ω → Worker π ω
  | asleep deadline => watching deadline
  | w => w

end Worker

namespace Pool

variable {π ω : Type}

def start (c : Config) (operation : String) : Pool π ω where
  timeSlice := c.timeSlice
  reservation := c.reservation
  operation := operation
  queue := Queue.empty c.selection
  triggered := false
  coordinator := .checking
  workers := List.replicate (max c.workers 1) .looping
  tickets := []
  calls := []
  now := 0
  history := []

def pending (p : Pool π ω) : Nat :=
  p.queue.size

def pendingPlaceholders (p : Pool π ω) : Nat :=
  p.queue.placeholderCount

def isClosed (p : Pool π ω) : Bool :=
  p.triggered

/-- Whether the coordinator and all workers have ended. -/
def isFinished (p : Pool π ω) : Bool :=
  p.coordinator.isStopped && p.workers.all Worker.hasEnded

/-- The work that the transport was called for, in the order of the calls. -/
def called (p : Pool π ω) : List (Work π) :=
  (p.history.filterMap fun
    | .called _ w => some w
    | _ => none).reverse

def returnedCount (p : Pool π ω) : Nat :=
  p.history.countP fun
    | .returned _ _ _ => true
    | _ => false

def record (p : Pool π ω) (e : Event π ω) : Pool π ω :=
  { p with history := e :: p.history }

def drop (p : Pool π ω) (js : List (Job π)) : Pool π ω :=
  { p with tickets := p.tickets.dropAll js }

def setWorker (p : Pool π ω) (i : Nat) (w : Worker π ω) : Pool π ω :=
  { p with workers := p.workers.set i w }

/-- Reserves slices and tells the coordinator, unless the queue is closed or there are none. -/
def reserve (p : Pool π ω) (ids : List JobId) : Pool π ω :=
  match p.queue.reserve ids with
  | ([], _) => p
  | (ids, q) =>
    { p with queue := q, coordinator := p.coordinator.notify }.record (.reserved ids)

end Pool
end PacedJobs
