import PacedJobs.Job.Id

/-!
# Jobs and their urgency

A job is work that was submitted, or a placeholder that stands for one more time slice of such work.
Placeholders are the least urgent and equal among themselves. Work is compared by priority and then
by time, and what is newer is more urgent.
-/

namespace PacedJobs

/-- Submitted work. Its result goes to the ticket with the given number. -/
structure Work (π : Type) where
  id : JobId
  priority : UInt16
  submittedAt : Nat
  taskCount : UInt32
  payload : π
  ticket : Nat
  taskCount_ne_zero : taskCount ≠ 0
deriving DecidableEq, Repr

namespace Work

variable {π : Type}

def ofTaskCount (id : JobId) (priority : UInt16) (submittedAt : Nat) (taskCount : UInt32)
    (payload : π) (ticket : Nat) : Work π :=
  if h : taskCount = 0 then ⟨id, priority, submittedAt, 1, payload, ticket, by decide⟩
  else ⟨id, priority, submittedAt, taskCount, payload, ticket, h⟩

/-- The number of placeholders for the tasks after the first. -/
def reserved (w : Work π) : Nat :=
  w.taskCount.toNat - 1

end Work

inductive Job (π : Type) where
  | placeholder (id : JobId)
  | work (w : Work π)
deriving DecidableEq, Repr

namespace Job

variable {π : Type}

def id : Job π → JobId
  | placeholder id => id
  | work w => w.id

def priority : Job π → UInt16
  | placeholder _ => 0
  | work w => w.priority

def taskCount : Job π → UInt32
  | placeholder _ => 1
  | work w => w.taskCount

def isPlaceholder : Job π → Bool
  | placeholder _ => true
  | work _ => false

def work? : Job π → Option (Work π)
  | placeholder _ => none
  | work w => some w

def payload? (j : Job π) : Option π :=
  j.work?.map Work.payload

/-- The number of the ticket that waits for the result, if there is one. -/
def ticket? (j : Job π) : Option Nat :=
  j.work?.map Work.ticket

/-- Whether a job is less urgent than another, as urgent, or more urgent. -/
def compareUrgency : Job π → Job π → Ordering
  | placeholder _, placeholder _ => .eq
  | placeholder _, work _ => .lt
  | work _, placeholder _ => .gt
  | work a, work b =>
    (compare a.priority.toNat b.priority.toNat).then (compare a.submittedAt b.submittedAt)

end Job

/-- What a predicate may know of a pending job. -/
structure View (π : Type) where
  id : JobId
  priority : UInt16
  submittedAt : Option Nat
  taskCount : UInt32
  isPlaceholder : Bool
  payload : Option π
deriving DecidableEq, Repr

def Job.view {π : Type} (j : Job π) : View π where
  id := j.id
  priority := j.priority
  submittedAt := j.work?.map Work.submittedAt
  taskCount := j.taskCount
  isPlaceholder := j.isPlaceholder
  payload := j.payload?

end PacedJobs
