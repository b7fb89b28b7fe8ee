import PacedJobs.Queue.Sweep
import PacedJobs.Ticket

/-!
# A queue with all that its jobs pass through

A workbench keeps a queue together with the jobs that were popped and not given up, the tickets of
all jobs, and those who wait for the queue to hold something. A job that is turned away, taken out,
or given up resolves its ticket.
-/

namespace PacedJobs

structure Workbench (π ω : Type) where
  queue : Queue π
  /-- Popped jobs by slot. A slot is empty once its job was pushed again or given up. -/
  held : List (Option (Job π))
  tickets : Tickets ω
  /-- Answers to those who wait, `none` while they wait. -/
  waiters : List (Option Bool)

namespace Workbench

variable {π ω : Type}

def empty (selection : Selection) : Workbench π ω :=
  ⟨Queue.empty selection, [], [], []⟩

def drop (b : Workbench π ω) (js : List (Job π)) : Workbench π ω :=
  { b with tickets := b.tickets.dropAll js }

def answerFirst : List (Option Bool) → List (Option Bool)
  | [] => []
  | none :: ws => some true :: ws
  | w :: ws => w :: answerFirst ws

def push (b : Workbench π ω) (j : Job π) : Bool × Workbench π ω :=
  match b.queue.push j with
  | (true, q) => (true, { b with queue := q, waiters := answerFirst b.waiters })
  | (false, _) => (false, b.drop [j])

def submit (b : Workbench π ω) (id : JobId) (priority : UInt16) (submittedAt : Nat)
    (taskCount : UInt32) (payload : π) : Bool × Workbench π ω :=
  let w := Work.ofTaskCount id priority submittedAt taskCount payload b.tickets.length
  { b with tickets := b.tickets ++ [Ticket.issue id] }.push (.work w)

def held? (b : Workbench π ω) (slot : Nat) : Option (Job π) :=
  (b.held[slot]?).join

def pushHeld (b : Workbench π ω) (slot : Nat) : Option (Bool × Workbench π ω) :=
  (b.held? slot).map fun j => { b with held := b.held.set slot none }.push j

def discard (b : Workbench π ω) (slot : Nat) : Workbench π ω :=
  match b.held? slot with
  | some j => { b with held := b.held.set slot none }.drop [j]
  | none => b

def reserve (b : Workbench π ω) (ids : List JobId) : List JobId × Workbench π ω :=
  let (ids, q) := b.queue.reserve ids
  let waiters := if ids.isEmpty then b.waiters else answerFirst b.waiters
  (ids, { b with queue := q, waiters := waiters })

def pop (b : Workbench π ω) : Option (Job π × Workbench π ω) :=
  b.queue.pop.map fun (j, q) => (j, { b with queue := q, held := b.held ++ [some j] })

def drain (b : Workbench π ω) : List (Job π) × Workbench π ω :=
  (b.queue.line, { b with queue := b.queue.withJobs [] }.drop b.queue.line)

def delete (b : Workbench π ω) (id : JobId) : Bool × Workbench π ω :=
  match b.queue.delete id with
  | some (j, q) => (true, { b with queue := q }.drop [j])
  | none => (false, b)

/-- Sweeps the queue. What was taken out is missing if the judge panicked. -/
def deleteWhere (b : Workbench π ω) (judge : Judge π) : Option (List (Job π)) × Workbench π ω :=
  match b.queue.deleteWhere judge with
  | (some removed, q) => (some removed, { b with queue := q }.drop removed)
  | (none, q) => (none, { b with queue := q })

/-- Closes the queue, gives its jobs up and sends away all who wait. -/
def close (b : Workbench π ω) : Nat × Workbench π ω :=
  let (js, q) := b.queue.close
  let waiters := b.waiters.map fun w => some (w.getD false)
  (js.length, { b with queue := q, waiters := waiters }.drop js)

/-- Waits for the queue to hold something. The answer is missing if it is not known yet. -/
def waitNonEmpty (b : Workbench π ω) : Option Bool × Workbench π ω :=
  if b.queue.isEmpty && !b.queue.closed then
    (none, { b with waiters := b.waiters ++ [none] })
  else (some !b.queue.closed, b)

def join (b : Workbench π ω) : List (Option Bool) × Workbench π ω :=
  (b.waiters, { b with waiters := [] })

/-- The ticket with the number, while its owner has it. -/
def ticket? (b : Workbench π ω) (n : Nat) : Option (Ticket ω) :=
  (b.tickets[n]?).filter Ticket.receiver

def poll (b : Workbench π ω) (n : Nat) : Option (Option (Except JobError ω)) × Workbench π ω :=
  match b.ticket? n with
  | none => (none, b)
  | some t => (some t.poll.1, { b with tickets := b.tickets.set n t.poll.2 })

def take (b : Workbench π ω) (n : Nat) : Option (Option (Except JobError ω)) × Workbench π ω :=
  match b.ticket? n with
  | none => (none, b)
  | some t =>
    match t.reading? with
    | none => (some none, b)
    | some r => (some (some r), { b with tickets := b.tickets.set n t.dropReceiver })

end Workbench
end PacedJobs
