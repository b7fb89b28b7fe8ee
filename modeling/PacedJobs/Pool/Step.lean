import PacedJobs.Pool.Basic

/-!
# Steps of a pool

A label names who takes a step and what the step does not determine itself: what a client asks for,
new names, the answer of the transport, the passing of time. `step` gives the pool after the step,
or nothing where the step is not possible.
-/

namespace PacedJobs

inductive Label (π ω : Type) where
  /-- A client pushes new work. -/
  | submit (id : JobId) (priority : UInt16) (submittedAt : Nat) (taskCount : UInt32) (payload : π)
  | cancel (id : JobId)
  | cancelWhere (judge : Judge π)
  /-- A client begins to close the pool. -/
  | close
  /-- A client's call goes on. A call that reserves slices needs names for them. -/
  | resume (call : Nat) (ids : List JobId)
  | poll (ticket : Nat)
  /-- A client gives a ticket up. -/
  | forget (ticket : Nat)
  | coordinate
  /-- The coordinator wakes without being told. -/
  | rouse
  /-- A worker takes its next step. One that reserves slices needs names for them. -/
  | work (worker : Nat) (ids : List JobId)
  /-- The coordinator hands its job to the worker. -/
  | handOver (worker : Nat)
  /-- The transport answers the worker. -/
  | answer (worker : Nat) (result : Except Failure ω)
  /-- A worker wakes without being told, at its deadline or before. -/
  | rouseWorker (worker : Nat)
  | elapse (time : Nat)

namespace Pool

variable {π ω : Type}

/-- Names are enough for reservations if the queue is closed or each has one. -/
def canReserve (p : Pool π ω) (count : Nat) (ids : List JobId) : Bool :=
  p.queue.closed || ids.length == count

def addCall (p : Pool π ω) (c : Call) : Pool π ω :=
  { p with calls := p.calls ++ [c] }

/-- Pushes new work with a new ticket. The call goes on if it has slices to reserve. -/
def submit (p : Pool π ω) (id : JobId) (priority : UInt16) (submittedAt : Nat)
    (taskCount : UInt32) (payload : π) : Pool π ω :=
  let w := Work.ofTaskCount id priority submittedAt taskCount payload p.tickets.length
  let p := { p with tickets := p.tickets ++ [Ticket.issue id] }
  match p.queue.push (.work w) with
  | (false, _) => ((p.drop [.work w]).addCall .returned).record (.refused w)
  | (true, q) =>
    let p := { p with queue := q, coordinator := p.coordinator.notify }
    let call := if p.reservation = .onSubmit then Call.reserving w.reserved else .returned
    (p.addCall call).record (.pushed w)

/-- Takes a pending job out, and tells whether there was one with the name. -/
def cancel (p : Pool π ω) (id : JobId) : Bool × Pool π ω :=
  match p.queue.delete id with
  | none => (false, p)
  | some (j, q) => (true, ({ p with queue := q }.drop [j]).record (.cancelled [j]))

/-- Sweeps the pending jobs, and gives those taken out. -/
def cancelWhere (p : Pool π ω) (judge : Judge π) : List (Job π) × Pool π ω :=
  match p.queue.deleteWhere judge with
  | (none, q) => ([], { p with queue := q })
  | (some js, q) => (js, ({ p with queue := q }.drop js).record (.cancelled js))

/-- Begins to close the pool, unless the signal has fired. -/
def close (p : Pool π ω) : Pool π ω :=
  p.addCall (if p.triggered then .returned else .triggering)

def trigger (p : Pool π ω) : Pool π ω :=
  { p with triggered := true, workers := p.workers.map Worker.notify }.record .triggered

/-- Closes the queue, gives its jobs up and tells the coordinator. -/
def shut (p : Pool π ω) : Pool π ω :=
  let (js, q) := p.queue.close
  ({ p with queue := q, coordinator := p.coordinator.notify }.drop js).record (.closed js)

def setCall (p : Pool π ω) (k : Nat) (c : Call) : Pool π ω :=
  { p with calls := p.calls.set k c }

def resume? (p : Pool π ω) (k : Nat) (ids : List JobId) : Option (Pool π ω) :=
  match p.calls[k]? with
  | some (.reserving count) =>
    if p.canReserve count ids then some ((p.reserve ids).setCall k .returned) else none
  | some .triggering => some (p.trigger.setCall k .shutting)
  | some .shutting => some (p.shut.setCall k .returned)
  | some .returned | none => none

/-- The ticket with the number, while its owner has it. -/
def ticket? (p : Pool π ω) (n : Nat) : Option (Ticket ω) :=
  (p.tickets[n]?).filter Ticket.receiver

def setTicket (p : Pool π ω) (n : Nat) (t : Ticket ω) : Pool π ω :=
  { p with tickets := p.tickets.set n t }

def poll? (p : Pool π ω) (n : Nat) : Option (Pool π ω) :=
  (p.ticket? n).map fun t => p.setTicket n t.poll.2

def forget? (p : Pool π ω) (n : Nat) : Option (Pool π ω) :=
  (p.ticket? n).map fun t => p.setTicket n t.dropReceiver

/-- The coordinator's next step. It waits while the queue is empty and open, and while it offers a
job and a worker is left to take it. -/
def coordinate? (p : Pool π ω) : Option (Pool π ω) :=
  match p.coordinator with
  | .checking =>
    some { p with
      coordinator :=
        if p.queue.closed then .stopped
        else if p.queue.isEmpty then .asleep
        else .popping }
  | .popping =>
    match p.queue.pop with
    | none => some { p with coordinator := .checking }
    | some (j, q) => some ({ p with queue := q, coordinator := .holding j }.record (.popped j))
  | .holding j =>
    if p.queue.closed then some (({ p with coordinator := .stopped }.drop [j]).record (.abandoned j))
    else some { p with coordinator := .offering j }
  | .offering j =>
    if p.workers.all Worker.hasEnded then
      some (({ p with coordinator := .stopped }.drop [j]).record (.abandoned j))
    else none
  | .asleep | .stopped => none

def call (p : Pool π ω) (i : Nat) (w : Work π) (began : Nat) : Pool π ω :=
  (p.setWorker i (.executing w began)).record (.called i w)

/-- A worker's next step. It waits for the hand-over, for the job it is to receive, for the
transport, and asleep. -/
def work? (p : Pool π ω) (i : Nat) (ids : List JobId) : Option (Pool π ω) :=
  match p.workers[i]? with
  | some .looping => some (p.setWorker i (if p.triggered then .stopped else .queuing))
  | some .queuing =>
    if p.workers.any Worker.isReceiving then none else some (p.setWorker i .receiving)
  | some .receiving =>
    if p.coordinator.isStopped then some (p.setWorker i .stopped) else none
  | some (.received j) =>
    if p.triggered then some (((p.setWorker i .stopped).drop [j]).record (.abandoned j))
    else some (p.setWorker i (.admitted j))
  | some (.admitted j) => some ((p.setWorker i (.processing j p.now)).record (.began i j p.now))
  | some (.processing (.placeholder _) began) => some (p.setWorker i (.measuring began))
  | some (.processing (.work w) began) =>
    if p.reservation = .onExecute ∧ 0 < w.reserved then
      if p.canReserve w.reserved ids then some ((p.reserve ids).setWorker i (.ready w began))
      else none
    else some (p.call i w began)
  | some (.ready w began) => some (p.call i w began)
  | some (.replying w r began) =>
    match (p.tickets[w.ticket]?).bind (Ticket.send? · r) with
    | some t =>
      some (((p.setTicket w.ticket t).setWorker i (.delivered w began)).record (.written i w r))
    | none => some (p.setWorker i (.undelivered w began))
  | some (.delivered w began) => some ((p.setWorker i (.measuring began)).drop [.work w])
  | some (.undelivered w began) =>
    some ((p.setWorker i (if p.triggered then .stopped else .measuring began)).drop [.work w])
  | some (.measuring began) => some (p.setWorker i (.pausing (p.timeSlice - (p.now - began))))
  | some (.pausing timeout) =>
    match deadline? p.now timeout with
    | some deadline => some (p.setWorker i (.watching deadline))
    | none => some (p.setWorker i .crashed)
  | some (.watching deadline) =>
    match watch p.triggered p.now deadline with
    | .fired => some (p.setWorker i .stopped)
    | .expired => some (p.setWorker i .looping)
    | .early => some (p.setWorker i (.asleep deadline))
  | some (.executing _ _) | some (.asleep _) | some .stopped | some .crashed | none => none

def handOver? (p : Pool π ω) (i : Nat) : Option (Pool π ω) :=
  match p.coordinator, p.workers[i]? with
  | .offering j, some .receiving =>
    some ((({ p with coordinator := .checking }).setWorker i (.received j)).record (.received i j))
  | _, _ => none

/-- The result that a ticket gets for an answer of the transport. -/
def resultOf (p : Pool π ω) (i : Nat) (w : Work π) (r : Except Failure ω) : Except JobError ω :=
  r.mapError fun f => .transport i w.id p.operation f

def answer? (p : Pool π ω) (i : Nat) (r : Except Failure ω) : Option (Pool π ω) :=
  match p.workers[i]? with
  | some (.executing w began) =>
    some ((p.setWorker i (.replying w (p.resultOf i w r) began)).record (.returned i w r))
  | _ => none

def rouseWorker? (p : Pool π ω) (i : Nat) : Option (Pool π ω) :=
  match p.workers[i]? with
  | some (.asleep deadline) => some (p.setWorker i (.watching deadline))
  | _ => none

def step (p : Pool π ω) : Label π ω → Option (Pool π ω)
  | .submit id priority submittedAt taskCount payload =>
    if submittedAt ≤ p.now then some (p.submit id priority submittedAt taskCount payload) else none
  | .cancel id => some (p.cancel id).2
  | .cancelWhere judge => some (p.cancelWhere judge).2
  | .close => some p.close
  | .resume k ids => p.resume? k ids
  | .poll n => p.poll? n
  | .forget n => p.forget? n
  | .coordinate => p.coordinate?
  | .rouse =>
    match p.coordinator with
    | .asleep => some { p with coordinator := .checking }
    | _ => none
  | .work i ids => p.work? i ids
  | .handOver i => p.handOver? i
  | .answer i r => p.answer? i r
  | .rouseWorker i => p.rouseWorker? i
  | .elapse time => some { p with now := p.now + time }

end Pool
end PacedJobs
