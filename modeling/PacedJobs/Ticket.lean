import PacedJobs.Job.Error

/-!
# Tickets

The submitter of a job holds a ticket, the receiving end of a channel for one result. The sending
end goes with the job and is given up with it. A ticket that can receive no result any more reads
that the job was dropped.
-/

namespace PacedJobs

structure Ticket (ω : Type) where
  job : JobId
  /-- The result that has been written and not been read. -/
  unread : Option (Except JobError ω)
  /-- Whether the sending end exists. -/
  sender : Bool
  /-- Whether the submitter still has the ticket. -/
  receiver : Bool

namespace Ticket

variable {ω : Type}

def issue (job : JobId) : Ticket ω :=
  ⟨job, none, true, true⟩

/-- Writes a result. This fails when nobody waits for it or one is unread. -/
def send? (t : Ticket ω) (r : Except JobError ω) : Option (Ticket ω) :=
  if t.receiver && t.unread.isNone then some { t with unread := some r } else none

def dropSender (t : Ticket ω) : Ticket ω :=
  { t with sender := false }

/-- Gives the ticket up, with a result that is unread. -/
def dropReceiver (t : Ticket ω) : Ticket ω :=
  { t with receiver := false, unread := none }

/-- What a reading shows now, or `none` while a result may still come. -/
def reading? (t : Ticket ω) : Option (Except JobError ω) :=
  match t.unread with
  | some r => some r
  | none => if t.sender then none else some (.error (.dropped t.job))

def poll (t : Ticket ω) : Option (Except JobError ω) × Ticket ω :=
  (t.reading?, { t with unread := none })

end Ticket

/-- All tickets, each at its number. -/
abbrev Tickets (ω : Type) := List (Ticket ω)

namespace Tickets

variable {π ω : Type}

def drop (ts : Tickets ω) (j : Job π) : Tickets ω :=
  match j.ticket? with
  | none => ts
  | some n => ts.modify n Ticket.dropSender

def dropAll (ts : Tickets ω) (js : List (Job π)) : Tickets ω :=
  js.foldl drop ts

end Tickets
end PacedJobs
