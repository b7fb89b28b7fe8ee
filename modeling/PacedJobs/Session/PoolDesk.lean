import PacedJobs.Pool.Schedule
import PacedJobs.Session.Desk

/-!
# The desk of a pool

Between two requests of a session the pool may move on. Waiting for receipts lets it run until their
tickets have results.
-/

namespace PacedJobs

namespace Pool

/-- Cancels all work with a priority below the given one. -/
def cancelBelow {π ω : Type} (p : Pool π ω) (priority : UInt16) : List (Job π) × Pool π ω :=
  p.cancelWhere (Judge.ofPredicate fun v => !v.isPlaceholder && v.priority < priority)

/-- Whether the ticket with the number has a result, or there is no such ticket. -/
def isResolved {π ω : Type} (p : Pool π ω) (n : Nat) : Bool :=
  ((p.tickets[n]?).bind Ticket.reading?).isSome || p.tickets.length ≤ n

end Pool

namespace Schedule

/-- A desk over a running pool. `between` is what happens after a request. -/
def desk {ω : Type} (s : Schedule Json ω) (between : Run Json ω → Run Json ω) :
    Desk (Run Json ω) ω where
  submit r payload priority taskCount :=
    let ((id, ticket), r) := s.submit r payload priority taskCount
    (⟨id, ticket⟩, between r)
  cancel r id :=
    let (removed, p) := r.pool.cancel id
    (removed, between (r.update p))
  cancelBelow r priority :=
    let (jobs, p) := r.pool.cancelBelow priority
    (jobs.map Job.id, between (r.update p))
  await r receipts := s.await (fun p => receipts.all fun c => p.isResolved c.ticket) r
  result r receipt :=
    ((r.pool.tickets[receipt.ticket]?).bind Ticket.reading?).getD (.error (.dropped receipt.id))

end Schedule
end PacedJobs
