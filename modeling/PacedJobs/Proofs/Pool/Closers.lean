import PacedJobs.Proofs.Pool.CleanCut

/-!
# Calls that close a pool

To close a pool a call looks at the signal, fires it, and then closes the queue. A call that finds
the signal fired returns at once, and the call that has fired it may still have to close the queue.
So it is the return of a call that has not found the signal fired, or the end of all that are under
way, after which nothing is pending and nothing is taken in any more.
-/

namespace PacedJobs

variable {π ω : Type}

theorem Queue.jobs_eq_nil {q : Queue π} (h : q.line = []) : q.jobs = [] := by
  unfold jobs
  split <;> simp [h]

namespace Pool

variable {p q r : Pool π ω} {l : Label π ω} {k : Nat}

/-- What everybody finds in a pool once its queue is closed. -/
structure Shut (p : Pool π ω) : Prop where
  closed : p.queue.closed = true
  pending : p.pending = 0
  placeholders : p.pendingPlaceholders = 0
  /-- New work is turned away, and when the call returns its ticket reads that it was dropped. -/
  refuses : ∀ id priority submittedAt taskCount payload,
    let q := p.submit id priority submittedAt taskCount payload
    q.queue = p.queue ∧ q.calls = p.calls ++ [.returned] ∧
      (q.tickets[p.tickets.length]?).bind Ticket.reading? = some (.error (.dropped id))
  cancel : ∀ id, p.cancel id = (false, p)
  cancelWhere : ∀ judge, (p.cancelWhere judge).1 = []

theorem Shut.of_closed (hclosed : p.queue.closed = true) (hline : p.queue.line = []) :
    p.Shut where
  closed := hclosed
  pending := by simp [Pool.pending, Queue.size, hline]
  placeholders := by simp [pendingPlaceholders, Queue.placeholderCount, hline]
  refuses id priority submittedAt taskCount payload := by
    have hticket : (Job.work (Work.ofTaskCount id priority submittedAt taskCount payload
        p.tickets.length)).ticket? = some p.tickets.length := by
      simp [Job.ticket?, Job.work?]
    simp only [submit, Queue.push, hclosed, if_true]
    refine ⟨rfl, rfl, ?_⟩
    simp [record, addCall, drop, Tickets.dropAll, Tickets.drop, hticket, Ticket.issue,
      Ticket.dropSender, Ticket.reading?]
  cancel id := by simp [Pool.cancel, Queue.delete, Queue.jobs_eq_nil hline]
  cancelWhere judge := by
    simp [Pool.cancelWhere, Queue.deleteWhere, Queue.jobs_eq_nil hline, Sweep.run, Sweep.judgeAll]

theorem Move.getElem?_calls (h : Move p l q) {c : Call} (hat : p.calls[k]? = some c) :
    q.calls[k]? = some c ∨ ∃ ids, l = .resume k ids := by
  have happend : ∀ c', (p.calls ++ [c'])[k]? = some c := fun c' => by
    rw [List.getElem?_append_left (List.getElem?_eq_some_iff.mp hat).1, hat]
  have hset : ∀ (k' : Nat) (ids : List JobId) (c' : Call),
      (p.calls.set k' c')[k]? = some c ∨
        ∃ ids', (.resume k' ids : Label π ω) = .resume k ids' := by
    intro k' ids c'
    by_cases hk : k' = k
    · exact .inr ⟨ids, by rw [hk]⟩
    · exact .inl (by rw [List.getElem?_set_ne hk, hat])
  cases h with
  | refuse w hw hclosed => exact .inl (happend _)
  | accept w hw hopen => exact .inl (happend _)
  | close => exact .inl (happend _)
  | reserve hcall hids =>
    exact (hset _ _ .returned).imp_left fun heq => by simpa [setCall] using heq
  | trigger hcall => exact hset _ _ .shutting
  | shut hcall => exact hset _ _ .returned
  | prepare hat' hmode hmore hids => exact .inl (by simpa [setWorker] using hat)
  | _ => exact .inl hat

/-- A call that has found the signal unfired fires it and closes the queue before it returns. -/
def Closer (p : Pool π ω) (k : Nat) : Prop :=
  p.calls[k]? = some .triggering ∨
    p.triggered = true ∧ (p.calls[k]? = some .shutting ∨ p.queue.closed = true)

theorem Closer.move (h : Closer p k) (hmove : Move p l q) : Closer q k := by
  rcases h with hat | ⟨hfired, hat | hclosed⟩
  · rcases hmove.getElem?_calls hat with hstay | ⟨ids, rfl⟩
    · exact .inl hstay
    · have hlt := (List.getElem?_eq_some_iff.mp hat).1
      cases hmove with
      | reserve hcall hids => cases hat.symm.trans hcall
      | trigger hcall => exact .inr ⟨rfl, .inl (List.getElem?_set_self hlt)⟩
      | shut hcall => cases hat.symm.trans hcall
  · have hfired' := hmove.triggered_of_triggered hfired
    rcases hmove.getElem?_calls hat with hstay | ⟨ids, rfl⟩
    · exact .inr ⟨hfired', .inl hstay⟩
    · cases hmove with
      | reserve hcall hids => cases hat.symm.trans hcall
      | trigger hcall => cases hat.symm.trans hcall
      | shut hcall => exact .inr ⟨hfired', .inr rfl⟩
  · exact .inr ⟨hmove.triggered_of_triggered hfired, .inr (hmove.closed_of_closed hclosed)⟩

/-- What holds when a call has returned that was to close the pool, and found it as `p`. -/
structure Returned (p q : Pool π ω) : Prop where
  fired : q.triggered = true
  /-- The call has closed the queue, if it has not found the signal fired. -/
  closed : p.triggered = false → q.queue.closed = true
  /-- The queue is open at most until another call that is under way takes its last step. -/
  others : q.queue.closed = false → .shutting ∈ q.calls
  last : ∀ k ids, q.calls[k]? = some .shutting →
    ∃ r, q.step (.resume k ids) = some r ∧ r.queue.closed = true
  /-- From the closing of the queue on all find the pool shut. -/
  shut : q.queue.closed = true → ∀ ls r, q.run? ls = some r → r.Shut

/-- However the steps of clients and threads follow each other, a call to close the pool returns
when the signal has fired. If it has not found it so, or if no such call is under way any more, the
pool is shut for good. -/
theorem returned_of_run {c : Config} {operation : String} {ls ms : List (Label π ω)}
    (h : (Pool.start c operation).run? ls = some p) (hrun : p.close.run? ms = some q)
    (hreturned : q.calls[p.calls.length]? = some .returned) : Returned p q := by
  have hreach : ∀ ns s, q.run? ns = some s →
      (Pool.start c operation).run? (ls ++ (.close :: (ms ++ ns))) = some s := fun _ _ hns =>
    run?_append.mpr ⟨p, h, run?_cons.mpr ⟨p.close, rfl, run?_append.mpr ⟨q, hrun, hns⟩⟩⟩
  have hown : p.triggered = false → q.triggered = true ∧ q.queue.closed = true := by
    intro hquiet
    have hcloser : Closer p.close p.calls.length := by
      refine .inl ?_
      simp [close, hquiet, addCall]
    rcases invariant_run? (I := fun s => Closer s p.calls.length)
      (fun hs hmove => hs.move hmove) hcloser hrun with hat | ⟨hfired, hat | hclosed⟩
    · cases hat.symm.trans hreturned
    · cases hat.symm.trans hreturned
    · exact ⟨hfired, hclosed⟩
  have hfired : q.triggered = true := by
    cases hp : p.triggered with
    | false => exact (hown hp).1
    | true =>
      exact invariant_run? (I := fun s => s.triggered = true)
        (fun hs hmove => hmove.triggered_of_triggered hs) (p := p.close) hp hrun
  refine ⟨hfired, fun hquiet => (hown hquiet).2, fun hopen => ?_, fun k ids hcall => ?_,
    fun hclosed ns r hns => ?_⟩
  · exact (shutting_of_run (hreach [] q rfl) hfired).resolve_left (by simp [hopen])
  · exact ⟨q.shut.setCall k .returned, by simp [step, resume?, hcall], rfl⟩
  · have hclosed' : r.queue.closed = true :=
      invariant_run? (I := fun s => s.queue.closed = true)
        (fun hs hmove => hmove.closed_of_closed hs) hclosed hns
    exact .of_closed hclosed' (drained_of_run (hreach ns r hns) hclosed').1

/-- A job is pending, and a call to close the pool has fired the signal and not closed the queue. -/
def fireBesidePending : List (Label Unit Unit) :=
  [.submit ⟨1⟩ 0 0 1 (), .resume 0 [], .close, .resume 1 []]

theorem returned_fireBesidePending : ∃ p q : Pool Unit Unit,
    (Pool.start { workers := 1 } "run").run? fireBesidePending = some p ∧
      p.close.run? [.resume 1 []] = some q ∧ q.calls[p.calls.length]? = some .returned ∧
        Returned p q ∧ q.queue.closed = true := by
  refine ⟨_, _, rfl, rfl, rfl, ?_, rfl⟩
  exact @returned_of_run Unit Unit _ _ { workers := 1 } "run" fireBesidePending [.resume 1 []]
    rfl rfl rfl

/-- A second call returns at once. The job is still pending and can be cancelled, new work is taken
in, and its ticket does not read that it was dropped. -/
theorem open_fireBesidePending : ∃ p q r : Pool Unit Unit,
    (Pool.start { workers := 1 } "run").run? fireBesidePending = some p ∧
      p.step .close = some q ∧ q.calls[p.calls.length]? = some .returned ∧
        q.queue.closed = false ∧ q.pending = 1 ∧ (q.cancel ⟨1⟩).1 = true ∧
          q.step (.submit ⟨2⟩ 0 0 1 ()) = some r ∧ r.pending = 2 ∧
            (r.tickets[1]?).bind Ticket.reading? = none :=
  ⟨_, _, _, rfl, rfl, rfl, rfl, rfl, rfl, rfl, rfl, rfl⟩

end Pool
end PacedJobs
