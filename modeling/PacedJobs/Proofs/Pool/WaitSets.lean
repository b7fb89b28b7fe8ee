import PacedJobs.Proofs.Pool.Waking
import PacedJobs.Proofs.Pool.Workers

/-!
# Wait sets

The coordinator waits for the queue to hold something, and a worker that pauses waits for the
signal. Who waits is in a wait set from the check that found nothing to the next notification,
unless it wakes by itself. No notification is lost: nobody stays in a wait set when what it waits
for is there.
-/

namespace PacedJobs
namespace Pool

variable {π ω : Type}

/-- The coordinator is in the wait set of the queue. -/
def AwaitsQueue (p : Pool π ω) : Prop :=
  p.coordinator = .asleep

/-- The worker with the number is in the wait set of the signal. -/
def AwaitsSignal (p : Pool π ω) (i : Nat) : Prop :=
  ∃ deadline, p.workers[i]? = some (.asleep deadline)

/-- While the coordinator sleeps there is nothing to do. -/
def Attentive (p : Pool π ω) : Prop :=
  p.coordinator = .asleep → p.queue.line = [] ∧ p.queue.closed = false

variable {p q : Pool π ω} {l : Label π ω}

theorem Attentive.reserve (h : Attentive p) (ids : List JobId) : Attentive (p.reserve ids) := by
  rcases p.reserve_cases ids with heq | ⟨-, heq⟩
  · rwa [heq]
  · rw [heq]
    exact fun hasleep => absurd hasleep p.coordinator.notify_ne_asleep

theorem Attentive.move (h : Attentive p) (hmove : Move p l q) : Attentive q := by
  cases hmove with
  | accept w hw hopen => exact fun hasleep => absurd hasleep p.coordinator.notify_ne_asleep
  | cancel j queue hdelete =>
    intro hasleep
    have hperm := Queue.line_perm_of_delete hdelete
    simp [(h hasleep).1] at hperm
  | sweepPanic queue hsweep =>
    intro hasleep
    obtain ⟨hnil, hopen⟩ := h hasleep
    have hperm := Queue.line_perm_of_deleteWhere_panic hsweep
    rw [hnil, List.perm_nil] at hperm
    exact ⟨hperm, (Queue.closed_of_deleteWhere hsweep).trans hopen⟩
  | sweep js queue hsweep =>
    intro hasleep
    obtain ⟨hnil, hopen⟩ := h hasleep
    have hperm := Queue.line_perm_of_deleteWhere hsweep
    rw [hnil, List.nil_perm, List.append_eq_nil_iff] at hperm
    exact ⟨hperm.2, (Queue.closed_of_deleteWhere hsweep).trans hopen⟩
  | reserve hcall hids => exact h.reserve _
  | prepare hat hmode hmore hids => exact h.reserve _
  | shut hcall => exact fun hasleep => absurd hasleep p.coordinator.notify_ne_asleep
  | @coordinate c hturn hawake =>
    rintro rfl
    generalize p.coordinator = c at hturn
    cases hturn with
    | sleep hopen hempty => exact ⟨hempty, hopen⟩
  | pop hat hline => exact fun hasleep => nomatch hasleep
  | abandon hat => exact fun hasleep => nomatch hasleep
  | rouse hat => exact fun hasleep => nomatch hasleep
  | handOver hat hi => exact fun hasleep => nomatch hasleep
  | _ => exact h

theorem attentive_start (c : Config) (operation : String) :
    Attentive (Pool.start c operation : Pool π ω) :=
  fun hasleep => nomatch hasleep

/-- A move brings the coordinator into the wait set by a check that finds nothing. -/
theorem Move.joins_queue (h : Move p l q) (hwaits : q.AwaitsQueue) (hbefore : ¬ p.AwaitsQueue) :
    l = .coordinate ∧ p.coordinator = .checking ∧ p.queue.line = [] ∧ p.queue.closed = false := by
  unfold AwaitsQueue at hwaits hbefore
  rcases h.coordinator with hstep | heq | ⟨heq, -⟩
  · rw [hwaits] at hstep
    generalize p.coordinator = c at hstep
    cases hstep with
    | turn hturn hawake =>
      cases hturn with
      | sleep hopen hempty => exact ⟨rfl, rfl, hempty, hopen⟩
  · exact absurd (heq.symm.trans hwaits) hbefore
  · exact absurd (heq.symm.trans hwaits) p.coordinator.notify_ne_asleep

/-- The coordinator leaves the wait set by itself, or for a queue that is worth a look. -/
theorem Move.leaves_queue (h : Move p l q) (hwaits : p.AwaitsQueue) (hafter : ¬ q.AwaitsQueue) :
    q.coordinator = .checking ∧ (l = .rouse ∨ q.queue.line ≠ [] ∨ q.queue.closed = true) := by
  unfold AwaitsQueue at hwaits hafter
  rcases h.coordinator with hstep | heq | ⟨heq, htold⟩
  · rw [hwaits] at hstep
    generalize q.coordinator = c at hstep
    cases hstep with
    | turn hturn hawake => exact absurd rfl hawake
    | wake => exact ⟨rfl, .inl rfl⟩
  · exact absurd (heq.trans hwaits) hafter
  · rw [hwaits] at heq
    exact ⟨heq, .inr htold⟩

/-- A wait for the queue ends well when there is something in it, and else when it is closed. -/
theorem Move.returns_queue (h : Move p l q) :
    (p.coordinator ≠ .popping → q.coordinator = .popping →
      p.coordinator = .checking ∧ p.queue.closed = false ∧ p.queue.line ≠ []) ∧
    (p.coordinator = .checking → q.coordinator = .stopped → p.queue.closed = true) := by
  constructor
  · intro hbefore hafter
    rcases h.coordinator with hstep | heq | ⟨heq, -⟩
    · rw [hafter] at hstep
      generalize p.coordinator = c at hstep
      cases hstep with
      | turn hturn hawake =>
        cases hturn with
        | find hopen hsome => exact ⟨rfl, hopen, hsome⟩
    · exact absurd (heq.symm.trans hafter) hbefore
    · rw [heq] at hafter
      cases hc : p.coordinator <;> simp [hc, Coordinator.notify] at hafter hbefore
  · intro hbefore hafter
    rcases h.coordinator with hstep | heq | ⟨heq, -⟩
    · rw [hbefore, hafter] at hstep
      cases hstep with
      | turn hturn hawake =>
        cases hturn with
        | leave hclosed => exact hclosed
    · rw [hbefore, hafter] at heq
      cases heq
    · rw [hbefore, hafter] at heq
      cases heq

/-- A worker joins the wait set by a check that finds the signal quiet and the time not over. -/
theorem Move.joins_signal (h : Move p l q) {i : Nat} (hwaits : q.AwaitsSignal i)
    (hbefore : ¬ p.AwaitsSignal i) :
    ∃ ids deadline, l = .work i ids ∧ p.workers[i]? = some (.watching deadline) ∧
      p.triggered = false ∧ p.now < deadline := by
  obtain ⟨deadline, hasleep⟩ := hwaits
  obtain ⟨w, es, hw, -, hcase⟩ := h.worker_of_after hasleep
  rcases hcase with hstep | ⟨-, -, heq | ⟨-, heq⟩⟩
  · generalize hv : Worker.asleep deadline = v at hstep
    cases hstep with
    | turn hturn hawake =>
      cases hturn with
      | sleep hquiet hearly =>
        cases hv
        exact ⟨_, _, rfl, hw, hquiet, hearly⟩
      | _ => cases hv
    | letGo w began => cases hfired : p.triggered <;> simp [hfired] at hv
    | _ => cases hv
  · exact absurd ⟨deadline, heq ▸ hw⟩ hbefore
  · have hnone := w.isAsleep_notify
    rw [← heq] at hnone
    cases hnone

/-- A worker leaves the wait set by itself, or for a signal that has fired. -/
theorem Move.leaves_signal (h : Move p l q) {i : Nat} (hwaits : p.AwaitsSignal i)
    (hafter : ¬ q.AwaitsSignal i) :
    (∃ deadline, q.workers[i]? = some (.watching deadline)) ∧
      (l = .rouseWorker i ∨ q.triggered = true) := by
  obtain ⟨deadline, hasleep⟩ := hwaits
  obtain ⟨w', es, hw', -, hstep | ⟨-, -, rfl | ⟨hfired, rfl⟩⟩⟩ := h.worker hasleep
  · cases hstep with
    | turn hturn hawake => exact absurd rfl (hawake deadline)
    | wake => exact ⟨⟨deadline, hw'⟩, .inl rfl⟩
    | call w began hat => rcases hat with hat | hat <;> cases hat
  · exact absurd ⟨deadline, hw'⟩ hafter
  · exact ⟨⟨deadline, hw'⟩, .inr hfired⟩

/-- Nobody in a pool waits for what is there, and who waits has looked before and will look
again. -/
structure Wakeful (p : Pool π ω) : Prop where
  /-- The coordinator does not wait while the queue holds something or is closed. -/
  queue : p.AwaitsQueue → p.queue.line = [] ∧ p.queue.closed = false
  /-- No worker waits for a signal that has fired. -/
  signal : ∀ i, p.AwaitsSignal i → p.triggered = false
  /-- The check that finds nothing and the beginning of the wait are one step. -/
  joinsQueue : ∀ l q, p.step l = some q → q.AwaitsQueue → ¬ p.AwaitsQueue →
    l = .coordinate ∧ p.coordinator = .checking ∧ p.queue.line = [] ∧ p.queue.closed = false
  /-- Who does not wake by itself is told, and checks the queue again. -/
  leavesQueue : ∀ l q, p.step l = some q → p.AwaitsQueue → ¬ q.AwaitsQueue →
    q.coordinator = .checking ∧ (l = .rouse ∨ q.queue.line ≠ [] ∨ q.queue.closed = true)
  /-- The coordinator goes on to pop a job if its last check found the queue open and not empty,
  and it leaves its loop there only if the queue was closed. -/
  returnsQueue : ∀ l q, p.step l = some q →
    (p.coordinator ≠ .popping → q.coordinator = .popping →
      p.coordinator = .checking ∧ p.queue.closed = false ∧ p.queue.line ≠ []) ∧
    (p.coordinator = .checking → q.coordinator = .stopped → p.queue.closed = true)
  joinsSignal : ∀ l q i, p.step l = some q → q.AwaitsSignal i → ¬ p.AwaitsSignal i →
    ∃ ids deadline, l = .work i ids ∧ p.workers[i]? = some (.watching deadline) ∧
      p.triggered = false ∧ p.now < deadline
  leavesSignal : ∀ l q i, p.step l = some q → p.AwaitsSignal i → ¬ q.AwaitsSignal i →
    (∃ deadline, q.workers[i]? = some (.watching deadline)) ∧
      (l = .rouseWorker i ∨ q.triggered = true)

/-- No notification is lost, however the steps of clients, coordinator and workers follow each
other. -/
theorem wakeful_of_run {c : Config} {operation : String} {ls : List (Label π ω)}
    (h : (Pool.start c operation).run? ls = some p) : Wakeful p where
  queue := invariant_run? (fun hp hmove => hp.move hmove) (attentive_start c operation) h
  signal i hwaits := by
    obtain ⟨deadline, hasleep⟩ := hwaits
    by_contra hfired
    have hawake := (steady_of_run h _ (List.mem_of_getElem? hasleep)).1 (by simpa using hfired)
    cases hawake
  joinsQueue _ _ hstep := (move_of_step hstep).joins_queue
  leavesQueue _ _ hstep := (move_of_step hstep).leaves_queue
  returnsQueue _ _ hstep := (move_of_step hstep).returns_queue
  joinsSignal _ _ _ hstep := (move_of_step hstep).joins_signal
  leavesSignal _ _ _ hstep := (move_of_step hstep).leaves_signal

/-- The coordinator sleeps, is told of a job, and finds that taken out. -/
def cancelBeforeLook : List (Label Unit Unit) :=
  [.coordinate, .submit ⟨1⟩ 0 0 1 (), .cancel ⟨1⟩, .coordinate]

theorem wakeful_cancelBeforeLook : ∃ p : Pool Unit Unit,
    (Pool.start { workers := 1 } "run").run? cancelBeforeLook = some p ∧ p.AwaitsQueue ∧
      Wakeful p := by
  refine ⟨_, rfl, rfl, ?_⟩
  have hrun : (Pool.start { workers := 1 } "run").run? cancelBeforeLook = some _ := rfl
  exact wakeful_of_run hrun

end Pool
end PacedJobs
