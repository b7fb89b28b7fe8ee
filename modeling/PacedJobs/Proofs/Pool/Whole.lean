import PacedJobs.Proofs.Pool.Waking
import PacedJobs.Proofs.Pool.Workers

/-!
# Pools that nobody has closed

Until the signal fires a pool stays whole, if the ends of its time slices can be represented: the
queue is open, the coordinator and all workers go on, and no job has been lost.
-/

namespace PacedJobs

variable {π ω : Type}

/-- Whether jobs leave unexecuted with the event, other than by a cancellation. -/
def Event.isLoss : Event π ω → Bool
  | refused _ | closed _ | abandoned _ => true
  | _ => false

theorem Coordinator.notify_ne_stopped {c : Coordinator π} (h : c ≠ .stopped) :
    c.notify ≠ .stopped := by
  cases c <;> simp_all [notify]

namespace Pool

structure Whole (p : Pool π ω) : Prop where
  opened : p.queue.closed = false
  calls : .shutting ∉ p.calls
  coordinator : p.coordinator ≠ .stopped
  workers : ∀ w ∈ p.workers, w.hasEnded = false
  losses : ∀ e ∈ p.history, e.isLoss = false

variable {p q : Pool π ω} {l : Label π ω}

namespace Whole

theorem not_all_hasEnded (h : Whole p) (hsome : p.workers ≠ []) :
    p.workers.all Worker.hasEnded ≠ true := by
  intro hended
  obtain ⟨w, hw⟩ := List.exists_mem_of_ne_nil _ hsome
  have hgone := List.all_eq_true.mp hended w hw
  rw [h.workers w hw] at hgone
  cases hgone

theorem opened_of_move (h : Whole p) (hmove : Move p l q) : q.queue.closed = false := by
  have hopened := h.opened
  cases hmove with
  | accept w hw hopen => simp [record, addCall, hopened]
  | cancel j queue hdelete => exact (Queue.closed_of_delete hdelete).trans hopened
  | sweepPanic queue hsweep => exact (Queue.closed_of_deleteWhere hsweep).trans hopened
  | sweep js queue hsweep => exact (Queue.closed_of_deleteWhere hsweep).trans hopened
  | reserve hcall hids => exact (p.closed_reserve _).trans hopened
  | prepare hat hmode hmore hids => exact (p.closed_reserve _).trans hopened
  | shut hcall => exact absurd (List.mem_of_getElem? hcall) h.calls
  | _ => exact hopened

theorem calls_of_move (h : Whole p) (hmove : Move p l q) (hquiet : q.triggered = false) :
    .shutting ∉ q.calls := by
  intro hmem
  refine h.calls ?_
  have hreturned : ∀ {calls : List Call} {k : Nat},
      .shutting ∈ calls.set k .returned → .shutting ∈ calls :=
    fun hset => (List.mem_or_eq_of_mem_set hset).resolve_right (by simp)
  cases hmove with
  | refuse w hw hclosed => exact (List.mem_append.mp hmem).resolve_right (by simp)
  | accept w hw hopen =>
    refine (List.mem_append.mp hmem).resolve_right ?_
    split <;> simp
  | close =>
    refine (List.mem_append.mp hmem).resolve_right ?_
    split <;> simp
  | reserve hcall hids => exact p.calls_reserve _ ▸ hreturned hmem
  | trigger hcall => cases hquiet
  | shut hcall => exact hreturned hmem
  | prepare hat hmode hmore hids => exact p.calls_reserve _ ▸ hmem
  | _ => exact hmem

/-- No turn ends a worker of a whole pool, but for a pause beyond the largest instant. -/
theorem worker_turn (h : Whole p) (hsteady : Steady p) (hquiet : p.triggered = false)
    (htime : p.now + p.timeSlice < endOfTime) {i : Nat} {w w' : Worker π ω}
    (hat : p.workers[i]? = some w) (hturn : Worker.Turn p w w') : w'.hasEnded = false := by
  cases hturn with
  | leave hfired => simp [hquiet] at hfired
  | hangUp hgone => exact absurd hgone h.coordinator
  | @crash timeout hdeadline =>
    have htimeout : timeout ≤ p.timeSlice := (hsteady _ (List.mem_of_getElem? hat)).2
    rw [deadline?, if_pos (by omega)] at hdeadline
    cases hdeadline
  | stop deadline hfired => simp [hquiet] at hfired
  | _ => rfl

theorem hasEnded_of_move (h : Whole p) (hsteady : Steady p) (hquiet : p.triggered = false)
    (htime : p.now + p.timeSlice < endOfTime) (hmove : Move p l q) {i : Nat} {w' : Worker π ω}
    (hw' : q.workers[i]? = some w') : w'.hasEnded = false := by
  obtain ⟨w, es, hw, -, hcase⟩ := hmove.worker_of_after hw'
  have hgoing := h.workers w (List.mem_of_getElem? hw)
  rcases hcase with hstep | ⟨-, -, rfl | ⟨-, rfl⟩⟩
  · cases hstep with
    | turn hturn hawake => exact h.worker_turn hsteady hquiet htime hw hturn
    | giveUp j hfired => simp [hquiet] at hfired
    | letGo w began => simp [hquiet, Worker.hasEnded]
    | _ => rfl
  · exact hgoing
  · cases w with
    | stopped => cases hgoing
    | crashed => cases hgoing
    | _ => rfl

theorem coordinator_of_move (h : Whole p) (hsome : p.workers ≠ []) (hmove : Move p l q) :
    q.coordinator ≠ .stopped := by
  have hopen := h.opened
  rcases hmove.coordinator with hstep | heq | ⟨heq, -⟩
  · intro hstopped
    rw [hstopped] at hstep
    generalize p.coordinator = c at hstep
    cases hstep with
    | turn hturn hawake =>
      cases hturn with
      | leave hclosed => simp [hopen] at hclosed
    | giveUp j hclosed => simp [hopen] at hclosed
    | fail j hended => exact h.not_all_hasEnded hsome hended
  · exact heq ▸ h.coordinator
  · exact heq ▸ Coordinator.notify_ne_stopped h.coordinator

theorem losses_of_move (h : Whole p) (hsome : p.workers ≠ []) (hquiet : p.triggered = false)
    (hmove : Move p l q) : ∀ e ∈ q.history, e.isLoss = false := by
  have hnote : ∀ e : Event π ω, e.isLoss = false → ∀ e' ∈ e :: p.history, e'.isLoss = false := by
    intro e he e' he'
    rcases List.mem_cons.mp he' with rfl | he'
    · exact he
    · exact h.losses e' he'
  have hreserve : ∀ ids, ∀ e ∈ (p.reserve ids).history, e.isLoss = false := by
    intro ids
    rcases p.reserve_cases ids with heq | ⟨-, heq⟩
    · rw [heq]
      exact h.losses
    · rw [heq]
      exact hnote (.reserved ids) rfl
  cases hmove with
  | refuse w hw hclosed => simp [h.opened] at hclosed
  | shut hcall => exact absurd (List.mem_of_getElem? hcall) h.calls
  | abandon hat =>
    rcases hat with ⟨-, hclosed⟩ | ⟨-, hended⟩
    · simp [h.opened] at hclosed
    · exact absurd hended (h.not_all_hasEnded hsome)
  | giveUp hat hfired => simp [hquiet] at hfired
  | reserve hcall hids => exact hreserve _
  | prepare hat hmode hmore hids => exact hreserve _
  | accept w hw hopen => exact hnote _ rfl
  | cancel j queue hdelete => exact hnote _ rfl
  | sweep js queue hsweep => exact hnote _ rfl
  | trigger hcall => exact hnote _ rfl
  | pop hat hline => exact hnote _ rfl
  | begin hat => exact hnote _ rfl
  | call hat => exact hnote _ rfl
  | write t hat ht hkept hfree => exact hnote _ rfl
  | handOver hat hi => exact hnote _ rfl
  | answer r hat => exact hnote _ rfl
  | _ => exact h.losses

theorem move (h : Whole p) (hsteady : Steady p) (hsome : p.workers ≠ [])
    (htime : p.now + p.timeSlice < endOfTime) (hmove : Move p l q) (hquiet : q.triggered = false) :
    Whole q := by
  have hquiet' : p.triggered = false := by
    by_contra hfired
    rw [hmove.triggered_of_triggered (by simpa using hfired)] at hquiet
    cases hquiet
  refine ⟨h.opened_of_move hmove, h.calls_of_move hmove hquiet, h.coordinator_of_move hsome hmove,
    ?_, h.losses_of_move hsome hquiet' hmove⟩
  intro w hw
  obtain ⟨i, hi⟩ := List.getElem?_of_mem hw
  exact h.hasEnded_of_move hsteady hquiet' htime hmove hi

theorem start (c : Config) (operation : String) :
    Whole (Pool.start c operation : Pool π ω) where
  opened := rfl
  calls := by simp [Pool.start]
  coordinator := by simp [Pool.start]
  workers w hw := by
    rw [List.eq_of_mem_replicate hw]
    rfl
  losses := by simp [Pool.start]

end Whole

theorem Move.called_mem (h : Move p l q) {i : Nat} {w : Work π}
    (hmem : .called i w ∈ q.history) : .called i w ∈ p.history ∨ i < p.workers.length := by
  obtain ⟨es, hes, hengaged⟩ := h.called
  rw [hes, List.mem_append] at hmem
  rcases hmem with hmem | hmem
  · obtain ⟨v, hat, -⟩ := hengaged i w hmem
    exact .inr (List.getElem?_eq_some_iff.mp hat).1
  · exact .inl hmem

theorem called_lt_of_run {c : Config} {operation : String} {ls : List (Label π ω)}
    (h : (Pool.start c operation).run? ls = some p) {i : Nat} {w : Work π}
    (hcalled : .called i w ∈ p.history) : i < max c.workers 1 := by
  rw [← length_workers_of_run h]
  refine invariant_run? (I := fun p => ∀ i w, .called i w ∈ p.history → i < p.workers.length) ?_
    (by simp [Pool.start]) h i w hcalled
  intro p l q hp hmove i w hmem
  rw [hmove.length_workers]
  exact (hmove.called_mem hmem).elim (hp i w) id

theorem whole_of_run {c : Config} {operation : String} {ls : List (Label π ω)}
    (h : (Pool.start c operation).run? ls = some p) (hquiet : p.triggered = false)
    (htime : p.now + c.timeSlice < endOfTime) : Whole p := by
  let I (p : Pool π ω) : Prop := Steady p ∧ p.timeSlice = c.timeSlice ∧ p.workers ≠ [] ∧
    (p.triggered = false → p.now + c.timeSlice < endOfTime → Whole p)
  have hI : I p := by
    refine invariant_run? (I := I) ?_ ?_ h
    · intro p l q hp hmove
      obtain ⟨hsteady, hslice, hsome, hwhole⟩ := hp
      refine ⟨hsteady.move hmove, hmove.timeSlice_eq.trans hslice, ?_, ?_⟩
      · intro hnil
        have hlength := hmove.length_workers
        rw [hnil] at hlength
        exact hsome (List.length_eq_zero_iff.mp hlength.symm)
      · intro hquiet htime
        have hnow := hmove.now_le
        have hbefore : p.triggered = false := by
          by_contra hfired
          rw [hmove.triggered_of_triggered (by simpa using hfired)] at hquiet
          cases hquiet
        exact (hwhole hbefore (by omega)).move hsteady hsome (by omega) hmove hquiet
    · refine ⟨steady_start c operation, rfl, ?_, fun _ _ => .start c operation⟩
      simp [Pool.start]
  exact hI.2.2.2 hquiet htime

/-- The queue is open and everybody is at work, and nobody leaves before the signal has fired. -/
structure Unbroken (c : Config) (p : Pool π ω) : Prop where
  opened : p.triggered = false → p.queue.closed = false
  coordinator : p.triggered = false → p.coordinator ≠ .stopped
  count : p.workers.length = max c.workers 1
  workers : p.triggered = false → ∀ w ∈ p.workers, w ≠ .stopped ∧ w ≠ .crashed
  /-- The coordinator leaves its loop after the signal has fired only. -/
  coordinatorLeaves : ∀ l q, p.step l = some q → p.coordinator ≠ .stopped →
    q.coordinator = .stopped → p.triggered = true
  /-- So does a worker, whether it has found nothing to receive, could not deliver a result, or was
  told of the signal in its pause. -/
  workerLeaves : ∀ l q (i : Nat) (w w' : Worker π ω), p.step l = some q → p.workers[i]? = some w →
    q.workers[i]? = some w' → w.hasEnded = false → w'.hasEnded = true → p.triggered = true

/-- A pool is unbroken until the signal fires, whatever its clients do, if the ends of its time
slices can be represented. -/
theorem unbroken_of_run {c : Config} {operation : String} {ls : List (Label π ω)}
    (h : (Pool.start c operation).run? ls = some p) (htime : p.now + c.timeSlice < endOfTime) :
    Unbroken c p := by
  have hsteady : Steady p := steady_of_run h
  have hslice := timeSlice_of_run h
  have hcount := length_workers_of_run h
  have hsome : p.workers ≠ [] := by
    intro hnil
    simp only [hnil, List.length_nil] at hcount
    omega
  have hwhole (hquiet : p.triggered = false) : Whole p := whole_of_run h hquiet htime
  constructor
  · exact fun hquiet => (hwhole hquiet).opened
  · exact fun hquiet => (hwhole hquiet).coordinator
  · exact hcount
  · intro hquiet w hw
    have hgoing := (hwhole hquiet).workers w hw
    constructor <;> rintro rfl <;> cases hgoing
  · intro l q hstep _ hstopped
    by_contra hquiet
    have hquiet : p.triggered = false := by simpa using hquiet
    exact (hwhole hquiet).coordinator_of_move hsome (move_of_step hstep) hstopped
  · intro l q i w w' hstep _ hw' _ hended
    by_contra hquiet
    have hquiet : p.triggered = false := by simpa using hquiet
    have hgoing := (hwhole hquiet).hasEnded_of_move hsteady hquiet (hslice ▸ htime)
      (move_of_step hstep) hw'
    rw [hgoing] at hended
    cases hended

/-- The ticket of a job is given up before its result arrives, and the worker goes on. -/
def forgetWhileExecuting : List (Label Unit Unit) :=
  [.submit ⟨1⟩ 0 0 1 (), .coordinate, .coordinate, .coordinate, .work 0 [], .work 0 [],
    .handOver 0, .work 0 [], .work 0 [], .work 0 [], .forget 0, .answer 0 (.ok ()), .work 0 [],
    .work 0 [], .work 0 [], .work 0 [], .work 0 [], .rouseWorker 0]

theorem unbroken_forgetWhileExecuting : ∃ p : Pool Unit Unit,
    (Pool.start { workers := 1 } "run").run? forgetWhileExecuting = some p ∧
      p.triggered = false ∧ p.now + nanosecondsPerSecond < endOfTime ∧
        Unbroken { workers := 1 } p := by
  refine ⟨_, rfl, rfl, by decide, ?_⟩
  have hrun : (Pool.start { workers := 1 } "run").run? forgetWhileExecuting = some _ := rfl
  exact unbroken_of_run hrun (by decide)

end Pool
end PacedJobs
