import PacedJobs.Proofs.Pool.Custody

/-!
# Who sleeps, and who crashes

Nobody sleeps through the end of a pool: the coordinator is awake when the queue is closed, and all
workers are when the signal has fired. A worker crashes only when the end of its time slice lies
beyond the largest instant.
-/

namespace PacedJobs

variable {π ω : Type}

def Worker.isAsleep : Worker π ω → Bool
  | asleep _ => true
  | _ => false

@[simp] theorem Worker.isAsleep_notify (w : Worker π ω) : w.notify.isAsleep = false := by
  cases w <;> rfl

@[simp] theorem Coordinator.notify_ne_asleep (c : Coordinator π) : c.notify ≠ .asleep := by
  cases c <;> simp [notify]

/-- A pause is no longer than a time slice, and a crash comes at the end of time. -/
def Worker.OnTime (timeSlice now : Nat) : Worker π ω → Prop
  | pausing timeout => timeout ≤ timeSlice
  | crashed => endOfTime ≤ now + timeSlice
  | _ => True

theorem Worker.OnTime.mono {timeSlice timeSlice' now now' : Nat} {w : Worker π ω}
    (h : w.OnTime timeSlice now) (htime : timeSlice' = timeSlice) (hnow : now ≤ now') :
    w.OnTime timeSlice' now' := by
  subst htime
  cases w with
  | pausing timeout => exact h
  | crashed => exact Nat.le_trans h (Nat.add_le_add_right hnow _)
  | _ => trivial

namespace Pool

/-- Nothing is left in a closed queue, and the coordinator does not sleep on it. -/
def Drained (p : Pool π ω) : Prop :=
  p.queue.closed = true → p.queue.line = [] ∧ p.coordinator ≠ .asleep

/-- No worker sleeps when the signal has fired, and all are on time. -/
def Steady (p : Pool π ω) : Prop :=
  ∀ w ∈ p.workers, (p.triggered = true → w.isAsleep = false) ∧ w.OnTime p.timeSlice p.now

variable {p q : Pool π ω} {l : Label π ω}

theorem Move.timeSlice_eq (h : Move p l q) : q.timeSlice = p.timeSlice := by
  cases h with
  | reserve hcall hids => exact p.timeSlice_reserve _
  | prepare hat hmode hmore hids => exact p.timeSlice_reserve _
  | _ => rfl

theorem Move.now_le (h : Move p l q) : p.now ≤ q.now := by
  cases h with
  | reserve hcall hids => exact (p.now_reserve _).ge
  | prepare hat hmode hmore hids => exact (p.now_reserve _).ge
  | elapse time => exact Nat.le_add_right _ _
  | _ => exact Nat.le_refl _

theorem Move.closed_of_closed (h : Move p l q) (hclosed : p.queue.closed = true) :
    q.queue.closed = true := by
  cases h with
  | accept w hw hopen => simp [hopen] at hclosed
  | cancel j queue hdelete => exact (Queue.closed_of_delete hdelete).trans hclosed
  | sweepPanic queue hsweep => exact (Queue.closed_of_deleteWhere hsweep).trans hclosed
  | sweep js queue hsweep => exact (Queue.closed_of_deleteWhere hsweep).trans hclosed
  | shut hcall => rfl
  | reserve hcall hids => exact (p.closed_reserve _).trans hclosed
  | prepare hat hmode hmore hids => exact (p.closed_reserve _).trans hclosed
  | _ => exact hclosed

theorem Move.triggered_of_triggered (h : Move p l q) (hfired : p.triggered = true) :
    q.triggered = true := by
  cases h with
  | trigger hcall => rfl
  | reserve hcall hids => exact (p.triggered_reserve _).trans hfired
  | prepare hat hmode hmore hids => exact (p.triggered_reserve _).trans hfired
  | _ => exact hfired

theorem Drained.reserve (h : Drained p) (ids : List JobId) : Drained (p.reserve ids) := by
  rcases p.reserve_cases ids with heq | ⟨hopen, heq⟩
  · rwa [heq]
  · intro hclosed
    rw [closed_reserve, hopen] at hclosed
    cases hclosed

theorem Drained.move (h : Drained p) (hmove : Move p l q) : Drained q := by
  cases hmove with
  | accept w hw hopen =>
    intro hclosed
    simp [record, addCall, hopen] at hclosed
  | cancel j queue hdelete =>
    intro hclosed
    have hnil := (h ((Queue.closed_of_delete hdelete).symm.trans hclosed)).1
    have hperm := Queue.line_perm_of_delete hdelete
    simp [hnil] at hperm
  | sweepPanic queue hsweep =>
    intro hclosed
    obtain ⟨hnil, hawake⟩ := h ((Queue.closed_of_deleteWhere hsweep).symm.trans hclosed)
    have hperm := Queue.line_perm_of_deleteWhere_panic hsweep
    rw [hnil, List.perm_nil] at hperm
    exact ⟨hperm, hawake⟩
  | sweep js queue hsweep =>
    intro hclosed
    obtain ⟨hnil, hawake⟩ := h ((Queue.closed_of_deleteWhere hsweep).symm.trans hclosed)
    have hperm := Queue.line_perm_of_deleteWhere hsweep
    rw [hnil, List.nil_perm, List.append_eq_nil_iff] at hperm
    exact ⟨hperm.2, hawake⟩
  | reserve hcall hids => exact h.reserve _
  | prepare hat hmode hmore hids => exact h.reserve _
  | shut hcall =>
    intro hclosed
    exact ⟨rfl, p.coordinator.notify_ne_asleep⟩
  | @coordinate c hturn hawake =>
    intro hclosed
    refine ⟨(h hclosed).1, ?_⟩
    rintro rfl
    have hopen : p.queue.closed = false := by
      generalize p.coordinator = c at hturn
      cases hturn
      assumption
    rw [hopen] at hclosed
    cases hclosed
  | pop hat hline =>
    intro hclosed
    rw [(h hclosed).1] at hline
    cases hline
  | abandon hat =>
    intro hclosed
    exact ⟨(h hclosed).1, by simp [record, drop]⟩
  | rouse hat =>
    intro hclosed
    exact absurd hat (h hclosed).2
  | handOver hat hi =>
    intro hclosed
    exact ⟨(h hclosed).1, by simp [record, setWorker]⟩
  | _ => exact h

namespace Steady

theorem frame (h : Steady p) (hworkers : q.workers = p.workers) (hfired : q.triggered = p.triggered)
    (htime : q.timeSlice = p.timeSlice) (hnow : p.now ≤ q.now) : Steady q := by
  intro w hw
  rw [hworkers] at hw
  rw [hfired]
  exact ⟨(h w hw).1, (h w hw).2.mono htime hnow⟩

theorem exchange (h : Steady p) (i : Nat) (v : Worker π ω)
    (hworkers : q.workers = p.workers.set i v) (hfired : q.triggered = p.triggered)
    (htime : q.timeSlice = p.timeSlice) (hnow : q.now = p.now)
    (hawake : p.triggered = true → v.isAsleep = false) (hv : v.OnTime p.timeSlice p.now) :
    Steady q := by
  intro w hw
  rw [hworkers] at hw
  rw [hfired, htime, hnow]
  rcases List.mem_or_eq_of_mem_set hw with hw | rfl
  · exact h w hw
  · exact ⟨hawake, hv⟩

/-- A pause begins with a time slice at most, and only a pause can end in a crash. -/
theorem turn (h : Steady p) {i : Nat} {w w' : Worker π ω} (hat : p.workers[i]? = some w)
    (hturn : Worker.Turn p w w') : Steady (p.setWorker i w') := by
  have hw := h w (List.mem_of_getElem? hat)
  refine h.exchange i w' rfl rfl rfl rfl ?_ ?_
  · intro hfired
    cases hturn with
    | sleep hquiet hearly =>
      rw [hquiet] at hfired
      cases hfired
    | _ => rfl
  · cases hturn with
    | measure began => exact Nat.sub_le _ _
    | @crash timeout hdeadline =>
      have htimeout : timeout ≤ p.timeSlice := hw.2
      unfold deadline? at hdeadline
      split at hdeadline
      next => cases hdeadline
      next hlate =>
        show endOfTime ≤ p.now + p.timeSlice
        omega
    | _ => trivial

theorem trigger (h : Steady p) : Steady p.trigger := by
  intro w hw
  obtain ⟨v, hv, rfl⟩ := List.mem_map.mp hw
  refine ⟨fun _ => v.isAsleep_notify, ?_⟩
  have htime := (h v hv).2
  cases v with
  | pausing timeout => exact htime
  | crashed => exact htime
  | _ => trivial

theorem move (h : Steady p) (hmove : Move p l q) : Steady q := by
  cases hmove with
  | trigger hcall => exact h.trigger
  | work hat hturn hawake => exact h.turn hat hturn
  | @prepare i ids w began hat hmode hmore hids =>
    exact h.exchange i (.ready w began) (by simp [setWorker]) (p.triggered_reserve ids)
      (p.timeSlice_reserve ids) (p.now_reserve ids) (fun _ => rfl) trivial
  | reserve hcall hids =>
    exact h.frame (p.workers_reserve _) (p.triggered_reserve _) (p.timeSlice_reserve _)
      (p.now_reserve _).ge
  | giveUp hat hfired => exact h.exchange _ _ rfl rfl rfl rfl (fun _ => rfl) trivial
  | begin hat => exact h.exchange _ _ rfl rfl rfl rfl (fun _ => rfl) trivial
  | call hat => exact h.exchange _ _ rfl rfl rfl rfl (fun _ => rfl) trivial
  | write t hat ht hkept hfree => exact h.exchange _ _ rfl rfl rfl rfl (fun _ => rfl) trivial
  | miss hat hmiss => exact h.exchange _ _ rfl rfl rfl rfl (fun _ => rfl) trivial
  | @finish i ids w began w' hat =>
    refine h.exchange i w' rfl rfl rfl rfl ?_ ?_
    all_goals
      rcases hat with ⟨-, rfl⟩ | ⟨-, rfl⟩
      · simp [Worker.isAsleep, Worker.OnTime]
      · cases p.triggered <;> simp [Worker.isAsleep, Worker.OnTime]
  | handOver hat hi => exact h.exchange _ _ rfl rfl rfl rfl (fun _ => rfl) trivial
  | answer r hat => exact h.exchange _ _ rfl rfl rfl rfl (fun _ => rfl) trivial
  | rouseWorker hat => exact h.exchange _ _ rfl rfl rfl rfl (fun _ => rfl) trivial
  | elapse time => exact h.frame rfl rfl rfl (Nat.le_add_right _ _)
  | _ => exact h

end Steady

theorem drained_start (c : Config) (operation : String) :
    Drained (Pool.start c operation : Pool π ω) := by
  intro hclosed
  cases hclosed

theorem steady_start (c : Config) (operation : String) :
    Steady (Pool.start c operation : Pool π ω) := by
  intro w hw
  rw [List.eq_of_mem_replicate hw]
  exact ⟨fun _ => rfl, trivial⟩

variable {c : Config} {operation : String} {ls : List (Label π ω)}

theorem drained_of_run (h : (Pool.start c operation).run? ls = some p) : Drained p :=
  invariant_run? (fun hp hmove => hp.move hmove) (drained_start c operation) h

theorem steady_of_run (h : (Pool.start c operation).run? ls = some p) : Steady p :=
  invariant_run? (fun hp hmove => hp.move hmove) (steady_start c operation) h

theorem timeSlice_of_run (h : (Pool.start c operation).run? ls = some p) :
    p.timeSlice = c.timeSlice :=
  invariant_run? (I := fun p => p.timeSlice = c.timeSlice)
    (fun hp hmove => hmove.timeSlice_eq.trans hp) rfl h

end Pool
end PacedJobs
