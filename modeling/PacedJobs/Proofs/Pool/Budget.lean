import PacedJobs.Proofs.Pool.Pace
import PacedJobs.Proofs.Pool.Reservations

/-!
# How many cycles are left

A cycle begins with a job that was pending and then held. Work of several tasks brings placeholders
for the others, so it is worth as many cycles as it has tasks until these are reserved. Once no more
work comes in, all that a pool has is worth one cycle less with every cycle that begins, and nothing
makes it worth more.
-/

namespace PacedJobs

variable {π ω : Type}

/-- The slices that a worker reserves when it executes a job. -/
def Job.share (mode : Reservation) (j : Job π) : Nat :=
  if mode = .onExecute then j.taskCount.toNat - 1 else 0

@[simp] theorem Job.share_placeholder (mode : Reservation) (id : JobId) :
    (placeholder id : Job π).share mode = 0 := by
  cases mode <;> rfl

def Label.submits : Label π ω → Bool
  | submit .. => true
  | _ => false

def Call.owed : Call → Nat
  | reserving count => count
  | _ => 0

/-- A job in line or in hand is worth its own cycle, too. -/
def Job.worth (mode : Reservation) (j : Job π) : Nat :=
  1 + j.share mode

theorem weigh_worth (mode : Reservation) (js : List (Job π)) :
    weigh (Job.worth mode) js = js.length + weigh (Job.share mode) js := by
  induction js with
  | nil => rfl
  | cons j js ih =>
    simp only [weigh_cons, List.length_cons, ih, Job.worth]
    omega

theorem weigh_worth_placeholders (mode : Reservation) (ids : List JobId) :
    weigh (Job.worth mode) (ids.map .placeholder : List (Job π)) = ids.length := by
  induction ids with
  | nil => rfl
  | cons id ids ih =>
    simp only [List.map_cons, weigh_cons, List.length_cons, ih, Job.worth, Job.share_placeholder]
    omega

namespace Worker

/-- The job of a cycle that has begun, for which slices may still be reserved. -/
def opening : Worker π ω → List (Job π)
  | processing j _ => [j]
  | _ => []

def worth (mode : Reservation) (v : Worker π ω) : Nat :=
  weigh (Job.worth mode) v.fresh + weigh (Job.share mode) v.opening

theorem worth_notify (mode : Reservation) (v : Worker π ω) :
    v.notify.worth mode = v.worth mode := by
  cases v <;> rfl

theorem Turn.worth_eq {p : Pool π ω} {v v' : Worker π ω} (h : Turn p v v') (mode : Reservation) :
    v'.worth mode = v.worth mode := by
  cases h with
  | spend id began => simp [worth, fresh, opening]
  | _ => rfl

end Worker

namespace Pool

/-- The jobs that cycles may begin with. -/
def awaiting (p : Pool π ω) : List (Job π) :=
  p.queue.line ++ p.coordinator.hand ++ p.workers.flatMap Worker.fresh

/-- The jobs for which no worker has reserved slices yet. -/
def unreserved (p : Pool π ω) : List (Job π) :=
  p.awaiting ++ p.workers.flatMap Worker.opening

/-- The number of cycles that may still begin if no more work comes in. -/
def budget (p : Pool π ω) : Nat :=
  p.awaiting.length + weigh (Job.share p.reservation) p.unreserved + weigh Call.owed p.calls

variable {p q : Pool π ω} {l : Label π ω} {ls : List (Label π ω)}

theorem budget_eq (p : Pool π ω) :
    p.budget = weigh (Job.worth p.reservation) p.queue.line +
      weigh (Job.worth p.reservation) p.coordinator.hand +
        weigh (Worker.worth p.reservation) p.workers + weigh Call.owed p.calls := by
  have hworkers : weigh (Worker.worth p.reservation) p.workers =
      weigh (Job.worth p.reservation) (p.workers.flatMap Worker.fresh) +
        weigh (Job.share p.reservation) (p.workers.flatMap Worker.opening) := by
    rw [weigh_flatMap, weigh_flatMap]
    induction p.workers with
    | nil => rfl
    | cons v vs ih =>
      simp only [weigh_cons, ih, Worker.worth]
      omega
  rw [hworkers, weigh_worth, weigh_worth, weigh_worth, budget, unreserved, awaiting]
  simp only [weigh_append, List.length_append]
  omega

/-- The cycles that have begun and those that may still begin. -/
def account (p : Pool π ω) : Nat :=
  p.cycles.length + p.budget

theorem account_setWorker {i : Nat} {v : Worker π ω} (hat : p.workers[i]? = some v)
    (v' : Worker π ω) : (p.setWorker i v').account + v.worth p.reservation =
      p.account + v'.worth p.reservation := by
  have hworkers := weigh_set (f := Worker.worth p.reservation) hat v'
  simp only [account, budget_eq, cycles, setWorker]
  omega

/-- A worker moves, and the events say how many cycles have begun. -/
theorem account_exchange {i : Nat} {v v' : Worker π ω} (hat : p.workers[i]? = some v)
    (es : List (Event π ω))
    (h : v'.worth p.reservation + (es.filterMap Event.cycle?).length ≤ v.worth p.reservation) :
    ({ p.setWorker i v' with history := es ++ p.history }).account ≤ p.account := by
  have hset := account_setWorker hat v'
  have hcycles : ({ p.setWorker i v' with history := es ++ p.history }).account =
      (p.setWorker i v').account + (es.filterMap Event.cycle?).length := by
    simp only [account, budget_eq, cycles, setWorker, List.length_reverse, List.filterMap_append,
      List.length_append]
    omega
  omega

theorem account_record (queue : Queue π) (c : Coordinator π) (calls : List Call) (e : Event π ω)
    (he : e.cycle? = none)
    (h : weigh (Job.worth p.reservation) queue.line + weigh (Job.worth p.reservation) c.hand +
        weigh Call.owed calls ≤ weigh (Job.worth p.reservation) p.queue.line +
          weigh (Job.worth p.reservation) p.coordinator.hand + weigh Call.owed p.calls) :
    ({ p with queue := queue, coordinator := c, calls := calls }.record e).account ≤ p.account := by
  simp only [account, budget_eq, cycles, record, List.filterMap_cons, he]
  omega

theorem account_reserve {count : Nat} {ids : List JobId} (h : p.canReserve count ids = true) :
    (p.reserve ids).account ≤ p.account + count := by
  rcases p.reserve_cases ids with heq | ⟨hopen, heq⟩
  · rw [heq]
    omega
  · have hids : ids.length = count := by simpa [canReserve, hopen] using h
    have hline := weigh_perm (f := Job.worth p.reservation)
      (p.queue.line_insertPlaceholders_perm ids)
    rw [weigh_append, weigh_worth_placeholders] at hline
    rw [heq]
    simp only [account, budget_eq, cycles, record, List.filterMap_cons, Event.cycle?,
      Coordinator.hand_notify]
    omega

theorem account_setCall {k : Nat} {c : Call} (hat : p.calls[k]? = some c) (c' : Call) :
    (p.setCall k c').account + c.owed = p.account + c'.owed := by
  have hcalls := weigh_set (f := Call.owed) hat c'
  simp only [account, budget_eq, cycles, setCall] at *
  omega

theorem account_addCall (p : Pool π ω) (c : Call) : (p.addCall c).account = p.account + c.owed := by
  simp only [account, budget_eq, cycles, addCall, weigh_append, weigh_cons, weigh_nil]
  omega

theorem account_trigger (p : Pool π ω) : p.trigger.account = p.account := by
  have hworkers : weigh (Worker.worth p.reservation) (p.workers.map Worker.notify) =
      weigh (Worker.worth p.reservation) p.workers := by
    unfold weigh
    rw [List.map_map]
    exact congrArg List.sum (List.map_congr_left fun v _ => v.worth_notify p.reservation)
  simp only [account, budget_eq, cycles, trigger, record, List.filterMap_cons, Event.cycle?,
    hworkers]

theorem Move.account_le (h : Move p l q) (hl : l.submits = false) : q.account ≤ p.account := by
  cases h with
  | refuse w hw hclosed => cases hl
  | accept w hw hopen => cases hl
  | cancelMiss hmiss => exact Nat.le_refl _
  | cancel j queue hdelete =>
    have hline := weigh_perm (f := Job.worth p.reservation) (Queue.line_perm_of_delete hdelete)
    rw [weigh_cons] at hline
    exact p.account_record queue p.coordinator p.calls (.cancelled [j]) rfl (by omega)
  | sweepPanic queue hsweep =>
    have hline := weigh_perm (f := Job.worth p.reservation)
      (Queue.line_perm_of_deleteWhere_panic hsweep)
    simp only [account, budget_eq, cycles, hline]
    omega
  | sweep js queue hsweep =>
    have hline := weigh_perm (f := Job.worth p.reservation)
      (Queue.line_perm_of_deleteWhere hsweep)
    rw [weigh_append] at hline
    exact p.account_record queue p.coordinator p.calls (.cancelled js) rfl (by omega)
  | close =>
    rw [account_addCall]
    cases p.triggered <;> exact Nat.le_refl _
  | @reserve k ids count hcall hids =>
    have hreserve := account_reserve hids
    have hcall' : (p.reserve ids).calls[k]? = some (.reserving count) := by simpa using hcall
    have hset := account_setCall hcall' .returned
    simp only [Call.owed] at hset
    omega
  | trigger hcall =>
    have hset := account_setCall (p := p.trigger) hcall .shutting
    rw [account_trigger] at hset
    simp only [Call.owed] at hset
    omega
  | shut hcall =>
    have hset := account_setCall (p := p.shut) hcall .returned
    have hshut : p.shut.account ≤ p.account := by
      refine p.account_record p.queue.close.2 p.coordinator.notify p.calls (.closed _) rfl ?_
      simp only [Queue.close, weigh_nil, Coordinator.hand_notify]
      omega
    simp only [Call.owed] at hset
    omega
  | coordinate hturn hawake =>
    simp only [account, budget_eq, cycles, hturn.hand_eq]
    exact Nat.le_refl _
  | @pop j js hat hline =>
    refine p.account_record _ _ p.calls (.popped j) rfl ?_
    simp only [hline, hat, Coordinator.hand, weigh_cons, weigh_nil]
    omega
  | @abandon j hat =>
    refine p.account_record p.queue .stopped p.calls (.abandoned j) rfl ?_
    simp only [Coordinator.hand, weigh_nil]
    omega
  | rouse hat =>
    simp only [account, budget_eq, cycles, hat, Coordinator.hand]
    exact Nat.le_refl _
  | work hat hturn hawake =>
    exact account_exchange hat [] (hturn.worth_eq p.reservation).le
  | @giveUp i ids j hat hfired => exact account_exchange hat [.abandoned j] (Nat.zero_le _)
  | @begin i ids j hat =>
    refine account_exchange hat [.began i j p.now] ?_
    simp only [Worker.worth, Worker.fresh, Worker.opening, Job.worth, List.filterMap_cons,
      Event.cycle?, List.filterMap_nil, List.length_singleton, weigh_cons, weigh_nil]
    omega
  | @prepare i ids w began hat hmode hmore hids =>
    have hreserve := account_reserve hids
    have hset := account_setWorker (p := p.reserve ids) (by simpa using hat) (.ready w began)
    have hworth : (Worker.processing (.work w) began : Worker π ω).worth .onExecute =
        w.reserved := by
      simp [Worker.worth, Worker.fresh, Worker.opening, Job.share, Job.taskCount, Work.reserved]
    rw [reservation_reserve, hmode, hworth] at hset
    have hready : (Worker.ready w began : Worker π ω).worth .onExecute = 0 := rfl
    omega
  | @call i ids w began hat =>
    rcases hat with ⟨hat, -⟩ | hat
    all_goals exact account_exchange hat [.called i w] (Nat.zero_le _)
  | @write i ids w r began t hat ht hkept hfree =>
    exact account_exchange hat [.written i w r] (Nat.zero_le _)
  | miss hat hmiss => exact account_exchange hat [] (Nat.zero_le _)
  | @finish i ids w began v' hat =>
    have hnone : v'.worth p.reservation = 0 := by
      rcases hat with ⟨-, rfl⟩ | ⟨-, rfl⟩
      · rfl
      · cases p.triggered <;> rfl
    rcases hat with ⟨hat, -⟩ | ⟨hat, -⟩
    all_goals exact account_exchange hat [] (by simp [hnone])
  | @handOver i j hat hi =>
    have hworkers := weigh_set (f := Worker.worth p.reservation) hi (.received j)
    simp only [Worker.worth, Worker.fresh, Worker.opening, weigh_cons, weigh_nil] at hworkers
    simp only [account, budget_eq, cycles, hat, setWorker, record, Coordinator.hand, weigh_cons,
      weigh_nil, List.filterMap_cons, Event.cycle?]
    omega
  | @answer i w began r hat => exact account_exchange hat [.returned i w r] (Nat.zero_le _)
  | rouseWorker hat => exact account_exchange hat [] (Nat.zero_le _)
  | _ => exact Nat.le_refl _

theorem account_of_run (h : p.run? ls = some q) (hls : ∀ l ∈ ls, l.submits = false) :
    q.account ≤ p.account := by
  induction ls generalizing p with
  | nil =>
    cases h
    exact Nat.le_refl _
  | cons l ls ih =>
    obtain ⟨s, hs, hrun⟩ := run?_cons.mp h
    obtain ⟨hl, hls⟩ := List.forall_mem_cons.mp hls
    exact (ih hrun hls).trans ((move_of_step hs).account_le hl)

end Pool
end PacedJobs
