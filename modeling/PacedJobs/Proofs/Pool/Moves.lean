import Mathlib.Tactic
import PacedJobs.Pool.Step

/-!
# What a step of a pool can do

A step is split into moves, and every move says what it needs and what it changes. Turns are the
moves of the coordinator or of one worker that touch nothing but its own position. What holds at
the start and is kept by every move holds throughout every run.
-/

namespace PacedJobs

variable {π ω : Type}

/-- The moves of the coordinator that touch nothing else. -/
inductive Coordinator.Turn (p : Pool π ω) : Coordinator π → Coordinator π → Prop
  | leave (hclosed : p.queue.closed = true) : Turn p .checking .stopped
  | sleep (hopen : p.queue.closed = false) (hempty : p.queue.line = []) : Turn p .checking .asleep
  | find (hopen : p.queue.closed = false) (hsome : p.queue.line ≠ []) : Turn p .checking .popping
  | miss (hempty : p.queue.line = []) : Turn p .popping .checking
  | offer (j : Job π) (hopen : p.queue.closed = false) : Turn p (.holding j) (.offering j)
  | wake : Turn p .asleep .checking

/-- The moves of a worker that touch nothing else. -/
inductive Worker.Turn (p : Pool π ω) : Worker π ω → Worker π ω → Prop
  | leave (hfired : p.triggered = true) : Turn p .looping .stopped
  | queue (hquiet : p.triggered = false) : Turn p .looping .queuing
  | listen (hfree : p.workers.any Worker.isReceiving = false) : Turn p .queuing .receiving
  | hangUp (hgone : p.coordinator = .stopped) : Turn p .receiving .stopped
  | pass (j : Job π) (hquiet : p.triggered = false) : Turn p (.received j) (.admitted j)
  | spend (id : JobId) (began : Nat) :
      Turn p (.processing (.placeholder id) began) (.measuring began)
  | measure (began : Nat) :
      Turn p (.measuring began) (.pausing (p.timeSlice - (p.now - began)))
  | pause {timeout deadline : Nat} (hdeadline : deadline? p.now timeout = some deadline) :
      Turn p (.pausing timeout) (.watching deadline)
  | crash {timeout : Nat} (hdeadline : deadline? p.now timeout = none) :
      Turn p (.pausing timeout) .crashed
  | stop (deadline : Nat) (hfired : p.triggered = true) : Turn p (.watching deadline) .stopped
  | expire {deadline : Nat} (hquiet : p.triggered = false) (hdue : deadline ≤ p.now) :
      Turn p (.watching deadline) .looping
  | sleep {deadline : Nat} (hquiet : p.triggered = false) (hearly : p.now < deadline) :
      Turn p (.watching deadline) (.asleep deadline)
  | wake (deadline : Nat) : Turn p (.asleep deadline) (.watching deadline)

namespace Pool

/-- All that a step with a label can do. -/
inductive Move (p : Pool π ω) : Label π ω → Pool π ω → Prop
  | refuse {id priority submittedAt taskCount payload} (w : Work π)
      (hw : w = .ofTaskCount id priority submittedAt taskCount payload p.tickets.length)
      (hclosed : p.queue.closed = true) :
      Move p (.submit id priority submittedAt taskCount payload)
        ((({ p with tickets := p.tickets ++ [Ticket.issue id] }.drop [.work w]).addCall
          .returned).record (.refused w))
  | accept {id priority submittedAt taskCount payload} (w : Work π)
      (hw : w = .ofTaskCount id priority submittedAt taskCount payload p.tickets.length)
      (hopen : p.queue.closed = false) :
      Move p (.submit id priority submittedAt taskCount payload)
        (({ p with
          tickets := p.tickets ++ [Ticket.issue id]
          queue := p.queue.withJobs (Queue.insertSorted (.work w) p.queue.jobs)
          coordinator := p.coordinator.notify }.addCall
            (if p.reservation = Reservation.onSubmit then Call.reserving w.reserved
              else .returned)).record (.pushed w))
  | cancelMiss {id} (hmiss : p.queue.delete id = none) : Move p (.cancel id) p
  | cancel {id} (j : Job π) (q : Queue π) (hdelete : p.queue.delete id = some (j, q)) :
      Move p (.cancel id) (({ p with queue := q }.drop [j]).record (.cancelled [j]))
  | sweepPanic {judge} (q : Queue π) (hsweep : p.queue.deleteWhere judge = (none, q)) :
      Move p (.cancelWhere judge) { p with queue := q }
  | sweep {judge} (js : List (Job π)) (q : Queue π)
      (hsweep : p.queue.deleteWhere judge = (some js, q)) :
      Move p (.cancelWhere judge) (({ p with queue := q }.drop js).record (.cancelled js))
  | close : Move p .close (p.addCall (if p.triggered then .returned else .triggering))
  | reserve {k ids count} (hcall : p.calls[k]? = some (.reserving count))
      (hids : p.canReserve count ids = true) :
      Move p (.resume k ids) ((p.reserve ids).setCall k .returned)
  | trigger {k ids} (hcall : p.calls[k]? = some .triggering) :
      Move p (.resume k ids) (p.trigger.setCall k .shutting)
  | shut {k ids} (hcall : p.calls[k]? = some .shutting) :
      Move p (.resume k ids) (p.shut.setCall k .returned)
  | poll {n} (t : Ticket ω) (ht : p.tickets[n]? = some t) (hkept : t.receiver = true) :
      Move p (.poll n) (p.setTicket n t.poll.2)
  | forget {n} (t : Ticket ω) (ht : p.tickets[n]? = some t) (hkept : t.receiver = true) :
      Move p (.forget n) (p.setTicket n t.dropReceiver)
  | coordinate {c : Coordinator π} (hturn : Coordinator.Turn p p.coordinator c)
      (hawake : p.coordinator ≠ .asleep) : Move p .coordinate { p with coordinator := c }
  | pop {j js} (hat : p.coordinator = .popping) (hline : p.queue.line = j :: js) :
      Move p .coordinate
        ({ p with queue := { p.queue with line := js }, coordinator := .holding j }.record
          (.popped j))
  | abandon {j} (hat : p.coordinator = .holding j ∧ p.queue.closed = true ∨
        p.coordinator = .offering j ∧ p.workers.all Worker.hasEnded = true) :
      Move p .coordinate (({ p with coordinator := .stopped }.drop [j]).record (.abandoned j))
  | rouse (hat : p.coordinator = .asleep) : Move p .rouse { p with coordinator := .checking }
  | work {i ids} {w w' : Worker π ω} (hat : p.workers[i]? = some w) (hturn : Worker.Turn p w w')
      (hawake : ∀ d, w ≠ .asleep d) : Move p (.work i ids) (p.setWorker i w')
  | giveUp {i ids j} (hat : p.workers[i]? = some (.received j)) (hfired : p.triggered = true) :
      Move p (.work i ids) (((p.setWorker i .stopped).drop [j]).record (.abandoned j))
  | begin {i ids j} (hat : p.workers[i]? = some (.admitted j)) :
      Move p (.work i ids) ((p.setWorker i (.processing j p.now)).record (.began i j p.now))
  | prepare {i ids w began} (hat : p.workers[i]? = some (.processing (.work w) began))
      (hmode : p.reservation = .onExecute) (hmore : 0 < w.reserved)
      (hids : p.canReserve w.reserved ids = true) :
      Move p (.work i ids) ((p.reserve ids).setWorker i (.ready w began))
  | call {i ids w began} (hat : p.workers[i]? = some (.processing (.work w) began) ∧
        ¬ (p.reservation = .onExecute ∧ 0 < w.reserved) ∨ p.workers[i]? = some (.ready w began)) :
      Move p (.work i ids) (p.call i w began)
  | write {i ids w r began} (t : Ticket ω) (hat : p.workers[i]? = some (.replying w r began))
      (ht : p.tickets[w.ticket]? = some t) (hkept : t.receiver = true) (hfree : t.unread = none) :
      Move p (.work i ids)
        (((p.setTicket w.ticket { t with unread := some r }).setWorker i
          (.delivered w began)).record (.written i w r))
  | miss {i ids w r began} (hat : p.workers[i]? = some (.replying w r began))
      (hmiss : ∀ t, p.tickets[w.ticket]? = some t → t.receiver = false ∨ t.unread ≠ none) :
      Move p (.work i ids) (p.setWorker i (.undelivered w began))
  | finish {i ids w began} {w' : Worker π ω} (hat : p.workers[i]? = some (.delivered w began) ∧
        w' = .measuring began ∨ p.workers[i]? = some (.undelivered w began) ∧
        w' = if p.triggered then .stopped else .measuring began) :
      Move p (.work i ids) ((p.setWorker i w').drop [.work w])
  | handOver {i j} (hat : p.coordinator = .offering j) (hi : p.workers[i]? = some .receiving) :
      Move p (.handOver i)
        ((({ p with coordinator := .checking }).setWorker i (.received j)).record (.received i j))
  | answer {i w began} (r : Except Failure ω) (hat : p.workers[i]? = some (.executing w began)) :
      Move p (.answer i r)
        ((p.setWorker i (.replying w (p.resultOf i w r) began)).record (.returned i w r))
  | rouseWorker {i deadline} (hat : p.workers[i]? = some (.asleep deadline)) :
      Move p (.rouseWorker i) (p.setWorker i (.watching deadline))
  | elapse (time : Nat) : Move p (.elapse time) { p with now := p.now + time }

variable {p q : Pool π ω}

/-- A reservation leaves the pool alone or adds placeholders to an open queue. -/
theorem reserve_cases (p : Pool π ω) (ids : List JobId) :
    p.reserve ids = p ∨ p.queue.closed = false ∧ p.reserve ids =
      { p with
        queue := p.queue.withJobs (Queue.insertPlaceholders ids p.queue.jobs)
        coordinator := p.coordinator.notify }.record (.reserved ids) := by
  unfold reserve Queue.reserve
  cases hclosed : p.queue.closed with
  | true => exact .inl rfl
  | false =>
    cases ids with
    | nil => exact .inl rfl
    | cons id ids => exact .inr ⟨rfl, rfl⟩

section Reserve

variable (p) (ids : List JobId)

@[simp] theorem timeSlice_reserve : (p.reserve ids).timeSlice = p.timeSlice := by
  unfold reserve
  split <;> rfl

@[simp] theorem operation_reserve : (p.reserve ids).operation = p.operation := by
  unfold reserve
  split <;> rfl

@[simp] theorem triggered_reserve : (p.reserve ids).triggered = p.triggered := by
  unfold reserve
  split <;> rfl

@[simp] theorem workers_reserve : (p.reserve ids).workers = p.workers := by
  unfold reserve
  split <;> rfl

@[simp] theorem tickets_reserve : (p.reserve ids).tickets = p.tickets := by
  unfold reserve
  split <;> rfl

@[simp] theorem calls_reserve : (p.reserve ids).calls = p.calls := by
  unfold reserve
  split <;> rfl

@[simp] theorem now_reserve : (p.reserve ids).now = p.now := by
  unfold reserve
  split <;> rfl

@[simp] theorem closed_reserve : (p.reserve ids).queue.closed = p.queue.closed := by
  rcases p.reserve_cases ids with heq | ⟨-, heq⟩ <;> rw [heq]
  simp [record]

end Reserve

theorem Move.of_submit {id priority submittedAt taskCount payload}
    (h : p.step (.submit id priority submittedAt taskCount payload) = some q) :
    Move p (.submit id priority submittedAt taskCount payload) q := by
  simp only [step] at h
  split at h
  · injection h with h
    subst h
    cases hclosed : p.queue.closed with
    | true =>
      simp only [submit, Queue.push, hclosed, if_true]
      exact .refuse _ rfl hclosed
    | false =>
      simp only [submit, Queue.push, hclosed, Bool.false_eq_true, if_false]
      exact .accept _ rfl hclosed
  · cases h

theorem Move.of_coordinate (h : p.coordinate? = some q) : Move p .coordinate q := by
  unfold coordinate? at h
  split at h
  next hat =>
    cases h
    refine .coordinate ?_ (by simp [hat])
    rw [hat]
    cases hclosed : p.queue.closed with
    | true => exact .leave hclosed
    | false =>
      by_cases hempty : p.queue.line = []
      · simpa [Queue.isEmpty, hempty] using Coordinator.Turn.sleep hclosed hempty
      · simpa [Queue.isEmpty, hempty] using Coordinator.Turn.find hclosed hempty
  next hat =>
    unfold Queue.pop at h
    cases hline : p.queue.line with
    | nil =>
      simp only [hline, Option.some.injEq] at h
      subst h
      exact .coordinate (hat ▸ .miss hline) (by simp [hat])
    | cons j js =>
      simp only [hline, Option.some.injEq] at h
      subst h
      exact .pop hat hline
  next j hat =>
    split at h
    next hclosed =>
      cases h
      exact .abandon (.inl ⟨hat, hclosed⟩)
    next hopen =>
      cases h
      exact .coordinate (hat ▸ .offer j (by simpa using hopen)) (by simp [hat])
  next j hat =>
    split at h
    next hended =>
      cases h
      exact .abandon (.inr ⟨hat, hended⟩)
    next => cases h
  next => cases h
  next => cases h

theorem Move.of_resume {k ids} (h : p.resume? k ids = some q) : Move p (.resume k ids) q := by
  unfold resume? at h
  split at h
  next count hcall =>
    split at h
    next hids =>
      cases h
      exact .reserve hcall hids
    next => cases h
  next hcall =>
    cases h
    exact .trigger hcall
  next hcall =>
    cases h
    exact .shut hcall
  next => cases h
  next => cases h

theorem ticket?_eq_some_iff {n : Nat} {t : Ticket ω} :
    p.ticket? n = some t ↔ p.tickets[n]? = some t ∧ t.receiver = true := by
  simp [ticket?, Option.filter_eq_some_iff]

theorem Move.of_work {i ids} (h : p.work? i ids = some q) : Move p (.work i ids) q := by
  unfold work? at h
  split at h
  next hat =>
    cases h
    refine .work hat ?_ (by simp)
    cases hfired : p.triggered with
    | true => exact .leave hfired
    | false => exact .queue hfired
  next hat =>
    split at h
    next => cases h
    next hfree =>
      cases h
      exact .work hat (.listen (by simpa using hfree)) (by simp)
  next hat =>
    split at h
    next hgone =>
      cases h
      refine .work hat (.hangUp ?_) (by simp)
      cases hc : p.coordinator <;> simp [hc, Coordinator.isStopped] at hgone ⊢
    next => cases h
  next j hat =>
    split at h
    next hfired =>
      cases h
      exact .giveUp hat hfired
    next hquiet =>
      cases h
      exact .work hat (.pass j (by simpa using hquiet)) (by simp)
  next j hat =>
    cases h
    exact .begin hat
  next id began hat =>
    cases h
    exact .work hat (.spend id began) (by simp)
  next w began hat =>
    split at h
    next hmode =>
      split at h
      next hids =>
        cases h
        exact .prepare hat hmode.1 hmode.2 hids
      next => cases h
    next hmode =>
      cases h
      exact .call (.inl ⟨hat, hmode⟩)
  next w began hat =>
    cases h
    exact .call (.inr hat)
  next w r began hat =>
    split at h
    next t hsend =>
      cases h
      obtain ⟨t', ht', hsend⟩ := Option.bind_eq_some_iff.mp hsend
      unfold Ticket.send? at hsend
      split at hsend
      next hok =>
        cases hsend
        simp only [Bool.and_eq_true, Option.isNone_iff_eq_none] at hok
        exact .write t' hat ht' hok.1 hok.2
      next => cases hsend
    next hsend =>
      cases h
      refine .miss hat fun t ht => ?_
      by_contra hno
      obtain ⟨hkept, hfree⟩ := not_or.mp hno
      simp [ht, Ticket.send?, not_not.mp hfree, hkept] at hsend
  next w began hat =>
    cases h
    exact .finish (.inl ⟨hat, rfl⟩)
  next w began hat =>
    cases h
    exact .finish (.inr ⟨hat, rfl⟩)
  next began hat =>
    cases h
    exact .work hat (.measure began) (by simp)
  next timeout hat =>
    split at h
    next deadline hdeadline =>
      cases h
      exact .work hat (.pause hdeadline) (by simp)
    next hdeadline =>
      cases h
      exact .work hat (.crash hdeadline) (by simp)
  next deadline hat =>
    unfold watch at h
    cases hfired : p.triggered with
    | true =>
      simp only [hfired, if_true, Option.some.injEq] at h
      subst h
      exact .work hat (.stop deadline hfired) (by simp)
    | false =>
      by_cases hdue : deadline ≤ p.now
      · simp only [hfired, hdue, Bool.false_eq_true, if_false, if_true, Option.some.injEq] at h
        subst h
        exact .work hat (.expire hfired hdue) (by simp)
      · simp only [hfired, hdue, Bool.false_eq_true, if_false, Option.some.injEq] at h
        subst h
        exact .work hat (.sleep hfired (by omega)) (by simp)
  all_goals cases h

theorem move_of_step {l : Label π ω} (h : p.step l = some q) : Move p l q := by
  cases l with
  | submit id priority submittedAt taskCount payload => exact .of_submit h
  | cancel id =>
    simp only [step, cancel, Option.some.injEq] at h
    cases hdelete : p.queue.delete id with
    | none =>
      rw [hdelete] at h
      subst h
      exact .cancelMiss hdelete
    | some x =>
      rw [hdelete] at h
      subst h
      exact .cancel x.1 x.2 hdelete
  | cancelWhere judge =>
    simp only [step, cancelWhere, Option.some.injEq] at h
    obtain ⟨js, q', hsweep⟩ : ∃ js q', p.queue.deleteWhere judge = (js, q') := ⟨_, _, rfl⟩
    rw [hsweep] at h
    cases js with
    | none =>
      subst h
      exact .sweepPanic q' hsweep
    | some js =>
      subst h
      exact .sweep js q' hsweep
  | close =>
    cases h
    exact .close
  | resume k ids => exact .of_resume h
  | poll n =>
    obtain ⟨t, ht, rfl⟩ := Option.map_eq_some_iff.mp h
    obtain ⟨ht, hkept⟩ := ticket?_eq_some_iff.mp ht
    exact .poll t ht hkept
  | forget n =>
    obtain ⟨t, ht, rfl⟩ := Option.map_eq_some_iff.mp h
    obtain ⟨ht, hkept⟩ := ticket?_eq_some_iff.mp ht
    exact .forget t ht hkept
  | coordinate => exact .of_coordinate h
  | rouse =>
    simp only [step] at h
    split at h
    next hat =>
      cases h
      exact .rouse hat
    next => cases h
  | work i ids => exact .of_work h
  | handOver i =>
    simp only [step, handOver?] at h
    split at h
    next j hat hi =>
      cases h
      exact .handOver hat hi
    next => cases h
  | answer i r =>
    simp only [step, answer?] at h
    split at h
    next w began hat =>
      cases h
      exact .answer r hat
    next => cases h
  | rouseWorker i =>
    simp only [step, rouseWorker?] at h
    split at h
    next deadline hat =>
      cases h
      exact .rouseWorker hat
    next => cases h
  | elapse time =>
    cases h
    exact .elapse time

theorem Move.exists_history_eq {l : Label π ω} (h : Move p l q) :
    ∃ es, q.history = es ++ p.history := by
  have hreserve : ∀ ids, ∃ es, (p.reserve ids).history = es ++ p.history := by
    intro ids
    rcases p.reserve_cases ids with heq | ⟨-, heq⟩
    · exact ⟨[], by rw [heq]; rfl⟩
    · exact ⟨[.reserved ids], by rw [heq]; rfl⟩
  cases h with
  | reserve hcall hids => exact hreserve _
  | prepare hat hmode hmore hids => exact hreserve _
  | _ =>
    first
      | exact ⟨[], rfl⟩
      | exact ⟨[_], rfl⟩

end Pool
end PacedJobs
