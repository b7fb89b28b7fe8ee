import PacedJobs.Proofs.Pool.Fates
import PacedJobs.Proofs.Pool.Waking

/-!
# Shutting a pool down

Once the signal has fired and the queue is closed, every step of the coordinator or of a worker
brings it nearer to its end, no step of a client takes it away from there, and while one of them
has not ended there is one that can step. So all of them end, and every ticket is resolved then.
-/

namespace PacedJobs

variable {π ω : Type}

/-- Whether it is the coordinator, a worker or the transport that steps. -/
def Label.isThread : Label π ω → Bool
  | coordinate | rouse | work _ _ | handOver _ | answer _ _ | rouseWorker _ => true
  | _ => false

/-- A bound for the steps of the coordinator to its end. -/
def Coordinator.remaining : Coordinator π → Nat
  | stopped => 0
  | checking | holding _ => 1
  | asleep | popping | offering _ => 2

/-- A bound for the steps of a worker to its end. -/
def Worker.remaining : Worker π ω → Nat
  | stopped | crashed => 0
  | looping | watching _ | received _ => 1
  | asleep _ | pausing _ | receiving => 2
  | queuing | measuring _ => 3
  | delivered _ _ | undelivered _ _ => 4
  | replying _ _ _ => 5
  | executing _ _ => 6
  | ready _ _ => 7
  | processing _ _ => 8
  | admitted _ => 9

theorem Coordinator.remaining_notify_le (c : Coordinator π) : c.notify.remaining ≤ c.remaining := by
  cases c <;> simp [notify, remaining]

theorem Worker.remaining_notify_le (w : Worker π ω) : w.notify.remaining ≤ w.remaining := by
  cases w <;> simp [notify, remaining]

/-- When the signal has fired, every turn brings a worker nearer to its end. -/
theorem Worker.Turn.remaining_lt {p : Pool π ω} {w w' : Worker π ω} (h : Turn p w w')
    (hfired : p.triggered = true) : w'.remaining < w.remaining := by
  cases h with
  | queue hquiet => simp [hquiet] at hfired
  | pass j hquiet => simp [hquiet] at hfired
  | expire hquiet hdue => simp [hquiet] at hfired
  | sleep hquiet hearly => simp [hquiet] at hfired
  | _ => simp [remaining]

/-- What never grows, and falls again and again until something happens, lets it happen. -/
theorem exists_of_descent {f : Nat → Nat} {P : Nat → Prop} (hle : ∀ n, f (n + 1) ≤ f n)
    (hlt : ∀ n, ¬ P n → ∃ m, n ≤ m ∧ f (m + 1) < f m) : ∃ n, P n := by
  by_contra hnever
  have hdown : ∀ k, ∃ n, f n + k ≤ f 0 := by
    intro k
    induction k with
    | zero => exact ⟨0, Nat.le_refl _⟩
    | succ k ih =>
      obtain ⟨n, hn⟩ := ih
      obtain ⟨m, hnm, hm⟩ := hlt n fun hP => hnever ⟨n, hP⟩
      have hwait := antitone_nat_of_succ_le hle hnm
      exact ⟨m + 1, by omega⟩
  obtain ⟨n, hn⟩ := hdown (f 0 + 1)
  omega

namespace Pool

/-- A bound for the steps of the coordinator and of all workers to their ends. -/
def remaining (p : Pool π ω) : Nat :=
  p.coordinator.remaining + weigh Worker.remaining p.workers

/-- The signal has fired, the queue is closed, and nobody has slept through it. -/
structure Closing (p : Pool π ω) : Prop where
  fired : p.triggered = true
  closed : p.queue.closed = true
  drained : Drained p
  steady : Steady p

variable {p q : Pool π ω} {l : Label π ω}

namespace Closing

theorem move (h : Closing p) (hmove : Move p l q) : Closing q where
  fired := hmove.triggered_of_triggered h.fired
  closed := hmove.closed_of_closed h.closed
  drained := h.drained.move hmove
  steady := h.steady.move hmove

theorem run (h : Closing p) {ls : List (Label π ω)} (hrun : p.run? ls = some q) : Closing q :=
  invariant_run? (fun hp hmove => hp.move hmove) h hrun

theorem reserve_eq (h : Closing p) (ids : List JobId) : p.reserve ids = p := by
  rcases p.reserve_cases ids with heq | ⟨hopen, -⟩
  · exact heq
  · rw [h.closed] at hopen
    cases hopen

theorem coordinator_lt (h : Closing p) {c : Coordinator π}
    (hturn : Coordinator.Turn p p.coordinator c) : c.remaining < p.coordinator.remaining := by
  have hclosed := h.closed
  generalize p.coordinator = c' at hturn
  cases hturn with
  | leave hclosed' => simp [Coordinator.remaining]
  | miss hempty => simp [Coordinator.remaining]
  | wake => simp [Coordinator.remaining]
  | sleep hopen hempty => simp [hopen] at hclosed
  | find hopen hsome => simp [hopen] at hclosed
  | offer j hopen => simp [hopen] at hclosed

theorem exchange_lt {i : Nat} {w w' : Worker π ω} (hat : p.workers[i]? = some w)
    (hlt : w'.remaining < w.remaining) (hcoordinator : q.coordinator = p.coordinator)
    (hworkers : q.workers = p.workers.set i w') : q.remaining < p.remaining := by
  have hset := weigh_set (f := Worker.remaining) hat w'
  unfold remaining
  rw [hcoordinator, hworkers]
  omega

/-- Every step of the coordinator, of a worker or of the transport counts. -/
theorem remaining_lt (h : Closing p) (hmove : Move p l q) (hl : l.isThread = true) :
    q.remaining < p.remaining := by
  cases hmove with
  | coordinate hturn hawake =>
    have := h.coordinator_lt hturn
    simp only [remaining]
    omega
  | pop hat hline =>
    rw [(h.drained h.closed).1] at hline
    cases hline
  | abandon hat =>
    rcases hat with ⟨hat, -⟩ | ⟨hat, -⟩
    all_goals
      simp only [remaining, record, drop, hat, Coordinator.remaining]
      omega
  | rouse hat => exact absurd hat (h.drained h.closed).2
  | work hat hturn hawake => exact exchange_lt hat (hturn.remaining_lt h.fired) rfl rfl
  | giveUp hat hfired => exact exchange_lt hat (by simp [Worker.remaining]) rfl rfl
  | begin hat => exact exchange_lt hat (by simp [Worker.remaining]) rfl rfl
  | prepare hat hmode hmore hids =>
    rw [h.reserve_eq]
    exact exchange_lt hat (by simp [Worker.remaining]) rfl rfl
  | call hat =>
    rcases hat with ⟨hat, -⟩ | hat
    all_goals exact exchange_lt hat (by simp [Worker.remaining]) rfl rfl
  | write t hat ht hkept hfree => exact exchange_lt hat (by simp [Worker.remaining]) rfl rfl
  | miss hat hmiss => exact exchange_lt hat (by simp [Worker.remaining]) rfl rfl
  | finish hat =>
    rcases hat with ⟨hat, rfl⟩ | ⟨hat, rfl⟩
    · exact exchange_lt hat (by simp [Worker.remaining]) rfl rfl
    · exact exchange_lt hat (by simp [Worker.remaining, h.fired]) rfl rfl
  | @handOver i j hat hi =>
    have hset := weigh_set (f := Worker.remaining) hi (.received j)
    simp only [remaining, record, setWorker, hat, Coordinator.remaining, Worker.remaining] at *
    omega
  | answer r hat => exact exchange_lt hat (by simp [Worker.remaining]) rfl rfl
  | rouseWorker hat => exact exchange_lt hat (by simp [Worker.remaining]) rfl rfl
  | _ => cases hl

/-- No step of a client or of the clock takes anybody away from the end. -/
theorem remaining_le (h : Closing p) (hmove : Move p l q) : q.remaining ≤ p.remaining := by
  cases hl : l.isThread with
  | true => exact (h.remaining_lt hmove hl).le
  | false =>
    cases hmove with
    | accept w hw hopen =>
      have hclosed := h.closed
      simp [hopen] at hclosed
    | reserve hcall hids =>
      rw [h.reserve_eq]
      exact Nat.le_refl _
    | trigger hcall =>
      have hworkers : weigh Worker.remaining (p.workers.map Worker.notify) ≤
          weigh Worker.remaining p.workers := by
        induction p.workers with
        | nil => exact Nat.le_refl _
        | cons w ws ih =>
          have := w.remaining_notify_le
          simp only [List.map_cons, weigh_cons]
          omega
      exact Nat.add_le_add_left hworkers _
    | shut hcall => exact Nat.add_le_add_right p.coordinator.remaining_notify_le _
    | refuse w hw hclosed => exact Nat.le_refl _
    | cancelMiss hmiss => exact Nat.le_refl _
    | cancel j queue hdelete => exact Nat.le_refl _
    | sweepPanic queue hsweep => exact Nat.le_refl _
    | sweep js queue hsweep => exact Nat.le_refl _
    | close => exact Nat.le_refl _
    | poll t ht hkept => exact Nat.le_refl _
    | forget t ht hkept => exact Nat.le_refl _
    | elapse time => exact Nat.le_refl _
    | _ => cases hl

end Closing

/-- The coordinator or a worker can step, at least if the transport answers its calls by `x`. -/
def CanStep (p : Pool π ω) (x : Except Failure ω) : Prop :=
  ∃ l q, l.isThread = true ∧ (∀ i y, l = .answer i y → y = x) ∧ p.step l = some q

variable {x : Except Failure ω}

theorem canStep_of_coordinate (h : (p.coordinate?).isSome = true) : CanStep p x := by
  obtain ⟨q, hq⟩ := Option.isSome_iff_exists.mp h
  exact ⟨.coordinate, q, rfl, by simp, hq⟩

theorem canStep_of_work {i : Nat} (h : (p.work? i []).isSome = true) : CanStep p x := by
  obtain ⟨q, hq⟩ := Option.isSome_iff_exists.mp h
  exact ⟨.work i [], q, rfl, by simp, hq⟩

theorem canStep_of_handOver {i : Nat} (h : (p.handOver? i).isSome = true) : CanStep p x := by
  obtain ⟨q, hq⟩ := Option.isSome_iff_exists.mp h
  exact ⟨.handOver i, q, rfl, by simp, hq⟩

namespace Closing

/-- A worker that waits for nobody can step, or the transport can answer it. -/
theorem canStep_of_worker (h : Closing p) {i : Nat} {w : Worker π ω} (hat : p.workers[i]? = some w)
    (hbusy : w.hasEnded = false) (hqueuing : w ≠ .queuing) (hreceiving : w ≠ .receiving) :
    CanStep p x := by
  have hawake := (h.steady w (List.mem_of_getElem? hat)).1 h.fired
  cases w with
  | queuing => exact absurd rfl hqueuing
  | receiving => exact absurd rfl hreceiving
  | executing w began =>
    refine ⟨.answer i x, _, rfl, ?_, by simp only [step, answer?, hat]; rfl⟩
    intro k y heq
    cases heq
    rfl
  | asleep deadline => cases hawake
  | stopped => cases hbusy
  | crashed => cases hbusy
  | received j => exact canStep_of_work (i := i) (by simp [work?, hat, h.fired])
  | processing j began =>
    refine canStep_of_work (i := i) ?_
    cases j with
    | placeholder id => simp [work?, hat]
    | work w =>
      simp only [work?, hat, canReserve, h.closed, Bool.true_or, if_true]
      split <;> rfl
  | replying w r began =>
    refine canStep_of_work (i := i) ?_
    simp only [work?, hat]
    split <;> rfl
  | pausing timeout =>
    refine canStep_of_work (i := i) ?_
    simp only [work?, hat]
    split <;> rfl
  | watching deadline => exact canStep_of_work (i := i) (by simp [work?, hat, watch, h.fired])
  | _ => exact canStep_of_work (i := i) (by simp [work?, hat])

/-- While a worker has not ended, somebody can step, as long as the coordinator offers a job or has
stopped. A worker that receives then gets the job or hangs up, and one that queues to receive waits
for such a worker at most. -/
theorem canStep_of_busy (h : Closing p)
    (hcoordinator : p.coordinator = .stopped ∨ ∃ j, p.coordinator = .offering j) {i : Nat}
    {w : Worker π ω} (hat : p.workers[i]? = some w) (hbusy : w.hasEnded = false) :
    CanStep p x := by
  have hreceiver : ∀ k : Nat, p.workers[k]? = some Worker.receiving → CanStep p x := by
    intro k hk
    rcases hcoordinator with hstopped | ⟨j, hoffering⟩
    · exact canStep_of_work (i := k) (by simp [work?, hk, hstopped, Coordinator.isStopped])
    · exact canStep_of_handOver (i := k) (by simp [handOver?, hk, hoffering])
  by_cases hreceiving : w = .receiving
  · subst hreceiving
    exact hreceiver i hat
  · by_cases hqueuing : w = .queuing
    · subst hqueuing
      cases hany : p.workers.any Worker.isReceiving with
      | false => exact canStep_of_work (i := i) (by simp [work?, hat, hany])
      | true =>
        obtain ⟨v, hv, hvr⟩ := List.any_eq_true.mp hany
        obtain ⟨k, hk⟩ := List.getElem?_of_mem hv
        cases v with
        | receiving => exact hreceiver k hk
        | _ => cases hvr
    · exact h.canStep_of_worker hat hbusy hqueuing hreceiving

/-- While the coordinator or a worker has not ended, one of them can step. -/
theorem canStep (h : Closing p) (hbusy : p.isFinished = false) (x : Except Failure ω) :
    CanStep p x := by
  have hworker : p.workers.all Worker.hasEnded = false →
      ∃ (i : Nat) (w : Worker π ω), p.workers[i]? = some w ∧ w.hasEnded = false := by
    intro hall
    obtain ⟨w, hw, hwb⟩ := List.all_eq_false.mp hall
    obtain ⟨i, hi⟩ := List.getElem?_of_mem hw
    exact ⟨i, w, hi, by simpa using hwb⟩
  cases hat : p.coordinator with
  | checking => exact canStep_of_coordinate (by simp [coordinate?, hat])
  | asleep => exact absurd hat (h.drained h.closed).2
  | popping =>
    refine canStep_of_coordinate ?_
    simp [coordinate?, hat, Queue.pop, (h.drained h.closed).1]
  | holding j => exact canStep_of_coordinate (by simp [coordinate?, hat, h.closed])
  | offering j =>
    cases hall : p.workers.all Worker.hasEnded with
    | true => exact canStep_of_coordinate (by simp [coordinate?, hat, hall])
    | false =>
      obtain ⟨i, w, hi, hw⟩ := hworker hall
      exact h.canStep_of_busy (.inr ⟨j, hat⟩) hi hw
  | stopped =>
    have hall : p.workers.all Worker.hasEnded = false := by
      simpa [isFinished, hat, Coordinator.isStopped] using hbusy
    obtain ⟨i, w, hi, hw⟩ := hworker hall
    exact h.canStep_of_busy (.inl hat) hi hw

/-- A pool that closes ends, whatever its clients do, if its threads are not kept from stepping. -/
theorem exists_isFinished {s : Nat → Pool π ω} {ls : Nat → Label π ω} (h : Closing (s 0))
    (hstep : ∀ n, (s n).step (ls n) = some (s (n + 1)))
    (hfair : ∀ n, (s n).isFinished = false → ∃ m, n ≤ m ∧ (ls m).isThread = true) :
    ∃ n, (s n).isFinished = true := by
  have hclosing : ∀ n, Closing (s n) := by
    intro n
    induction n with
    | zero => exact h
    | succ n ih => exact ih.move (move_of_step (hstep n))
  refine exists_of_descent (f := fun n => (s n).remaining)
    (fun n => (hclosing n).remaining_le (move_of_step (hstep n))) fun n hn => ?_
  obtain ⟨m, hnm, hm⟩ := hfair n (by simpa using hn)
  exact ⟨m, hnm, (hclosing m).remaining_lt (move_of_step (hstep m)) hm⟩

end Closing

theorem isFinished_iff :
    p.isFinished = true ↔ p.coordinator = .stopped ∧ ∀ w ∈ p.workers, w.hasEnded = true := by
  have hstopped : p.coordinator.isStopped = true ↔ p.coordinator = .stopped := by
    cases p.coordinator <;> simp [Coordinator.isStopped]
  rw [isFinished, Bool.and_eq_true, hstopped, List.all_eq_true]

theorem flatMap_eq_nil_of_hasEnded {g : Worker π ω → List (Job π)} {ws : List (Worker π ω)}
    (hended : ∀ w ∈ ws, w.hasEnded = true) (hstopped : g .stopped = [])
    (hcrashed : g .crashed = []) : ws.flatMap g = [] := by
  rw [List.flatMap_eq_nil_iff]
  intro w hw
  have hw := hended w hw
  cases w with
  | stopped => exact hstopped
  | crashed => exact hcrashed
  | _ => cases hw

/-- In a pool that has ended nobody has a job that is not pending. -/
theorem alive_eq_line (hfinished : p.isFinished = true) : p.alive = p.queue.line := by
  obtain ⟨hstopped, hended⟩ := isFinished_iff.mp hfinished
  simp only [alive, kept, hands, running, hstopped, Coordinator.hand,
    flatMap_eq_nil_of_hasEnded (g := Worker.hand) hended rfl rfl,
    flatMap_eq_nil_of_hasEnded (g := Worker.running) hended rfl rfl, List.append_nil]

theorem Closing.alive_eq_nil (h : Closing p) (hfinished : p.isFinished = true) : p.alive = [] := by
  rw [alive_eq_line hfinished, (h.drained h.closed).1]

/-- A ticket whose job nobody has got its result, or it reads that the job was dropped. -/
theorem Sound.resolved_of_gone (h : Sound p) {w : Work π} (hw : .work w ∈ p.arrivals)
    (hgone : weigh (atTicket w.ticket) p.alive = 0) :
    (∃ r, p.written w.ticket = [r]) ∨ p.written w.ticket = [] ∧
      ∃ t, p.tickets[w.ticket]? = some t ∧ t.reading? = some (.error (.dropped w.id)) := by
  obtain ⟨t, ht, hjob⟩ := h.matched.named w hw
  have hone : (p.written w.ticket).length ≤ 1 := by
    have hanswered := (h.balanced (atTicket w.ticket)).answered_le
    have hexecuted := h.weigh_executed_le w.ticket
    rw [length_written]
    omega
  rcases Nat.le_one_iff_eq_zero_or_eq_one.mp hone with hnone | hsome
  · refine .inr ⟨List.length_eq_zero_iff.mp hnone, t, ht, ?_⟩
    have hunread : t.unread = none := by
      by_contra hunread
      have := h.matched.unread _ t ht hunread
      rw [← length_written] at this
      omega
    have hsender : t.sender = false := by
      have := h.matched.sender_iff _ t ht
      rw [hgone] at this
      by_contra hs
      simp [hs] at this
    simp [Ticket.reading?, hunread, hsender, hjob]
  · exact .inl (List.length_eq_one_iff.mp hsome)

theorem Sound.resolved (h : Sound p) (hnobody : p.alive = []) {w : Work π}
    (hw : .work w ∈ p.arrivals) :
    (∃ r, p.written w.ticket = [r]) ∨ p.written w.ticket = [] ∧
      ∃ t, p.tickets[w.ticket]? = some t ∧ t.reading? = some (.error (.dropped w.id)) :=
  h.resolved_of_gone hw (by rw [hnobody, weigh_nil])

/-- What a pool is bound to come to. -/
structure Completes (p : Pool π ω) : Prop where
  /-- Steps of the coordinator, the workers and the transport count, and no others count against
  them. -/
  decrease : ∀ ls q l r, p.run? ls = some q → q.step l = some r →
    r.remaining ≤ q.remaining ∧ (l.isThread = true → r.remaining < q.remaining)
  /-- Whatever the transport answers, somebody can step while not all have ended. -/
  progress : ∀ ls q (x : Except Failure ω), p.run? ls = some q → q.isFinished = false →
    q.CanStep x
  /-- All end in every run in which the coordinator and the workers go on. -/
  ending : ∀ (s : Nat → Pool π ω) (ls : Nat → Label π ω), s 0 = p →
    (∀ n, (s n).step (ls n) = some (s (n + 1))) →
    (∀ n, (s n).isFinished = false → ∃ m, n ≤ m ∧ (ls m).isThread = true) →
      ∃ n, (s n).isFinished = true
  /-- In the end nobody has a job, and workers have stopped, unless the end of a time slice lay
  beyond the largest instant. -/
  rest : ∀ ls q, p.run? ls = some q → q.isFinished = true →
    (q.queue.line = [] ∧ q.coordinator.hand = [] ∧ q.hands = [] ∧ q.running = []) ∧
      (q.now + q.timeSlice < endOfTime → ∀ w ∈ q.workers, w = .stopped)
  /-- In the end a submitted job has one result, or its ticket reads that it was dropped. -/
  resolved : ∀ ls q, p.run? ls = some q → q.isFinished = true →
    ∀ w : Work π, .work w ∈ q.arrivals →
      (∃ r, q.written w.ticket = [r]) ∨ q.written w.ticket = [] ∧
        ∃ t, q.tickets[w.ticket]? = some t ∧ t.reading? = some (.error (.dropped w.id))

/-- Once the signal has fired and the queue is closed, a pool comes to its end. -/
theorem completes_of_closed {c : Config} {operation : String} {ls : List (Label π ω)}
    (h : (Pool.start c operation).run? ls = some p) (hfired : p.triggered = true)
    (hclosed : p.queue.closed = true) : Completes p := by
  have hclosing : Closing p := ⟨hfired, hclosed, drained_of_run h, steady_of_run h⟩
  constructor
  · intro ms q l r hq hr
    have hmove := move_of_step hr
    exact ⟨(hclosing.run hq).remaining_le hmove, (hclosing.run hq).remaining_lt hmove⟩
  · intro ms q x hq hbusy
    exact (hclosing.run hq).canStep hbusy x
  · intro s ms hs hstep hfair
    exact Closing.exists_isFinished (hs ▸ hclosing) hstep hfair
  · intro ms q hq hfinished
    have hend := hclosing.run hq
    have hnobody := hend.alive_eq_nil hfinished
    simp only [alive, kept, List.append_eq_nil_iff, and_assoc] at hnobody
    refine ⟨hnobody, ?_⟩
    intro htime w hw
    have hended := (isFinished_iff.mp hfinished).2 w hw
    have hontime := (hend.steady w hw).2
    cases w with
    | stopped => rfl
    | crashed => exact absurd htime (Nat.not_lt.mpr hontime)
    | _ => cases hended
  · intro ms q hq hfinished w hw
    have hsound : Sound q := sound_of_run (run?_append.mpr ⟨p, h, hq⟩)
    exact hsound.resolved ((hclosing.run hq).alive_eq_nil hfinished) hw

/-- A job is offered and another one is pending when the pool is closed. -/
def closeWhileOffering : List (Label Unit Unit) :=
  [.submit ⟨1⟩ 0 0 1 (), .submit ⟨2⟩ 5 0 1 (), .coordinate, .coordinate, .coordinate, .work 0 [],
    .work 0 [], .close, .resume 2 [], .resume 2 []]

theorem completes_closeWhileOffering : ∃ p : Pool Unit Unit,
    (Pool.start { workers := 2 } "run").run? closeWhileOffering = some p ∧ p.triggered = true ∧
      p.queue.closed = true ∧ Completes p := by
  refine ⟨_, rfl, rfl, rfl, ?_⟩
  have hrun : (Pool.start { workers := 2 } "run").run? closeWhileOffering = some _ := rfl
  exact completes_of_closed hrun rfl rfl

end Pool
end PacedJobs
