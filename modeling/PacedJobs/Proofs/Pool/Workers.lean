import PacedJobs.Proofs.Pool.Run
import PacedJobs.Proofs.Queue.Contents

/-!
# Steps of one worker and of the coordinator

A move of the pool leaves a worker where it is, tells it of the signal, or is a step of its own.
What is recorded of a worker is what its own steps record. In the same way a move leaves the
coordinator where it is, tells it of the queue, or is a step of the coordinator.
-/

namespace PacedJobs

variable {π ω : Type}

def Label.worker? : Label π ω → Option Nat
  | work i _ | handOver i | answer i _ | rouseWorker i => some i
  | _ => none

def Event.worker? : Event π ω → Option Nat
  | received i _ | began i _ _ | called i _ | returned i _ _ | written i _ _ => some i
  | _ => none

/-- All that a worker's own step does to it, with what is recorded of it. -/
inductive Worker.Step (p : Pool π ω) (i : Nat) :
    Label π ω → Worker π ω → Worker π ω → List (Event π ω) → Prop
  | turn {ids w w'} (hturn : Turn p w w') (hawake : ∀ d, w ≠ .asleep d) :
      Step p i (.work i ids) w w' []
  | wake (deadline : Nat) : Step p i (.rouseWorker i) (.asleep deadline) (.watching deadline) []
  | receive (j : Job π) (hat : p.coordinator = .offering j) :
      Step p i (.handOver i) .receiving (.received j) [.received i j]
  | giveUp {ids} (j : Job π) (hfired : p.triggered = true) :
      Step p i (.work i ids) (.received j) .stopped []
  | begin {ids} (j : Job π) :
      Step p i (.work i ids) (.admitted j) (.processing j p.now) [.began i j p.now]
  | prepare {ids} (w : Work π) (began : Nat) :
      Step p i (.work i ids) (.processing (.work w) began) (.ready w began) []
  | call {ids v} (w : Work π) (began : Nat)
      (hat : v = .processing (.work w) began ∨ v = .ready w began) :
      Step p i (.work i ids) v (.executing w began) [.called i w]
  | answer (w : Work π) (began : Nat) (x : Except Failure ω) :
      Step p i (.answer i x) (.executing w began) (.replying w (p.resultOf i w x) began)
        [.returned i w x]
  | write {ids} (w : Work π) (r : Except JobError ω) (began : Nat) :
      Step p i (.work i ids) (.replying w r began) (.delivered w began) [.written i w r]
  | miss {ids} (w : Work π) (r : Except JobError ω) (began : Nat) :
      Step p i (.work i ids) (.replying w r began) (.undelivered w began) []
  | finish {ids} (w : Work π) (began : Nat) :
      Step p i (.work i ids) (.delivered w began) (.measuring began) []
  | letGo {ids} (w : Work π) (began : Nat) :
      Step p i (.work i ids) (.undelivered w began)
        (if p.triggered then .stopped else .measuring began) []

/-- The work that a worker goes on with after it has looked at the signal, until it puts that
away. -/
def Worker.engagement : Worker π ω → Option (Work π)
  | admitted (.work w) | processing (.work w) _ | ready w _ | executing w _ | replying w _ _
  | delivered w _ | undelivered w _ => some w
  | _ => none

@[simp] theorem Worker.engagement_notify (v : Worker π ω) : v.notify.engagement = v.engagement := by
  cases v <;> rfl

theorem Worker.Step.engagement_of_called {p : Pool π ω} {i : Nat} {l : Label π ω}
    {v v' : Worker π ω} {es : List (Event π ω)} (h : Step p i l v v' es) {k : Nat} {w : Work π}
    (hcalled : .called k w ∈ es) : v.engagement = some w := by
  cases h with
  | call w' began hat =>
    cases List.mem_singleton.mp hcalled
    rcases hat with rfl | rfl <;> rfl
  | _ => simp at hcalled

inductive Coordinator.Step (p : Pool π ω) : Label π ω → Coordinator π → Coordinator π → Prop
  | turn {c c'} (hturn : Turn p c c') (hawake : c ≠ .asleep) : Step p .coordinate c c'
  | wake : Step p .rouse .asleep .checking
  | pop (j : Job π) (js : List (Job π)) (hline : p.queue.line = j :: js) :
      Step p .coordinate .popping (.holding j)
  | giveUp (j : Job π) (hclosed : p.queue.closed = true) :
      Step p .coordinate (.holding j) .stopped
  | fail (j : Job π) (hended : p.workers.all Worker.hasEnded = true) :
      Step p .coordinate (.offering j) .stopped
  | handOver (i : Nat) (j : Job π) (hi : p.workers[i]? = some .receiving) :
      Step p (.handOver i) (.offering j) .checking

namespace Pool

/-- What is recorded of a worker, from the last event to the first. -/
def log (p : Pool π ω) (i : Nat) : List (Event π ω) :=
  p.history.filter fun e => e.worker? = some i

variable {p q : Pool π ω} {l : Label π ω} {i : Nat} {w : Worker π ω}

theorem log_note {e : Event π ω} {k : Nat} (h : q.history = e :: p.history)
    (he : e.worker? = some k) (m : Nat) :
    q.log m = (if m = k then [e] else []) ++ p.log m := by
  rw [log, h, List.filter_cons, he]
  by_cases hm : m = k
  · simp [hm, log]
  · simp [hm, Ne.symm hm, log]

theorem log_reserve (p : Pool π ω) (ids : List JobId) (i : Nat) :
    (p.reserve ids).log i = p.log i := by
  rcases p.reserve_cases ids with heq | ⟨-, heq⟩
  · rw [heq]
  · rw [heq]
    simp [log, record, Event.worker?]

theorem Move.length_workers (h : Move p l q) : q.workers.length = p.workers.length := by
  cases h with
  | reserve hcall hids => rw [← p.workers_reserve _]; rfl
  | prepare hat hmode hmore hids => simp [setWorker]
  | trigger hcall => simp [setCall, Pool.trigger, record]
  | work hat hturn hawake => simp [setWorker]
  | giveUp hat hfired => simp [setWorker, drop, record]
  | begin hat => simp [setWorker, record]
  | call hat => simp [Pool.call, setWorker, record]
  | write t hat ht hkept hfree => simp [setWorker, record, setTicket]
  | miss hat hmiss => simp [setWorker]
  | finish hat => simp [setWorker, drop]
  | handOver hat hi => simp [setWorker, record]
  | answer r hat => simp [setWorker, record]
  | rouseWorker hat => simp [setWorker]
  | _ => rfl

theorem length_workers_of_run {c : Config} {operation : String} {ls : List (Label π ω)}
    (h : (Pool.start c operation).run? ls = some p) : p.workers.length = max c.workers 1 :=
  invariant_run? (I := fun p => p.workers.length = max c.workers 1)
    (fun hp hmove => hmove.length_workers.trans hp) List.length_replicate h

/-- What a move with a label does to the worker with the number `i`. -/
def WorkerMove (p q : Pool π ω) (l : Label π ω) (i : Nat) (w : Worker π ω) : Prop :=
  ∃ w' es, q.workers[i]? = some w' ∧ q.log i = es ++ p.log i ∧
    (Worker.Step p i l w w' es ∨
      l.worker? ≠ some i ∧ es = [] ∧ (w' = w ∨ q.triggered = true ∧ w' = w.notify))

theorem WorkerMove.stay (hat : p.workers[i]? = some w) (hl : l.worker? = none)
    (hworkers : q.workers = p.workers) (hlog : q.log i = p.log i) : WorkerMove p q l i w :=
  ⟨w, [], hworkers ▸ hat, hlog, .inr ⟨by simp [hl], rfl, .inl rfl⟩⟩

theorem WorkerMove.exchange (hat : p.workers[i]? = some w) {k : Nat} {v v' : Worker π ω}
    {es : List (Event π ω)} (hk : p.workers[k]? = some v) (hl : l.worker? = some k)
    (hworkers : q.workers = p.workers.set k v')
    (hlog : ∀ m, q.log m = (if m = k then es else []) ++ p.log m)
    (hstep : Worker.Step p k l v v' es) : WorkerMove p q l i w := by
  by_cases hi : i = k
  · subst hi
    rw [hk] at hat
    cases hat
    have hlt := (List.getElem?_eq_some_iff.mp hk).1
    refine ⟨v', es, ?_, ?_, .inl hstep⟩
    · rw [hworkers, List.getElem?_set_self hlt]
    · simpa using hlog i
  · refine ⟨w, [], ?_, ?_, .inr ⟨?_, rfl, .inl rfl⟩⟩
    · rw [hworkers, List.getElem?_set_ne (Ne.symm hi)]
      exact hat
    · simpa [hi] using hlog i
    · rw [hl]
      exact fun heq => hi (Option.some.inj heq).symm

theorem Move.worker (h : Move p l q) (hat : p.workers[i]? = some w) : WorkerMove p q l i w := by
  cases h with
  | reserve hcall hids => exact .stay hat rfl (p.workers_reserve _) (p.log_reserve _ i)
  | trigger hcall =>
    refine ⟨w.notify, [], ?_, ?_, .inr ⟨by simp [Label.worker?], rfl, .inr ⟨rfl, rfl⟩⟩⟩
    · simp [setCall, Pool.trigger, record, hat]
    · simp [log, setCall, Pool.trigger, record, Event.worker?]
  | work hk hturn hawake =>
    exact .exchange hat hk rfl rfl (by simp [log, setWorker]) (.turn hturn hawake)
  | giveUp hk hfired =>
    exact .exchange hat hk rfl rfl (by simp [log, record, drop, setWorker, Event.worker?])
      (.giveUp _ hfired)
  | begin hk => exact .exchange hat hk rfl rfl (log_note rfl rfl) (.begin _)
  | @prepare k ids w began hk hmode hmore hids =>
    refine .exchange hat hk rfl ?_ (fun m => (p.log_reserve ids m).trans ?_) (.prepare w began)
    · simp [setWorker]
    · simp
  | call hk =>
    rcases hk with ⟨hk, -⟩ | hk
    · exact .exchange hat hk rfl rfl (log_note rfl rfl) (.call _ _ (.inl rfl))
    · exact .exchange hat hk rfl rfl (log_note rfl rfl) (.call _ _ (.inr rfl))
  | write t hk ht hkept hfree =>
    exact .exchange hat hk rfl rfl (log_note rfl rfl) (.write _ _ _)
  | miss hk hmiss => exact .exchange hat hk rfl rfl (by simp [log, setWorker]) (.miss _ _ _)
  | finish hk =>
    rcases hk with ⟨hk, rfl⟩ | ⟨hk, rfl⟩
    · exact .exchange hat hk rfl rfl (by simp [log, setWorker, drop]) (.finish _ _)
    · exact .exchange hat hk rfl rfl (by simp [log, setWorker, drop]) (.letGo _ _)
  | handOver hj hk => exact .exchange hat hk rfl rfl (log_note rfl rfl) (.receive _ hj)
  | answer x hk => exact .exchange hat hk rfl rfl (log_note rfl rfl) (.answer _ _ x)
  | rouseWorker hk => exact .exchange hat hk rfl rfl (by simp [log, setWorker]) (.wake _)
  | _ => exact .stay hat rfl rfl (by simp [log, record, drop, addCall, Event.worker?,
      Pool.setTicket, setCall, Pool.shut])

theorem Move.worker_of_after (h : Move p l q) {w' : Worker π ω} (hat' : q.workers[i]? = some w') :
    ∃ w es, p.workers[i]? = some w ∧ q.log i = es ++ p.log i ∧
      (Worker.Step p i l w w' es ∨
        l.worker? ≠ some i ∧ es = [] ∧ (w' = w ∨ q.triggered = true ∧ w' = w.notify)) := by
  have hlt := (List.getElem?_eq_some_iff.mp hat').1
  rw [h.length_workers] at hlt
  have hat := List.getElem?_eq_getElem hlt
  obtain ⟨v, es, hv, hlog, hcase⟩ := h.worker hat
  cases hv.symm.trans hat'
  exact ⟨_, es, hat, hlog, hcase⟩

theorem Move.log_of_none (h : Move p l q) (hnone : p.workers[i]? = none) : q.log i = p.log i := by
  have hother : ∀ {k : Nat} {v : Worker π ω} {e : Event π ω}, p.workers[k]? = some v →
      (if i = k then [e] else []) ++ p.log i = p.log i := by
    intro k v e hk
    have hne : i ≠ k := by
      rintro rfl
      rw [hnone] at hk
      cases hk
    simp [hne]
  cases h with
  | reserve hcall hids => exact p.log_reserve _ i
  | prepare hk hmode hmore hids => exact p.log_reserve _ i
  | begin hk => exact (log_note rfl rfl i).trans (hother hk)
  | call hk =>
    rcases hk with ⟨hk, -⟩ | hk
    · exact (log_note rfl rfl i).trans (hother hk)
    · exact (log_note rfl rfl i).trans (hother hk)
  | write t hk ht hkept hfree => exact (log_note rfl rfl i).trans (hother hk)
  | handOver hj hk => exact (log_note rfl rfl i).trans (hother hk)
  | answer x hk => exact (log_note rfl rfl i).trans (hother hk)
  | _ => simp [log, record, drop, addCall, Event.worker?, Pool.setTicket, setCall, Pool.shut,
      Pool.trigger, setWorker]

/-- A worker with the number has the work for its engagement. -/
def Engages (p : Pool π ω) (i : Nat) (w : Work π) : Prop :=
  ∃ v, p.workers[i]? = some v ∧ v.engagement = some w

/-- The transport is called by workers, and for what they are engaged in. -/
theorem Move.called (h : Move p l q) :
    ∃ es, q.history = es ++ p.history ∧ ∀ i w, .called i w ∈ es → p.Engages i w := by
  obtain ⟨es, hes⟩ := h.exists_history_eq
  refine ⟨es, hes, fun i w hmem => ?_⟩
  have hlog : q.log i = (es.filter fun e => e.worker? = some i) ++ p.log i := by
    rw [log, hes, List.filter_append]
    rfl
  have hnoted : .called i w ∈ es.filter fun e => e.worker? = some i := by
    simp [hmem, Event.worker?]
  cases hat : p.workers[i]? with
  | none =>
    rw [h.log_of_none hat] at hlog
    rw [List.self_eq_append_left.mp hlog] at hnoted
    cases hnoted
  | some v =>
    obtain ⟨v', es', -, hes', hstep⟩ := h.worker hat
    rw [hes', List.append_cancel_right_eq] at hlog
    rw [← hlog] at hnoted
    rcases hstep with hstep | ⟨-, rfl, -⟩
    · exact ⟨v, hat, hstep.engagement_of_called hnoted⟩
    · cases hnoted

/-- A reservation tells the coordinator if it adds something to the queue. -/
theorem coordinator_reserve (p : Pool π ω) (ids : List JobId) :
    (p.reserve ids).coordinator = p.coordinator ∨
      (p.reserve ids).coordinator = p.coordinator.notify ∧ (p.reserve ids).queue.line ≠ [] := by
  cases ids with
  | nil =>
    left
    unfold reserve Queue.reserve
    cases p.queue.closed <;> rfl
  | cons id ids =>
    rcases p.reserve_cases (id :: ids) with heq | ⟨-, heq⟩
    · exact .inl (by rw [heq])
    · right
      rw [heq]
      have hperm := p.queue.line_insertPlaceholders_perm (id :: ids)
      exact ⟨rfl, List.ne_nil_of_mem (hperm.symm.subset List.mem_cons_self)⟩

/-- What a move does to the coordinator. It is told of a queue that holds something or is
closed. -/
theorem Move.coordinator (h : Move p l q) :
    Coordinator.Step p l p.coordinator q.coordinator ∨ q.coordinator = p.coordinator ∨
      q.coordinator = p.coordinator.notify ∧ (q.queue.line ≠ [] ∨ q.queue.closed = true) := by
  cases h with
  | accept w hw hopen =>
    have hperm := p.queue.line_insertSorted_perm (.work w)
    exact .inr (.inr ⟨rfl, .inl (List.ne_nil_of_mem (hperm.symm.subset List.mem_cons_self))⟩)
  | reserve hcall hids =>
    rcases p.coordinator_reserve _ with heq | ⟨heq, hsome⟩
    · exact .inr (.inl heq)
    · exact .inr (.inr ⟨heq, .inl hsome⟩)
  | prepare hk hmode hmore hids =>
    rcases p.coordinator_reserve _ with heq | ⟨heq, hsome⟩
    · exact .inr (.inl heq)
    · exact .inr (.inr ⟨heq, .inl hsome⟩)
  | shut hcall => exact .inr (.inr ⟨rfl, .inr rfl⟩)
  | coordinate hturn hawake => exact .inl (.turn hturn hawake)
  | pop hat hline => exact .inl (hat ▸ .pop _ _ hline)
  | abandon hat =>
    rcases hat with ⟨hat, hclosed⟩ | ⟨hat, hended⟩
    · exact .inl (hat ▸ .giveUp _ hclosed)
    · exact .inl (hat ▸ .fail _ hended)
  | rouse hat => exact .inl (hat ▸ .wake)
  | handOver hat hi => exact .inl (hat ▸ .handOver _ _ hi)
  | _ => exact .inr (.inl rfl)

end Pool
end PacedJobs
