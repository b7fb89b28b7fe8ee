import PacedJobs.Proofs.Pool.Run
import PacedJobs.Proofs.Queue.Contents
import PacedJobs.Proofs.Queue.Weights

/-!
# Who has a job

Every job that was pushed, refused or reserved is pending, in the hands of the coordinator or of a
worker, or it has left for a reason that the history records. This is stated as a law of
conservation: whatever jobs are made to weigh, what has arrived weighs as much as what is kept
together with what has left. In the same way no more work runs than the transport was called for,
and no more results are written.
-/

namespace PacedJobs

variable {π ω : Type}

/-- The job that the coordinator has popped and not given away. -/
def Coordinator.hand : Coordinator π → List (Job π)
  | holding j | offering j => [j]
  | _ => []

@[simp] theorem Coordinator.hand_notify (c : Coordinator π) : c.notify.hand = c.hand := by
  cases c <;> rfl

theorem Coordinator.Turn.hand_eq {p : Pool π ω} {c c' : Coordinator π} (h : Turn p c c') :
    c'.hand = c.hand := by
  cases h <;> rfl

namespace Worker

/-- The job that a worker has received and not begun. A placeholder is spent when its cycle begins,
and work when the transport is called. -/
def hand : Worker π ω → List (Job π)
  | received j | admitted j => [j]
  | processing (.work w) _ | ready w _ => [.work w]
  | _ => []

/-- The work for which a worker has called the transport and which it has not put away. -/
def running : Worker π ω → List (Job π)
  | executing w _ | replying w _ _ | delivered w _ | undelivered w _ => [.work w]
  | _ => []

/-- The running work for which nothing was written yet. -/
def unanswered : Worker π ω → List (Job π)
  | executing w _ | replying w _ _ => [.work w]
  | _ => []

theorem unanswered_subset_running (w : Worker π ω) : w.unanswered ⊆ w.running := by
  cases w with
  | executing w began => exact List.Subset.refl _
  | replying w r began => exact List.Subset.refl _
  | _ => exact List.nil_subset _

@[simp] theorem hand_notify (w : Worker π ω) : w.notify.hand = w.hand := by
  cases w <;> rfl

@[simp] theorem running_notify (w : Worker π ω) : w.notify.running = w.running := by
  cases w <;> rfl

@[simp] theorem unanswered_notify (w : Worker π ω) : w.notify.unanswered = w.unanswered := by
  cases w <;> rfl

namespace Turn

variable {p : Pool π ω} {w w' : Worker π ω}

theorem hand_eq (h : Turn p w w') : w'.hand = w.hand := by
  cases h <;> rfl

theorem running_eq (h : Turn p w w') : w'.running = w.running := by
  cases h <;> rfl

theorem unanswered_eq (h : Turn p w w') : w'.unanswered = w.unanswered := by
  cases h <;> rfl

end Turn
end Worker

namespace Event

def arrivals : Event π ω → List (Job π)
  | pushed w | refused w => [.work w]
  | reserved ids => ids.map .placeholder
  | _ => []

/-- The jobs that leave with an event. Work leaves when the transport is called for it. -/
def departures : Event π ω → List (Job π)
  | refused w => [.work w]
  | cancelled js | closed js => js
  | abandoned j => [j]
  | began _ (.placeholder id) _ => [.placeholder id]
  | called _ w => [.work w]
  | _ => []

def executed : Event π ω → List (Job π)
  | called _ w => [.work w]
  | _ => []

def answered : Event π ω → List (Job π)
  | written _ w _ => [.work w]
  | _ => []

end Event

namespace Pool

def hands (p : Pool π ω) : List (Job π) :=
  p.workers.flatMap Worker.hand

/-- The jobs that nobody has begun. -/
def kept (p : Pool π ω) : List (Job π) :=
  p.queue.line ++ p.coordinator.hand ++ p.hands

def running (p : Pool π ω) : List (Job π) :=
  p.workers.flatMap Worker.running

def unanswered (p : Pool π ω) : List (Job π) :=
  p.workers.flatMap Worker.unanswered

def arrivals (p : Pool π ω) : List (Job π) :=
  p.history.flatMap Event.arrivals

def departures (p : Pool π ω) : List (Job π) :=
  p.history.flatMap Event.departures

def executed (p : Pool π ω) : List (Job π) :=
  p.history.flatMap Event.executed

def answered (p : Pool π ω) : List (Job π) :=
  p.history.flatMap Event.answered

/-- The books of a pool balance under a weight. -/
structure Balanced (p : Pool π ω) (f : Job π → Nat) : Prop where
  conserved : weigh f p.kept + weigh f p.departures = weigh f p.arrivals
  running_le : weigh f p.running ≤ weigh f p.executed
  answered_le : weigh f p.answered + weigh f p.unanswered ≤ weigh f p.executed

variable {p q : Pool π ω} {l : Label π ω} {f : Job π → Nat}

theorem hand_eq_of_abandon {j : Job π} (hat : p.coordinator = .holding j ∧ p.queue.closed = true ∨
    p.coordinator = .offering j ∧ p.workers.all Worker.hasEnded = true) :
    p.coordinator.hand = [j] := by
  rcases hat with ⟨hat, -⟩ | ⟨hat, -⟩ <;> rw [hat, Coordinator.hand]

/-- A worker that puts its work away has run that, and has nothing then. -/
theorem exists_of_finish {i : Nat} {w : Work π} {began : Nat} {w' : Worker π ω}
    (hat : p.workers[i]? = some (.delivered w began) ∧ w' = .measuring began ∨
      p.workers[i]? = some (.undelivered w began) ∧
        w' = if p.triggered then .stopped else .measuring began) :
    (∃ v : Worker π ω, p.workers[i]? = some v ∧ v.hand = [] ∧ v.running = [.work w] ∧
      v.unanswered = []) ∧ w'.hand = [] ∧ w'.running = [] ∧ w'.unanswered = [] := by
  rcases hat with ⟨hat, rfl⟩ | ⟨hat, rfl⟩
  · exact ⟨⟨_, hat, rfl, rfl, rfl⟩, rfl, rfl, rfl⟩
  · refine ⟨⟨_, hat, rfl, rfl, rfl⟩, ?_⟩
    cases p.triggered <;> exact ⟨rfl, rfl, rfl⟩

namespace Balanced

theorem reserve (h : Balanced p f) (ids : List JobId) : Balanced (p.reserve ids) f := by
  rcases p.reserve_cases ids with heq | ⟨-, heq⟩
  · rwa [heq]
  · have hline := weigh_perm (f := f) (p.queue.line_insertPlaceholders_perm ids)
    obtain ⟨hconserved, hrunning, hanswered⟩ := h
    rw [heq]
    refine ⟨?_, hrunning, hanswered⟩
    simp only [kept, record, Coordinator.hand_notify, hands, departures, arrivals,
      List.flatMap_cons, Event.arrivals, Event.departures, weigh_append, weigh_nil] at *
    omega

/-- The queue and the coordinator move, and the event says what has come and gone. -/
theorem record (h : Balanced p f) (queue : Queue π) (c : Coordinator π) (e : Event π ω)
    (hkept : weigh f queue.line + weigh f c.hand + weigh f e.departures =
      weigh f p.queue.line + weigh f p.coordinator.hand + weigh f e.arrivals)
    (hquiet : e.answered = []) :
    Balanced ({ p with queue := queue, coordinator := c }.record e) f := by
  obtain ⟨hconserved, hrunning, hanswered⟩ := h
  simp only [kept, hands, departures, arrivals, weigh_append] at hconserved
  simp only [running, executed, answered, unanswered] at hrunning hanswered
  refine ⟨?_, ?_, ?_⟩
  all_goals
    simp only [kept, hands, departures, arrivals, running, executed, answered, unanswered,
      Pool.record, List.flatMap_cons, weigh_append, hquiet, weigh_nil]
    omega

/-- A worker moves, and the event says what it has begun and done. -/
theorem exchange (h : Balanced p f) {i : Nat} {w w' : Worker π ω} (es : List (Event π ω))
    (hat : p.workers[i]? = some w)
    (hhand : weigh f w'.hand + weigh f (es.flatMap Event.departures) = weigh f w.hand)
    (hnew : es.flatMap Event.arrivals = [])
    (hrunning : weigh f w'.running ≤ weigh f w.running + weigh f (es.flatMap Event.executed))
    (hanswered : weigh f (es.flatMap Event.answered) + weigh f w'.unanswered ≤
      weigh f w.unanswered + weigh f (es.flatMap Event.executed)) :
    Balanced { p.setWorker i w' with history := es ++ p.history } f := by
  have hhands := weigh_flatMap_set (f := f) Worker.hand hat w'
  have hruns := weigh_flatMap_set (f := f) Worker.running hat w'
  have hawaited := weigh_flatMap_set (f := f) Worker.unanswered hat w'
  obtain ⟨hconserved, hrunning', hanswered'⟩ := h
  simp only [kept, hands, departures, arrivals, weigh_append] at hconserved
  simp only [running, executed, answered, unanswered] at hrunning' hanswered'
  refine ⟨?_, ?_, ?_⟩
  all_goals
    simp only [kept, hands, departures, arrivals, running, executed, answered, unanswered,
      setWorker, List.flatMap_append, weigh_append, hnew, weigh_nil]
    omega

/-- Tickets, calls, the signal and the clock are not in the books. -/
theorem frame (h : Balanced p f) (tickets : Tickets ω) (calls : List Call) (triggered : Bool)
    (now : Nat) :
    Balanced { p with tickets := tickets, calls := calls, triggered := triggered, now := now } f :=
  ⟨h.conserved, h.running_le, h.answered_le⟩

theorem trigger (h : Balanced p f) : Balanced p.trigger f := by
  obtain ⟨hconserved, hrunning, hanswered⟩ := h
  refine ⟨?_, ?_, ?_⟩
  all_goals
    simpa only [Pool.trigger, Pool.record, kept, hands, departures, arrivals, running, executed,
      answered, unanswered, List.flatMap_map, Worker.hand_notify, Worker.running_notify,
      Worker.unanswered_notify, List.flatMap_cons, Event.departures, Event.arrivals,
      Event.executed, Event.answered, List.nil_append]

theorem move (h : Balanced p f) (hmove : Move p l q) : Balanced q f := by
  cases hmove with
  | refuse w hw hclosed =>
    exact (h.record p.queue p.coordinator (.refused w) rfl rfl).frame _ _ _ _
  | accept w hw hopen =>
    have hline := weigh_perm (f := f) (p.queue.line_insertSorted_perm (.work w))
    refine (h.record _ _ (.pushed w) ?_ rfl).frame _ _ _ _
    simp only [Event.departures, Event.arrivals, Coordinator.hand_notify, weigh_cons,
      weigh_nil] at *
    omega
  | cancelMiss hmiss => exact h
  | cancel j q hdelete =>
    have hline := weigh_perm (f := f) (Queue.line_perm_of_delete hdelete)
    refine (h.record _ p.coordinator (.cancelled [j]) ?_ rfl).frame _ _ _ _
    simp only [Event.departures, Event.arrivals, weigh_cons, weigh_nil] at *
    omega
  | sweepPanic queue hsweep =>
    have hline := weigh_perm (f := f) (Queue.line_perm_of_deleteWhere_panic hsweep)
    refine ⟨?_, h.running_le, h.answered_le⟩
    have hconserved := h.conserved
    simp only [kept, hands, departures, arrivals, weigh_append] at *
    omega
  | sweep js queue hsweep =>
    have hline := weigh_perm (f := f) (Queue.line_perm_of_deleteWhere hsweep)
    refine (h.record _ p.coordinator (.cancelled js) ?_ rfl).frame _ _ _ _
    simp only [Event.departures, Event.arrivals, weigh_append, weigh_nil] at *
    omega
  | close => exact h.frame _ _ _ _
  | reserve hcall hids => exact (h.reserve _).frame _ _ _ _
  | trigger hcall => exact h.trigger.frame _ _ _ _
  | shut hcall =>
    have hline := weigh_perm (f := f) p.queue.jobs_perm
    refine (h.record p.queue.close.2 p.coordinator.notify
      (.closed p.queue.jobs) ?_ rfl).frame _ _ _ _
    simp only [Queue.close] at *
    simp only [Event.departures, Event.arrivals, Coordinator.hand_notify, weigh_nil] at *
    omega
  | poll t ht hkept => exact h.frame _ _ _ _
  | forget t ht hkept => exact h.frame _ _ _ _
  | coordinate hturn hawake =>
    refine ⟨?_, h.running_le, h.answered_le⟩
    have hconserved := h.conserved
    simpa only [kept, hands, departures, arrivals, hturn.hand_eq] using hconserved
  | pop hat hline =>
    refine h.record _ _ _ ?_ rfl
    simp only [hline, hat, Coordinator.hand, Event.departures, Event.arrivals, weigh_cons,
      weigh_nil]
    omega
  | @abandon j hat =>
    refine (h.record p.queue .stopped (.abandoned j) ?_ rfl).frame _ _ _ _
    rw [hand_eq_of_abandon hat]
    simp only [Coordinator.hand, Event.departures, Event.arrivals, weigh_cons, weigh_nil]
    omega
  | rouse hat =>
    refine ⟨?_, h.running_le, h.answered_le⟩
    have hconserved := h.conserved
    simpa only [kept, hands, departures, arrivals, hat, Coordinator.hand] using hconserved
  | work hat hturn hawake =>
    refine h.exchange [] hat ?_ rfl ?_ ?_
    · simp [hturn.hand_eq]
    · simp [hturn.running_eq]
    · simp [hturn.unanswered_eq]
  | @giveUp i ids j hat hfired =>
    refine (h.exchange [.abandoned j] hat ?_ rfl ?_ ?_).frame _ _ _ _
    all_goals simp [Worker.hand, Worker.running, Worker.unanswered, Event.departures,
      Event.executed, Event.answered]
  | @begin i ids j hat =>
    refine h.exchange [.began i j p.now] hat ?_ rfl ?_ ?_
    · cases j <;> simp [Worker.hand, Event.departures]
    all_goals simp [Worker.running, Worker.unanswered, Event.executed, Event.answered]
  | @prepare i ids w began hat hmode hmore hids =>
    rw [← p.workers_reserve ids] at hat
    refine (h.reserve ids).exchange [] hat ?_ rfl ?_ ?_
    all_goals simp [Worker.hand, Worker.running, Worker.unanswered]
  | @call i ids w began hat =>
    rcases hat with ⟨hat, -⟩ | hat
    all_goals
      refine h.exchange [.called i w] hat ?_ rfl ?_ ?_
      all_goals simp [Worker.hand, Worker.running, Worker.unanswered, Event.departures,
        Event.executed, Event.answered]
  | @write i ids w r began t hat ht hkept hfree =>
    refine (h.exchange [.written i w r] hat ?_ rfl ?_ ?_).frame _ _ _ _
    all_goals simp [Worker.hand, Worker.running, Worker.unanswered, Event.departures,
      Event.executed, Event.answered]
  | miss hat hmiss =>
    refine h.exchange [] hat ?_ rfl ?_ ?_
    all_goals simp [Worker.hand, Worker.running, Worker.unanswered]
  | @finish i ids w began w' hat =>
    obtain ⟨⟨v, hv, hvhand, hvrunning, hvunanswered⟩, hhand, hrunning, hunanswered⟩ :=
      exists_of_finish hat
    refine (h.exchange [] hv ?_ rfl ?_ ?_).frame _ _ _ _
    · simp [hhand, hvhand]
    · simp [hrunning]
    · simp [hunanswered]
  | @handOver i j hat hi =>
    have hhands := weigh_flatMap_set (f := f) Worker.hand hi (.received j)
    have hruns := weigh_flatMap_set (f := f) Worker.running hi (.received j)
    have hawaited := weigh_flatMap_set (f := f) Worker.unanswered hi (.received j)
    obtain ⟨hconserved, hrunning, hanswered⟩ := h
    refine ⟨?_, ?_, ?_⟩
    all_goals
      simp only [kept, hands, departures, arrivals, running, executed, answered, unanswered,
        Pool.record, setWorker, List.flatMap_cons, weigh_append, weigh_cons, weigh_nil, hat,
        Coordinator.hand, Worker.hand, Worker.running, Worker.unanswered, Event.departures,
        Event.arrivals, Event.executed, Event.answered] at *
      omega
  | @answer i w began r hat =>
    refine h.exchange [.returned i w r] hat ?_ rfl ?_ ?_
    all_goals simp [Worker.hand, Worker.running, Worker.unanswered, Event.departures,
      Event.executed, Event.answered]
  | rouseWorker hat =>
    refine h.exchange [] hat ?_ rfl ?_ ?_
    all_goals simp [Worker.hand, Worker.running, Worker.unanswered]
  | elapse time => exact h.frame _ _ _ _

theorem start (c : Config) (operation : String) :
    Balanced (Pool.start c operation : Pool π ω) f := by
  have hnone : ∀ g : Worker π ω → List (Job π), g .looping = [] →
      (List.replicate (max c.workers 1) .looping).flatMap g = [] := by
    intro g hg
    rw [List.flatMap_eq_nil_iff]
    intro w hw
    rw [List.eq_of_mem_replicate hw, hg]
  constructor <;> simp [Pool.start, kept, hands, departures, arrivals, running, executed, answered,
    unanswered, Queue.empty, Coordinator.hand, hnone Worker.hand rfl, hnone Worker.running rfl,
    hnone Worker.unanswered rfl]

end Balanced
end Pool
end PacedJobs
