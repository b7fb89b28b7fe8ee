import PacedJobs.Proofs.Pool.Channels

/-!
# Where results come from

A worker has called the transport for the work that it runs. The result that it is to write is the
answer that it was given for this work, and a failure is wrapped in the name of the worker, of the
job and of the operation.
-/

namespace PacedJobs

variable {π ω : Type}

/-- What a ticket gets for an answer that a worker was given. -/
def Answer (operation : String) (history : List (Event π ω)) (i : Nat) (w : Work π)
    (r : Except JobError ω) : Prop :=
  ∃ x : Except Failure ω, .returned i w x ∈ history ∧
    r = x.mapError fun f => .transport i w.id operation f

/-- The history bears out what a worker with a number does. -/
def Worker.Backed (operation : String) (history : List (Event π ω)) (i : Nat) :
    Worker π ω → Prop
  | executing w _ | delivered w _ | undelivered w _ => .called i w ∈ history
  | replying w r _ => .called i w ∈ history ∧ Answer operation history i w r
  | _ => True

/-- The history bears out what comes after a call. -/
def Event.Backed (operation : String) (history : List (Event π ω)) : Event π ω → Prop
  | returned i w _ => .called i w ∈ history
  | written i w r => Answer operation history i w r
  | _ => True

section Mono

variable {operation : String} {history history' : List (Event π ω)} {i : Nat}

theorem Answer.mono (hsub : history ⊆ history') {w : Work π} {r : Except JobError ω}
    (h : Answer operation history i w r) : Answer operation history' i w r := by
  obtain ⟨x, hx, hr⟩ := h
  exact ⟨x, hsub hx, hr⟩

theorem Worker.Backed.mono (hsub : history ⊆ history') {w : Worker π ω}
    (h : w.Backed operation history i) : w.Backed operation history' i := by
  cases w with
  | executing w began => exact hsub h
  | delivered w began => exact hsub h
  | undelivered w began => exact hsub h
  | replying w r began => exact ⟨hsub h.1, h.2.mono hsub⟩
  | _ => trivial

theorem Worker.Backed.of_mem_unanswered {v : Worker π ω} (h : v.Backed operation history i)
    {j : Job π} (hj : j ∈ v.unanswered) :
    ∃ w, j = .work w ∧ .work w ∈ v.running ∧ .called i w ∈ history := by
  cases v with
  | executing w began =>
    exact ⟨w, List.mem_singleton.mp hj, List.mem_singleton.mpr rfl, h⟩
  | replying w r began =>
    exact ⟨w, List.mem_singleton.mp hj, List.mem_singleton.mpr rfl, h.1⟩
  | _ => cases hj

theorem Event.Backed.mono (hsub : history ⊆ history') {e : Event π ω}
    (h : e.Backed operation history) : e.Backed operation history' := by
  cases e with
  | returned i w x => exact hsub h
  | written i w r => exact Answer.mono hsub h
  | _ => trivial

theorem Worker.Turn.backed {p : Pool π ω} {w w' : Worker π ω} (h : Turn p w w') :
    w'.Backed operation history i := by
  cases h <;> trivial

end Mono

namespace Pool

/-- The history bears out where the workers are and all that has happened. -/
structure Answering (operation : String) (p : Pool π ω) : Prop where
  operation_eq : p.operation = operation
  worker : ∀ i (w : Worker π ω), p.workers[i]? = some w → w.Backed operation p.history i
  event : ∀ e ∈ p.history, e.Backed operation p.history

variable {operation : String} {p q : Pool π ω} {l : Label π ω}

namespace Answering

theorem record (h : Answering operation p) (es : List (Event π ω))
    (hoperation : q.operation = p.operation) (hhistory : q.history = es ++ p.history)
    (hworkers : ∀ i (w : Worker π ω), q.workers[i]? = some w →
      w.Backed operation q.history i ∨ p.workers[i]? = some w)
    (hes : ∀ e ∈ es, e.Backed operation q.history) : Answering operation q := by
  have hsub : p.history ⊆ q.history := hhistory ▸ List.subset_append_right es p.history
  constructor
  · rw [hoperation, h.operation_eq]
  · intro i w hw
    rcases hworkers i w hw with hbacked | hw
    · exact hbacked
    · exact (h.worker i w hw).mono hsub
  · intro e he
    rw [hhistory, List.mem_append] at he
    rcases he with he | he
    · exact hes e he
    · exact (h.event e he).mono hsub

/-- Nothing but the queue, the coordinator, the clients and the clock moves. -/
theorem frame (h : Answering operation p) (hoperation : q.operation = p.operation)
    (hworkers : q.workers = p.workers) (hhistory : q.history = p.history) :
    Answering operation q := by
  refine h.record [] hoperation hhistory ?_ (by simp)
  intro i w hw
  exact .inr (hworkers ▸ hw)

theorem note (h : Answering operation p) (e : Event π ω) (hoperation : q.operation = p.operation)
    (hworkers : q.workers = p.workers) (hhistory : q.history = e :: p.history)
    (he : e.Backed operation q.history) : Answering operation q := by
  refine h.record [e] hoperation hhistory ?_ (by simpa using he)
  intro i w hw
  exact .inr (hworkers ▸ hw)

theorem exchange (h : Answering operation p) (es : List (Event π ω)) (i : Nat) (w : Worker π ω)
    (hoperation : q.operation = p.operation) (hworkers : q.workers = p.workers.set i w)
    (hhistory : q.history = es ++ p.history) (hw : w.Backed operation q.history i)
    (hes : ∀ e ∈ es, e.Backed operation q.history) : Answering operation q := by
  refine h.record es hoperation hhistory ?_ hes
  intro k v hv
  rw [hworkers, List.getElem?_set] at hv
  split at hv
  next hk =>
    split at hv
    · cases hv
      subst hk
      exact .inl hw
    · cases hv
  next => exact .inr hv

theorem reserve (h : Answering operation p) (ids : List JobId) :
    Answering operation (p.reserve ids) := by
  rcases p.reserve_cases ids with heq | ⟨-, heq⟩
  · rwa [heq]
  · rw [heq]
    exact h.note (.reserved ids) rfl rfl rfl trivial

theorem move (h : Answering operation p) (hmove : Move p l q) : Answering operation q := by
  cases hmove with
  | refuse w hw hclosed => exact h.note (.refused w) rfl rfl rfl trivial
  | accept w hw hopen => exact h.note (.pushed w) rfl rfl rfl trivial
  | cancelMiss hmiss => exact h
  | cancel j queue hdelete => exact h.note (.cancelled [j]) rfl rfl rfl trivial
  | sweepPanic queue hsweep => exact h.frame rfl rfl rfl
  | sweep js queue hsweep => exact h.note (.cancelled js) rfl rfl rfl trivial
  | close => exact h.frame rfl rfl rfl
  | reserve hcall hids => exact (h.reserve _).frame rfl rfl rfl
  | trigger hcall =>
    refine h.record [.triggered] rfl rfl ?_ (by simp [Event.Backed])
    intro i w hw
    have hw : (p.workers.map Worker.notify)[i]? = some w := hw
    rw [List.getElem?_map] at hw
    obtain ⟨v, hv, rfl⟩ := Option.map_eq_some_iff.mp hw
    cases v with
    | asleep deadline => exact .inl trivial
    | _ => exact .inr hv
  | shut hcall => exact h.note (.closed p.queue.jobs) rfl rfl rfl trivial
  | poll t ht hkept => exact h.frame rfl rfl rfl
  | forget t ht hkept => exact h.frame rfl rfl rfl
  | coordinate hturn hawake => exact h.frame rfl rfl rfl
  | @pop j js hat hline => exact h.note (.popped j) rfl rfl rfl trivial
  | @abandon j hat => exact h.note (.abandoned j) rfl rfl rfl trivial
  | rouse hat => exact h.frame rfl rfl rfl
  | work hat hturn hawake => exact h.exchange [] _ _ rfl rfl rfl hturn.backed (by simp)
  | @giveUp i ids j hat hfired =>
    exact h.exchange [.abandoned j] _ _ rfl rfl rfl trivial (by simp [Event.Backed])
  | @begin i ids j hat =>
    exact h.exchange [.began i j p.now] _ _ rfl rfl rfl trivial (by simp [Event.Backed])
  | @prepare i ids w began hat hmode hmore hids =>
    exact (h.reserve ids).exchange [] _ _ rfl rfl rfl trivial (by simp)
  | @call i ids w began hat =>
    refine h.exchange [.called i w] _ _ rfl rfl rfl ?_ (by simp [Event.Backed])
    exact List.mem_cons_self
  | @write i ids w r began t hat ht hkept hfree =>
    have hreply := h.worker i _ hat
    refine h.exchange [.written i w r] _ _ rfl rfl rfl ?_ ?_
    · exact List.mem_cons_of_mem _ hreply.1
    · intro e he
      rw [List.mem_singleton.mp he]
      exact hreply.2.mono (List.subset_cons_self _ _)
  | @miss i ids w r began hat hmiss =>
    have hreply := h.worker i _ hat
    exact h.exchange [] _ _ rfl rfl rfl hreply.1 (by simp)
  | @finish i ids w began w' hat =>
    refine h.exchange [] i w' rfl rfl rfl ?_ (by simp)
    rcases hat with ⟨-, rfl⟩ | ⟨-, rfl⟩
    · trivial
    · cases p.triggered <;> trivial
  | @handOver i j hat hi =>
    exact h.exchange [.received i j] _ _ rfl rfl rfl trivial (by simp [Event.Backed])
  | @answer i w began r hat =>
    have hcalled := h.worker i _ hat
    refine h.exchange [.returned i w r] _ _ rfl rfl rfl ?_ ?_
    · refine ⟨List.mem_cons_of_mem _ hcalled, r, List.mem_cons_self, ?_⟩
      rw [resultOf, h.operation_eq]
    · intro e he
      rw [List.mem_singleton.mp he]
      exact List.mem_cons_of_mem _ hcalled
  | rouseWorker hat => exact h.exchange [] _ _ rfl rfl rfl trivial (by simp)
  | elapse time => exact h.frame rfl rfl rfl

theorem start (c : Config) (operation : String) :
    Answering operation (Pool.start c operation : Pool π ω) := by
  refine ⟨rfl, ?_, by simp [Pool.start]⟩
  intro i w hw
  rw [List.eq_of_mem_replicate (List.mem_of_getElem? hw)]
  trivial

theorem of_run {c : Config} {ls : List (Label π ω)}
    (h : (Pool.start c operation).run? ls = some p) : Answering operation p :=
  invariant_run? (fun hp hmove => hp.move hmove) (start c operation) h

end Answering
end Pool
end PacedJobs
