import PacedJobs.Proofs.Pool.Budget
import PacedJobs.Session.PoolDesk

/-!
# The slices of a job

Work of several tasks gets a placeholder for every task after the first, once: from the call that
submits it or from the worker that executes it. Placeholders bring nothing themselves, and to cancel
work leaves them where they are.
-/

namespace PacedJobs

variable {π ω : Type}

namespace Sweep

theorem judgeAll_ofPredicate (f : View π → Bool) (seen : Array (View π))
    (judged : List (Job π × Bool)) (jobs : List (Job π)) :
    judgeAll (Judge.ofPredicate f) seen judged jobs =
      (judged.reverse ++ jobs.map fun j => (j, !f j.view), []) := by
  induction jobs generalizing seen judged with
  | nil => simp [judgeAll]
  | cons j js ih => cases h : f j.view <;> simp [judgeAll, Judge.ofPredicate, h, ih]

end Sweep

namespace Queue

/-- A judge without memory takes out what the predicate holds of. -/
theorem deleteWhere_ofPredicate (q : Queue π) (f : View π → Bool) :
    q.deleteWhere (Judge.ofPredicate f) = (some (q.jobs.filter fun j => f j.view),
      q.withJobs (q.jobs.filter fun j => !f j.view)) := by
  simp [deleteWhere, Sweep.run, Sweep.judgeAll_ofPredicate, List.filter_map, Function.comp_def]

theorem filter_eraseP {keep taken : Job π → Bool} {jobs : List (Job π)}
    (h : ∀ j, jobs.find? taken = some j → keep j = false) :
    (jobs.eraseP taken).filter keep = jobs.filter keep := by
  induction jobs with
  | nil => rfl
  | cons j js ih =>
    by_cases hj : taken j = true
    · simp [hj, h j (List.find?_cons_of_pos hj)]
    · rw [List.find?_cons_of_neg hj] at h
      rw [List.eraseP_cons_of_neg hj, List.filter_cons, List.filter_cons, ih h]

end Queue

namespace Pool

variable {c : Config} {operation : String} {p q : Pool π ω} {l : Label π ω}
  {ls : List (Label π ω)} {i : Nat} {w : Work π}

theorem placeholders_cancel {id : JobId}
    (h : ∀ j queue, p.queue.delete id = some (j, queue) → j.isPlaceholder = false) :
    (p.cancel id).2.queue.line.filter Job.isPlaceholder =
      p.queue.line.filter Job.isPlaceholder := by
  unfold cancel
  unfold Queue.delete at h ⊢
  cases hfind : p.queue.jobs.find? (·.id == id) with
  | none => rfl
  | some j =>
    rw [hfind] at h
    refine Queue.filter_line_withJobs (Queue.filter_eraseP fun j' hj' => ?_)
    cases hfind.symm.trans hj'
    exact h j _ rfl

theorem placeholders_cancelBelow (p : Pool π ω) (priority : UInt16) :
    (p.cancelBelow priority).2.queue.line.filter Job.isPlaceholder =
      p.queue.line.filter Job.isPlaceholder := by
  unfold cancelBelow cancelWhere
  rw [Queue.deleteWhere_ofPredicate]
  refine Queue.filter_line_withJobs ?_
  rw [List.filter_filter]
  refine List.filter_congr fun j _ => ?_
  cases j <;> simp [Job.view, Job.isPlaceholder]

/-- The pending placeholders are those of before and those that the step adds, at most. -/
def Inserts (p q : Pool π ω) (ids : List JobId) : Prop :=
  ids = [] ∧ (q.queue.line.filter Job.isPlaceholder).Subperm
      (p.queue.line.filter Job.isPlaceholder) ∨
    q.queue.line.Perm (ids.map .placeholder ++ p.queue.line)

theorem Inserts.of_subperm (hnone : p.slices l = [])
    (h : (q.queue.line.filter Job.isPlaceholder).Subperm (p.queue.line.filter Job.isPlaceholder)) :
    Inserts p q (p.slices l) :=
  .inl ⟨hnone, h⟩

theorem Inserts.of_perm (js : List (Job π)) (hnone : p.slices l = [])
    (h : p.queue.line.Perm (js ++ q.queue.line)) : Inserts p q (p.slices l) := by
  refine .of_subperm hnone ?_
  have hfilter := h.filter Job.isPlaceholder
  rw [List.filter_append] at hfilter
  exact (List.sublist_append_right _ _).subperm.trans hfilter.symm.subperm

theorem Inserts.reserve (h : Move p l q) (ids : List JobId)
    (hqueue : q.queue = (p.reserve ids).queue) (hadded : q.added = (p.reserve ids).added) :
    Inserts p q (p.slices l) := by
  rcases p.reserve_cases ids with heq | ⟨hopen, heq⟩
  · rw [heq] at hqueue hadded
    exact .of_perm [] (slices_eq_nil_of_added h hadded) (hqueue ▸ .refl _)
  · right
    rw [added_reserve, hopen, h.added_eq, List.append_cancel_left_eq] at hadded
    rw [hadded, hqueue, heq]
    exact p.queue.line_insertPlaceholders_perm ids

theorem Move.inserts (h : Move p l q) : Inserts p q (p.slices l) := by
  have hnone := slices_eq_nil_of_added h
  cases h with
  | accept w hw hopen =>
    refine .of_subperm (hnone rfl) ?_
    have hline := (p.queue.line_insertSorted_perm (.work w)).filter Job.isPlaceholder
    exact hline.subperm
  | cancel j queue hdelete =>
    exact .of_perm [j] (hnone rfl) (Queue.line_perm_of_delete hdelete)
  | sweepPanic queue hsweep =>
    exact .of_perm [] (hnone rfl) (Queue.line_perm_of_deleteWhere_panic hsweep).symm
  | sweep js queue hsweep => exact .of_perm js (hnone rfl) (Queue.line_perm_of_deleteWhere hsweep)
  | reserve hcall hids => exact .reserve (.reserve hcall hids) _ rfl rfl
  | prepare hat hmode hmore hids => exact .reserve (.prepare hat hmode hmore hids) _ rfl rfl
  | shut hcall => exact .of_subperm (hnone rfl) (List.nil_sublist _).subperm
  | @pop j js hat hline => exact .of_perm [j] (hnone rfl) (.of_eq hline)
  | _ => exact .of_perm [] (hnone rfl) (.refl _)

theorem slices_of_placeholder (h : ofPlaceholders p l = true) : p.slices l = [] := by
  unfold ofPlaceholders at h
  split at h
  next i ids =>
    split at h
    next id began hat => simp [slices, asked, hat]
    next => cases h
  next => cases h

theorem slices_of_worker (hmode : p.reservation = .onSubmit) (h : ofWorkers p l = true) :
    p.slices l = [] := by
  have hnone : ∀ i ids, p.asked (.work i ids) = [] := by
    intro i ids
    simp only [asked, hmode]
    split
    · simp
    · rfl
  cases l with
  | work i ids => simp [slices, hnone]
  | handOver i => simp [slices, asked]
  | answer i r => simp [slices, asked]
  | rouseWorker i => simp [slices, asked]
  | _ => cases h

/-- No call has slices to reserve, unless they are reserved on submission. -/
theorem Move.not_reserving (h : Move p l q) (hmode : p.reservation = .onExecute)
    (hp : ∀ n, .reserving n ∉ p.calls) (n : Nat) : .reserving n ∉ q.calls := by
  have hset : ∀ (k : Nat) (c : Call), c ≠ .reserving n → .reserving n ∉ p.calls.set k c :=
    fun k c hc hmem => (List.mem_or_eq_of_mem_set hmem).elim (hp n) fun heq => hc heq.symm
  have happend : ∀ c : Call, c ≠ .reserving n → .reserving n ∉ p.calls ++ [c] := by
    intro c hc hmem
    rcases List.mem_append.mp hmem with hmem | hmem
    · exact hp n hmem
    · exact hc (List.mem_singleton.mp hmem).symm
  cases h with
  | refuse w hw hclosed => exact happend _ (by simp)
  | accept w hw hopen => exact happend _ (by simp [hmode])
  | close => exact happend _ (by split <;> simp)
  | reserve hcall hids => exact absurd (List.mem_of_getElem? hcall) (hp _)
  | trigger hcall => exact hset _ _ (by simp)
  | shut hcall => exact hset _ _ (by simp)
  | prepare hat hmode hmore hids => simpa [setWorker] using hp n
  | _ => exact hp n

theorem not_reserving_of_run (h : (Pool.start c operation).run? ls = some p)
    (hmode : c.reservation = .onExecute) (n : Nat) : .reserving n ∉ p.calls := by
  refine (invariant_run? (I := fun p => p.reservation = .onExecute ∧ ∀ n, .reserving n ∉ p.calls)
    (fun hp hmove => ⟨hmove.reservation_eq.trans hp.1, hmove.not_reserving hp.1 hp.2⟩)
    ⟨hmode, by simp [Pool.start]⟩ h).2 n

theorem slices_of_client (hp : ∀ n, .reserving n ∉ p.calls) (h : ofClients p l = true) :
    p.slices l = [] := by
  refine slices_of_asked ?_
  cases l with
  | resume k ids =>
    simp only [asked]
    split
    next hcall => exact absurd (List.mem_of_getElem? hcall) (hp _)
    all_goals rfl
  | cancelWhere judge => exact p.reserved_cancelWhere judge
  | coordinate => exact p.reserved_coordinate
  | work i ids => cases h
  | _ => rfl

theorem arrivals_of_submit {id priority submittedAt taskCount payload}
    (h : p.step (.submit id priority submittedAt taskCount payload) = some q) :
    q.arrivals = .work (.ofTaskCount id priority submittedAt taskCount payload p.tickets.length) ::
      p.arrivals := by
  cases move_of_step h with
  | refuse w hw hclosed => exact hw ▸ rfl
  | accept w hw hopen => exact hw ▸ rfl

theorem step_placeholder {id : JobId} {began : Nat}
    (hat : p.workers[i]? = some (.processing (.placeholder id) began)) (ids : List JobId) :
    p.step (.work i ids) = some (p.setWorker i (.measuring began)) := by
  simp [step, work?, hat]

theorem Move.of_placeholder (h : Move p l q) {id : JobId} {began : Nat}
    (hat : p.workers[i]? = some (.processing (.placeholder id) began)) :
    q.workers[i]? = some (.processing (.placeholder id) began) ∨ ∃ ids, l = .work i ids := by
  obtain ⟨v, es, hv, -, hstep⟩ := h.worker hat
  rcases hstep with hstep | ⟨-, -, rfl | ⟨-, rfl⟩⟩
  · cases hstep with
    | turn hturn hawake => exact .inr ⟨_, rfl⟩
    | call w began hat => rcases hat with hat | hat <;> cases hat
  · exact .inl hv
  · exact .inl hv

theorem Answering.called_of_written (h : Answering operation p) {r : Except JobError ω}
    (hwritten : .written i w r ∈ p.history) : .called i w ∈ p.history := by
  obtain ⟨x, hreturned, -⟩ := h.event _ hwritten
  exact h.event _ hreturned

/-- What is promised of the slices of jobs in a run and in all that may follow. -/
structure Accounted (c : Config) (operation : String) (ls : List (Label π ω)) (p : Pool π ω) :
    Prop where
  /-- Placeholders get into the queue when a step adds them, and in no other way. -/
  inserts : ∀ l q, p.step l = some q → Inserts p q (p.slices l)
  /-- A job has at least one task, and one slice is its own. -/
  counted : ∀ id priority submittedAt taskCount payload q,
    p.step (.submit id priority submittedAt taskCount payload) = some q →
      ∃ w : Work π, q.arrivals = .work w :: p.arrivals ∧ w.id = id ∧
        w.taskCount.toNat = max taskCount.toNat 1 ∧ w.reserved + 1 = w.taskCount.toNat
  /-- A call that submits work to an open queue reserves its slices in its last step, and adds none
  if it finds the queue closed then. -/
  submitted : c.reservation = .onSubmit → p.queue.closed = false →
    ∀ id priority submittedAt taskCount payload q ms s,
    p.step (.submit id priority submittedAt taskCount payload) = some q → q.run? ms = some s →
      let added := p.additions (ofCall p.calls.length)
        (.submit id priority submittedAt taskCount payload :: ms)
      s.calls[p.calls.length]? = some (.reserving (max taskCount.toNat 1 - 1)) ∧ added = [] ∨
        s.calls[p.calls.length]? = some .returned ∧ ∃ ms₁ ids ms₂ r,
          ms = ms₁ ++ .resume p.calls.length ids :: ms₂ ∧ q.run? ms₁ = some r ∧
            added = (if r.queue.closed then [] else ids) ∧
              (r.queue.closed = false → ids.length = max taskCount.toNat 1 - 1)
  /-- A call adds nothing if its work is refused or slices are reserved on execution. -/
  returned : c.reservation = .onExecute ∨ p.queue.closed = true →
    ∀ id priority submittedAt taskCount payload q ms s,
    p.step (.submit id priority submittedAt taskCount payload) = some q → q.run? ms = some s →
      s.calls[p.calls.length]? = some .returned ∧ p.additions (ofCall p.calls.length)
        (.submit id priority submittedAt taskCount payload :: ms) = []
  clients : c.reservation = .onExecute → (Pool.start c operation).additions ofClients ls = []
  workers : c.reservation = .onSubmit → (Pool.start c operation).additions ofWorkers ls = []
  /-- For work that was executed the worker has added its slices in one step before, and none if it
  found the queue closed then. -/
  executed : c.reservation = .onExecute → ∀ i w, .called i w ∈ p.history →
    ∃ ls₁ ids ls₂ s, ls = ls₁ ++ .work i ids :: ls₂ ∧
      (Pool.start c operation).run? ls₁ = some s ∧ Executes i w ids s ∧
        (Pool.start c operation).additions (ofTicket w.ticket) ls = s.slices (.work i ids)
  /-- Placeholders add nothing. -/
  placeholders : (Pool.start c operation).additions ofPlaceholders ls = []
  /-- The cycle of a placeholder is over with the next step of the worker, which changes nothing
  else. -/
  spent : ∀ i id began, p.workers[i]? = some (.processing (.placeholder id) began) →
    (∀ ids, p.step (.work i ids) = some (p.setWorker i (.measuring began))) ∧
      ∀ l q, p.step l = some q → q.workers[i]? = some (.processing (.placeholder id) began) ∨
        ∃ ids, l = .work i ids
  /-- A worker calls the transport for work for which it has begun a cycle. -/
  called : ∀ (i : Nat) (v : Worker π ω), p.workers[i]? = some v →
    (p.toldOf Event.begun? i).filterMap Job.work? = p.toldOf Event.called? i ++ v.uncalled
  written : ∀ i w r, .written i w r ∈ p.history → .called i w ∈ p.history
  /-- To cancel work leaves all placeholders where they are. -/
  cancel : ∀ id,
    (∀ j queue, p.queue.delete id = some (j, queue) → j.isPlaceholder = false) →
      (p.cancel id).2.queue.line.filter Job.isPlaceholder = p.queue.line.filter Job.isPlaceholder
  cancelBelow : ∀ priority, (p.cancelBelow priority).2.queue.line.filter Job.isPlaceholder =
    p.queue.line.filter Job.isPlaceholder
  /-- Without new work, every cycle that begins is taken from the budget. -/
  budget : ∀ ms q, p.run? ms = some q → (∀ l ∈ ms, l.submits = false) →
    q.cycles.length + q.budget ≤ p.cycles.length + p.budget

theorem accounted_of_run (h : (Pool.start c operation).run? ls = some p) :
    Accounted c operation ls p := by
  constructor
  · exact fun l q hstep => (move_of_step hstep).inserts
  · intro id priority submittedAt taskCount payload q hstep
    have hreserved := Work.reserved_ofTaskCount id priority submittedAt taskCount payload
      p.tickets.length
    have hcount := Work.reserved_add_one
      (Work.ofTaskCount id priority submittedAt taskCount payload p.tickets.length)
    exact ⟨_, arrivals_of_submit hstep, Work.id_ofTaskCount .., by omega, hcount⟩
  · intro hmode hopen id priority submittedAt taskCount payload q ms s hstep hrun
    have hcall := reserving_of_submit ((reservation_of_run h).trans hmode) hopen hstep
    rw [additions_of_submit hstep]
    refine (reserving_run hcall hrun).imp_right ?_
    rintro ⟨hreturned, ms₁, ids, ms₂, r, hms, hr, -, hrest⟩
    exact ⟨hreturned, ms₁, ids, ms₂, r, hms, hr, hrest⟩
  · intro hmode id priority submittedAt taskCount payload q ms s hstep hrun
    have hcall := returned_of_submit (hmode.imp_left (reservation_of_run h).trans) hstep
    rw [additions_of_submit hstep]
    exact returned_stays hcall hrun
  · intro hmode
    refine additions_eq_nil fun ms l s hs hown => slices_of_client ?_ hown
    exact not_reserving_of_run hs hmode
  · intro hmode
    exact additions_eq_nil fun ms l s hs hown =>
      slices_of_worker ((reservation_of_run hs).trans hmode) hown
  · exact fun hmode i w hcalled => executes_of_committed h hmode (.inr hcalled)
  · exact additions_eq_nil fun ms l s _ hown => slices_of_placeholder hown
  · exact fun i id began hat => ⟨step_placeholder hat, fun l q hstep =>
      (move_of_step hstep).of_placeholder hat⟩
  · exact fun i v hat => (orderly_of_run h i v hat).begun_eq
  · exact fun i w r hwritten => (Answering.of_run h).called_of_written hwritten
  · exact fun id hwork => placeholders_cancel hwork
  · exact p.placeholders_cancelBelow
  · exact fun ms q hrun hms => account_of_run hrun hms

/-- The only worker executes a job of three tasks and has reserved slices for two of them. -/
def reserveOnExecute : List (Label Unit Unit) :=
  [.submit ⟨1⟩ 0 0 3 (), .coordinate, .coordinate, .coordinate, .work 0 [], .work 0 [],
    .handOver 0, .work 0 [], .work 0 [], .work 0 [⟨2⟩, ⟨3⟩], .work 0 []]

theorem accounted_reserveOnExecute : ∃ p : Pool Unit Unit,
    (Pool.start { workers := 1, reservation := .onExecute } "run").run? reserveOnExecute = some p ∧
      Accounted { workers := 1, reservation := .onExecute } "run" reserveOnExecute p ∧
        p.called.map Work.id = [⟨1⟩] ∧ p.queue.line.map Job.id = [⟨2⟩, ⟨3⟩] ∧ p.budget = 2 := by
  refine ⟨_, rfl, ?_, rfl, by decide, by decide⟩
  have hrun : (Pool.start { workers := 1, reservation := .onExecute } "run").run?
      reserveOnExecute = some _ := rfl
  exact accounted_of_run hrun

end Pool
end PacedJobs
