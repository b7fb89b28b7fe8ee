import PacedJobs.Proofs.Pool.Engagement
import PacedJobs.Proofs.Pool.Readings

/-!
# The cut that the signal makes

The workers look at the signal and the coordinator looks at the queue, which is closed later. When
the signal has fired, the work that a worker has let through is executed and answered all the same.
No other work is executed any more, wherever it is and even if it is pushed before the queue is
closed, and in the end its tickets read that it was dropped.
-/

namespace PacedJobs

variable {π ω : Type}

namespace Pool

variable {operation : String} {p q r : Pool π ω} {l : Label π ω} {ms : List (Label π ω)} {i : Nat}
  {w : Work π}

/-- Work that no worker has let through when the signal has fired: it is with somebody who has not
looked, or it comes in later. -/
inductive Barred (q r : Pool π ω) (w : Work π) : Prop
  | pending (hat : .work w ∈ q.queue.line)
  | held (hat : q.coordinator = .holding (.work w))
  | offered (hat : q.coordinator = .offering (.work w))
  | received (i : Nat) (hat : q.workers[i]? = some (.received (.work w)))
  | late (hnow : .work w ∈ r.arrivals) (hthen : .work w ∉ q.arrivals)

namespace Barred

theorem mem_kept (h : Barred q r w) :
    .work w ∈ q.kept ∨ .work w ∈ r.arrivals ∧ .work w ∉ q.arrivals := by
  cases h with
  | pending hat => exact .inl (by simp [kept, hat])
  | held hat => exact .inl (by simp [kept, hat, Coordinator.hand])
  | offered hat => exact .inl (by simp [kept, hat, Coordinator.hand])
  | received i hat =>
    have hmem : .work w ∈ q.hands :=
      List.mem_flatMap.mpr ⟨_, List.mem_of_getElem? hat, List.mem_singleton.mpr rfl⟩
    exact .inl (by simp [kept, hmem])
  | late hnow hthen => exact .inr ⟨hnow, hthen⟩

theorem not_engages (h : Barred q r w) (hsound : Sound q) (ha : Answering operation q) :
    ¬ q.Engages i w := by
  rintro ⟨v, hat, hengaged⟩
  rcases (ha.worker i v hat).hand_or_called hengaged with hhand | hcalled
  · have hmem : .work w ∈ v.hand := hhand ▸ List.mem_singleton.mpr rfl
    obtain ⟨hline, hheld, hother⟩ := hsound.alone_of_hand hat hmem
    cases h with
    | pending hpending => exact hline hpending
    | held hholding => exact hheld (by simp [hholding, Coordinator.hand])
    | offered hoffering => exact hheld (by simp [hoffering, Coordinator.hand])
    | received k hreceived =>
      cases hother k _ hreceived (List.mem_singleton.mpr rfl)
      cases hengaged
    | late hnow hthen =>
      refine hthen (hsound.kept_subset (List.mem_append_right _ ?_))
      exact List.mem_flatMap.mpr ⟨v, List.mem_of_getElem? hat, hmem⟩
  · rcases h.mem_kept with hkept | ⟨-, hthen⟩
    · exact hsound.not_called_of_kept hkept i hcalled
    · exact hthen (hsound.mem_arrivals_of_called hcalled)

theorem not_called (h : Barred q r w) (hsound : Sound q) (ha : Answering operation q)
    (hfired : q.triggered = true) (hrun : q.run? ms = some r) : .called i w ∉ r.history := by
  obtain ⟨es, hes, hengages⟩ := calls_of_fired hfired hrun
  rw [hes, List.mem_append]
  rintro (hcalled | hcalled)
  · exact h.not_engages hsound ha (hengages i w hcalled)
  · rcases h.mem_kept with hkept | ⟨-, hthen⟩
    · exact hsound.not_called_of_kept hkept i hcalled
    · exact hthen (hsound.mem_arrivals_of_called hcalled)

theorem mem_arrivals (h : Barred q r w) (hsound : Sound q) (hfired : q.triggered = true)
    (hrun : q.run? ms = some r) : .work w ∈ r.arrivals := by
  obtain ⟨es, hes, -⟩ := calls_of_fired hfired hrun
  rcases h.mem_kept with hkept | ⟨hnow, -⟩
  · rw [arrivals, hes, List.flatMap_append]
    exact List.mem_append_right _ (hsound.kept_subset hkept)
  · exact hnow

end Barred

/-- The ticket of the work reads that it was dropped. -/
def ReadsDropped (p : Pool π ω) (w : Work π) : Prop :=
  ∃ t, p.tickets[w.ticket]? = some t ∧ t.reading? = some (.error (.dropped w.id))

/-- Work that has left without a call of the transport was dropped. -/
theorem Sound.readsDropped (h : Sound p) (ha : Answering operation p) (hw : .work w ∈ p.arrivals)
    (hnot : ∀ i, .called i w ∉ p.history) (hgone : weigh (atTicket w.ticket) p.alive = 0) :
    p.ReadsDropped w := by
  rcases h.resolved_of_gone hw hgone with ⟨r, hr⟩ | ⟨-, hdropped⟩
  · obtain ⟨i, w', hwritten, hticket⟩ := exists_of_mem_written (hr ▸ List.mem_singleton.mpr rfl)
    obtain ⟨x, hx, -⟩ := ha.event _ hwritten
    have hcalled : .called i w' ∈ p.history := ha.event _ hx
    cases h.work_unique hw (h.mem_arrivals_of_called hcalled) hticket
    exact absurd hcalled (hnot i)
  · exact hdropped

theorem Sound.gone_of_isFinished (h : Sound p) (hfinished : p.isFinished = true)
    (hw : .work w ∈ p.arrivals) (hline : .work w ∉ p.queue.line) :
    weigh (atTicket w.ticket) p.alive = 0 := by
  rw [alive_eq_line hfinished]
  by_contra hne
  obtain ⟨j, hj, hticket⟩ := exists_of_weigh_ne_zero hne
  cases j with
  | placeholder id => exact hticket rfl
  | work w' =>
    have hkept : Job.work w' ∈ p.kept := List.mem_append_left _ (List.mem_append_left _ hj)
    cases h.work_unique hw (h.kept_subset hkept) (by simpa using hticket)
    exact hline hj

theorem shutting_mem_set {calls : List Call} {k : Nat} {c c' : Call} (hat : calls[k]? = some c)
    (hc : c ≠ .shutting) (hmem : .shutting ∈ calls) : .shutting ∈ calls.set k c' := by
  obtain ⟨m, hm⟩ := List.getElem?_of_mem hmem
  have hne : k ≠ m := by
    rintro rfl
    rw [hm] at hat
    exact hc (Option.some.inj hat).symm
  exact List.mem_of_getElem? ((List.getElem?_set_ne hne).trans hm)

theorem Move.shutting (h : Move p l q)
    (hp : p.triggered = true → p.queue.closed = true ∨ .shutting ∈ p.calls)
    (hfired : q.triggered = true) : q.queue.closed = true ∨ .shutting ∈ q.calls := by
  by_cases hfired' : p.triggered = true
  · rcases hp hfired' with hclosed | hmem
    · exact .inl (h.closed_of_closed hclosed)
    · cases h with
      | refuse w hw hclosed => exact .inr (List.mem_append_left _ hmem)
      | accept w hw hopen => exact .inr (List.mem_append_left _ hmem)
      | close => exact .inr (List.mem_append_left _ hmem)
      | reserve hcall hids =>
        rw [← p.calls_reserve _] at hcall hmem
        exact .inr (shutting_mem_set hcall (by simp) hmem)
      | trigger hcall => exact .inr (shutting_mem_set hcall (by simp) hmem)
      | shut hcall => exact .inl rfl
      | prepare hat hmode hmore hids => exact .inr ((p.calls_reserve _).symm ▸ hmem)
      | _ => exact .inr hmem
  · cases h with
    | trigger hcall =>
      have hlt := (List.getElem?_eq_some_iff.mp hcall).1
      exact .inr (List.mem_of_getElem? (List.getElem?_set_self hlt))
    | reserve hcall hids => exact absurd ((p.triggered_reserve _).symm.trans hfired) hfired'
    | prepare hat hmode hmore hids =>
      exact absurd ((p.triggered_reserve _).symm.trans hfired) hfired'
    | _ => exact absurd hfired hfired'

theorem shutting_of_run {c : Config} {ls : List (Label π ω)}
    (h : (Pool.start c operation).run? ls = some p) (hfired : p.triggered = true) :
    p.queue.closed = true ∨ .shutting ∈ p.calls :=
  invariant_run? (I := fun p => p.triggered = true → p.queue.closed = true ∨ .shutting ∈ p.calls)
    (fun hp hmove => hmove.shutting hp) (fun hfired => by cases hfired) h hfired

/-- What is promised of work in which a worker is engaged when the signal has fired. -/
structure SeenThrough (c : Config) (operation : String) (ls : List (Label π ω)) (q : Pool π ω)
    (i : Nat) (w : Work π) : Prop where
  /-- The worker does not let it go before it has called the transport. -/
  kept : ∀ ms r, q.run? ms = some r → r.Engages i w ∨ .called i w ∈ r.history
  /-- The worker waits for nobody but the transport. -/
  progress : ∀ ms r (x : Except Failure ω), q.run? ms = some r → r.Engages i w →
    ∃ l r', l.worker? = some i ∧ (∀ k y, l = .answer k y → y = x) ∧ r.step l = some r'
  /-- It is executed in every run in which the worker goes on until then. -/
  executed : ∀ (s : Nat → Pool π ω) (ns : Nat → Label π ω), s 0 = q →
    (∀ n, (s n).step (ns n) = some (s (n + 1))) →
    (∀ n, .called i w ∉ (s n).history → ∃ m, n ≤ m ∧ (ns m).worker? = some i) →
      ∃ n, .called i w ∈ (s n).history
  /-- It is put away in every run in which the worker and the transport go on until then. -/
  ending : ∀ (s : Nat → Pool π ω) (ns : Nat → Label π ω), s 0 = q →
    (∀ n, (s n).step (ns n) = some (s (n + 1))) →
    (∀ n, (s n).Engages i w → ∃ m, n ≤ m ∧ (ns m).worker? = some i) →
      ∃ n, .called i w ∈ (s n).history ∧ ¬ (s n).Engages i w
  /-- When the worker has got the answer and tried to write it, that is written to the ticket if
  this still exists, and the ticket reads it, or has done so. -/
  answered : ∀ ms r t, q.run? ms = some r → .called i w ∈ r.history →
    (∀ v : Worker π ω, r.workers[i]? = some v → .work w ∉ v.unanswered) →
    r.ticket? w.ticket = some t → ∃ (x : Except Failure ω) (y : Except JobError ω),
      .returned i w x ∈ r.history ∧ y = x.mapError (fun f => .transport i w.id operation f) ∧
        r.written w.ticket = [y] ∧
          (t.reading? = some y ∨
            some y ∈ (Pool.start c operation).readings w.ticket (ls ++ ms))

/-- What the signal cuts off when it has fired, and what it lets pass. -/
structure CleanCut (c : Config) (operation : String) (ls : List (Label π ω)) (q : Pool π ω) :
    Prop where
  /-- Every worker lets one job pass at most. -/
  single : ∀ i w w', q.Engages i w → q.Engages i w' → w' = w
  count : ∀ i w, q.Engages i w → i < max c.workers 1
  passed : ∀ i w, q.Engages i w → SeenThrough c operation ls q i w
  /-- From then on the transport is called for nothing else. -/
  called : ∀ ms r, q.run? ms = some r →
    ∃ es, r.history = es ++ q.history ∧ ∀ i w, .called i w ∈ es → q.Engages i w
  barred : ∀ ms r w, q.run? ms = some r → Barred q r w → w ∉ r.called
  /-- When all have ended and no call is still to close the queue, what was cut off was dropped. -/
  dropped : ∀ ms r w, q.run? ms = some r → Barred q r w → r.isFinished = true →
    (.shutting ∈ r.calls → r.queue.closed = true) → r.ReadsDropped w
  /-- Until the queue is closed a call is to do so, and does it by its next step. -/
  closing : ∀ ms r, q.run? ms = some r → (r.queue.closed = true ∨ .shutting ∈ r.calls) ∧
    ∀ k ids, r.calls[k]? = some .shutting → ∃ r', r.step (.resume k ids) = some r' ∧
      r'.queue.closed = true ∧ r'.isFinished = r.isFinished ∧ r'.arrivals = r.arrivals

theorem isFinished_shut (p : Pool π ω) : p.shut.isFinished = p.isFinished := by
  have hnotify : p.coordinator.notify.isStopped = p.coordinator.isStopped := by
    cases p.coordinator <;> rfl
  simp only [isFinished, shut, record, drop, hnotify]

variable {c : Config} {ls : List (Label π ω)}

theorem seenThrough_of_run (h : (Pool.start c operation).run? ls = some q)
    (hfired : q.triggered = true) (hengages : q.Engages i w) :
    SeenThrough c operation ls q i w := by
  have hkept : ∀ ms r, q.run? ms = some r → r.Engages i w ∨ .called i w ∈ r.history := by
    intro ms r hrun
    let I (r : Pool π ω) : Prop :=
      Answering operation r ∧ (r.Engages i w ∨ .called i w ∈ r.history)
    have hI : I r := by
      refine invariant_run? (I := I) ?_ ⟨.of_run h, .inl hengages⟩ hrun
      rintro s l s' ⟨ha, hs⟩ hmove
      refine ⟨ha.move hmove, hs.elim (fun hs => hs.move ha hmove) fun hcalled => .inr ?_⟩
      obtain ⟨es, hes⟩ := hmove.exists_history_eq
      rw [hes]
      exact List.mem_append_right _ hcalled
    exact hI.2
  have hi : i < q.workers.length := by
    obtain ⟨v, hat, -⟩ := hengages
    exact (List.getElem?_eq_some_iff.mp hat).1
  constructor
  · exact hkept
  · exact fun ms r x _ hnow => hnow.canStep x
  · rintro s ns rfl hstep hgo
    exact exists_of_worker hfired hstep hi hgo
  · rintro s ns rfl hstep hgo
    obtain ⟨n, hn⟩ := exists_of_worker (P := fun n => ¬ (s n).Engages i w) hfired hstep hi
      fun n hn => hgo n (not_not.mp hn)
    exact ⟨n, (hkept _ _ (run?_map_range hstep n)).resolve_left hn, hn⟩
  · intro ms r t hrun hcalled hdone ht
    have hr : (Pool.start c operation).run? (ls ++ ms) = some r := run?_append.mpr ⟨q, h, hrun⟩
    obtain ⟨x, hx, hwritten⟩ := (sound_of_run hr).written_eq_of_answered (.of_run hr) hcalled hdone
      (Option.isSome_iff_exists.mpr ⟨t, ht⟩)
    refine ⟨x, _, hx, rfl, hwritten, ?_⟩
    obtain ⟨hat, hreceiver⟩ := ticket?_eq_some_iff.mp ht
    have hmem := hwritten ▸ List.mem_singleton.mpr rfl
    rcases told_of_run hr w.ticket t hat hreceiver _ hmem with hunread | hseen
    · exact .inl (by simp [Ticket.reading?, hunread])
    · exact .inr hseen

/-- Whenever the signal has fired, and so at the moment when it fires, a pool executes what its
workers have let through by then, and nothing else. -/
theorem cleanCut_of_run (h : (Pool.start c operation).run? ls = some q)
    (hfired : q.triggered = true) : CleanCut c operation ls q := by
  have hsound : Sound q := sound_of_run h
  have ha : Answering operation q := .of_run h
  have hafter : ∀ {ms r}, q.run? ms = some r →
      (Pool.start c operation).run? (ls ++ ms) = some r :=
    fun hrun => run?_append.mpr ⟨q, h, hrun⟩
  have hclosing : ∀ {ms r}, q.run? ms = some r → r.queue.closed = true ∨ .shutting ∈ r.calls := by
    intro ms r hrun
    have hfired' : r.triggered = true :=
      invariant_run? (I := fun r => r.triggered = true)
        (fun hp hmove => hmove.triggered_of_triggered hp) hfired hrun
    exact shutting_of_run (hafter hrun) hfired'
  constructor
  · rintro i w w' ⟨v, hat, hv⟩ ⟨v', hat', hv'⟩
    cases hat.symm.trans hat'
    exact Option.some.inj (hv'.symm.trans hv)
  · rintro i w ⟨v, hat, -⟩
    rw [← length_workers_of_run h]
    exact (List.getElem?_eq_some_iff.mp hat).1
  · exact fun i w hengages => seenThrough_of_run h hfired hengages
  · exact fun ms r hrun => calls_of_fired hfired hrun
  · intro ms r w hrun hbarred hmem
    obtain ⟨i, hcalled⟩ := mem_called.mp hmem
    exact hbarred.not_called hsound ha hfired hrun hcalled
  · intro ms r w hrun hbarred hfinished hclosed
    have hr : Sound r := sound_of_run (hafter hrun)
    have hw := hbarred.mem_arrivals hsound hfired hrun
    have hline := (drained_of_run (hafter hrun) ((hclosing hrun).elim id hclosed)).1
    exact hr.readsDropped (.of_run (hafter hrun)) hw
      (fun i => hbarred.not_called hsound ha hfired hrun)
      (hr.gone_of_isFinished hfinished hw (by simp [hline]))
  · refine fun ms r hrun => ⟨hclosing hrun, fun k ids hcall => ?_⟩
    exact ⟨r.shut.setCall k .returned, by simp [step, resume?, hcall], rfl, isFinished_shut r, rfl⟩

/-- One job is executed and another one is pending when the signal fires. -/
def fireWhileExecuting : List (Label Unit Unit) :=
  [.submit ⟨1⟩ 0 0 1 (), .submit ⟨2⟩ 5 0 1 (), .coordinate, .coordinate, .coordinate, .work 0 [],
    .work 0 [], .handOver 0, .work 0 [], .work 0 [], .work 0 [], .close, .resume 2 []]

/-- A third one is pushed before the queue is closed, and then all end. -/
def submitAndEnd : List (Label Unit Unit) :=
  [.submit ⟨3⟩ 9 0 1 (), .resume 2 [], .answer 0 (.ok ()), .work 0 [], .work 0 [], .work 0 [],
    .work 0 [], .work 0 [], .coordinate]

theorem cleanCut_fireWhileExecuting : ∃ q r : Pool Unit Unit,
    (Pool.start { workers := 1 } "run").run? fireWhileExecuting = some q ∧ q.triggered = true ∧
      CleanCut { workers := 1 } "run" fireWhileExecuting q ∧
        q.run? submitAndEnd = some r ∧ r.isFinished = true ∧ r.tickets.map Ticket.reading? =
          [some (.ok ()), some (.error (.dropped ⟨2⟩)), some (.error (.dropped ⟨3⟩))] := by
  refine ⟨_, _, rfl, rfl, ?_, rfl, rfl, rfl⟩
  have hrun : (Pool.start { workers := 1 } "run").run? fireWhileExecuting = some _ := rfl
  exact cleanCut_of_run hrun rfl

end Pool
end PacedJobs
