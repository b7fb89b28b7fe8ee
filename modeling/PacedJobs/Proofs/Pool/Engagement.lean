import PacedJobs.Proofs.Pool.Answers
import PacedJobs.Proofs.Pool.Shutdown
import PacedJobs.Proofs.Pool.Workers

/-!
# What workers are engaged in

A worker that has let work through keeps to it until it has called the transport for it and has put
it away, and on this way it waits for nobody but the transport. When the signal has fired, no worker
engages in anything more, so the transport is called for nothing else, and the steps that a worker
has still to take are numbered.
-/

namespace PacedJobs

variable {π ω : Type}

namespace Worker

variable {p : Pool π ω} {i : Nat} {l : Label π ω} {v v' : Worker π ω} {es : List (Event π ω)}
  {w : Work π} {operation : String} {history : List (Event π ω)}

/-- A worker has its engagement in the hand until it calls the transport. -/
theorem Backed.hand_or_called (h : v.Backed operation history i) (hv : v.engagement = some w) :
    v.hand = [.work w] ∨ .called i w ∈ history := by
  cases v with
  | admitted j =>
    cases j with
    | placeholder id => cases hv
    | work w' =>
      cases hv
      exact .inl rfl
  | processing j began =>
    cases j with
    | placeholder id => cases hv
    | work w' =>
      cases hv
      exact .inl rfl
  | ready w' began =>
    cases hv
    exact .inl rfl
  | executing w' began =>
    cases hv
    exact .inr h
  | replying w' r began =>
    cases hv
    exact .inr h.1
  | delivered w' began =>
    cases hv
    exact .inr h
  | undelivered w' began =>
    cases hv
    exact .inr h
  | _ => cases hv

namespace Step

theorem engagement_of_fired (h : Step p i l v v' es) (hfired : p.triggered = true)
    (hv' : v'.engagement = some w) : v.engagement = some w := by
  cases h with
  | turn hturn hawake =>
    cases hturn with
    | pass j hquiet => simp [hquiet] at hfired
    | _ => cases hv'
  | begin j => cases j <;> exact hv'
  | call w' began hat => rcases hat with rfl | rfl <;> exact hv'
  | letGo w' began =>
    rw [hfired] at hv'
    cases hv'
  | wake deadline => cases hv'
  | receive j hat => cases hv'
  | giveUp j hfired => cases hv'
  | finish w' began => cases hv'
  | _ => exact hv'

theorem engagement_or_called (h : Step p i l v v' es) (hv : v.engagement = some w)
    (hbacked : v.Backed operation history i) :
    v'.engagement = some w ∨ .called i w ∈ history := by
  cases h with
  | turn hturn hawake => cases hturn <;> cases hv
  | begin j => cases j <;> exact .inl hv
  | call w' began hat => rcases hat with rfl | rfl <;> exact .inl hv
  | finish w' began =>
    cases hv
    exact .inr hbacked
  | letGo w' began =>
    cases hv
    exact .inr hbacked
  | wake deadline => cases hv
  | receive j hat => cases hv
  | giveUp j hfired => cases hv
  | _ => exact .inl hv

/-- When the signal has fired, every step of its own brings a worker nearer to its end. -/
theorem remaining_lt (h : Step p i l v v' es) (hfired : p.triggered = true) :
    v'.remaining < v.remaining := by
  cases h with
  | turn hturn hawake => exact hturn.remaining_lt hfired
  | call w' began hat => rcases hat with rfl | rfl <;> simp [remaining]
  | letGo w' began => simp [hfired, remaining]
  | _ => simp [remaining]

end Step
end Worker

namespace Pool

variable {operation : String} {p q r : Pool π ω} {l : Label π ω} {ms : List (Label π ω)} {i : Nat}
  {w : Work π}

theorem Engages.of_move (hengages : q.Engages i w) (h : Move p l q) (hfired : p.triggered = true) :
    p.Engages i w := by
  obtain ⟨v', hv', hengaged⟩ := hengages
  obtain ⟨v, es, hat, -, hcase⟩ := h.worker_of_after hv'
  refine ⟨v, hat, ?_⟩
  rcases hcase with hstep | ⟨-, -, rfl | ⟨-, rfl⟩⟩
  · exact hstep.engagement_of_fired hfired hengaged
  · exact hengaged
  · rwa [Worker.engagement_notify] at hengaged

/-- A worker keeps to its engagement until it has called the transport. -/
theorem Engages.move (hengages : p.Engages i w) (ha : Answering operation p) (h : Move p l q) :
    q.Engages i w ∨ .called i w ∈ q.history := by
  obtain ⟨v, hat, hengaged⟩ := hengages
  obtain ⟨v', es, hv', -, hcase⟩ := h.worker hat
  obtain ⟨es', hes'⟩ := h.exists_history_eq
  rcases hcase with hstep | ⟨-, -, rfl | ⟨-, rfl⟩⟩
  · rcases hstep.engagement_or_called hengaged (ha.worker i v hat) with hstill | hcalled
    · exact .inl ⟨v', hv', hstill⟩
    · rw [hes']
      exact .inr (List.mem_append_right _ hcalled)
  · exact .inl ⟨v', hv', hengaged⟩
  · exact .inl ⟨v.notify, hv', (Worker.engagement_notify v).trans hengaged⟩

theorem Engages.canStep (hengages : p.Engages i w) (x : Except Failure ω) :
    ∃ l q, l.worker? = some i ∧ (∀ k y, l = .answer k y → y = x) ∧ p.step l = some q := by
  have hwork : ∀ ids, (p.work? i ids).isSome = true → ∃ l q, Label.worker? l = some i ∧
      (∀ k y, l = .answer k y → y = x) ∧ p.step l = some q := by
    intro ids hids
    obtain ⟨q, hq⟩ := Option.isSome_iff_exists.mp hids
    exact ⟨.work i ids, q, rfl, by simp, hq⟩
  obtain ⟨v, hat, hengaged⟩ := hengages
  cases v with
  | processing j began =>
    cases j with
    | placeholder id => cases hengaged
    | work w' =>
      refine hwork (List.replicate w'.reserved ⟨0⟩) ?_
      simp only [work?, hat, canReserve, List.length_replicate, beq_self_eq_true, Bool.or_true,
        if_true]
      split <;> rfl
  | executing w' began =>
    refine ⟨.answer i x, _, rfl, ?_, by simp only [step, answer?, hat]; rfl⟩
    intro k y heq
    cases heq
    rfl
  | replying w' r began =>
    refine hwork [] ?_
    simp only [work?, hat]
    split <;> rfl
  | admitted j => exact hwork [] (by simp [work?, hat])
  | ready w' began => exact hwork [] (by simp [work?, hat])
  | delivered w' began => exact hwork [] (by simp [work?, hat])
  | undelivered w' began => exact hwork [] (by simp [work?, hat])
  | _ => cases hengaged

/-- When the signal has fired, the transport is called for no more than what workers are engaged
in. -/
theorem calls_of_fired (hfired : q.triggered = true) (hrun : q.run? ms = some r) :
    ∃ es, r.history = es ++ q.history ∧ ∀ i w, .called i w ∈ es → q.Engages i w := by
  let I (r : Pool π ω) : Prop := r.triggered = true ∧ (∀ i w, r.Engages i w → q.Engages i w) ∧
    ∃ es, r.history = es ++ q.history ∧ ∀ i w, .called i w ∈ es → q.Engages i w
  have hI : I r := by
    refine invariant_run? (I := I) ?_ ⟨hfired, fun _ _ => id, [], rfl, by simp⟩ hrun
    rintro s l s' ⟨hfired, hengages, es, hes, hcalled⟩ hmove
    obtain ⟨es', hes', hcalled'⟩ := hmove.called
    refine ⟨hmove.triggered_of_triggered hfired, ?_, es' ++ es, ?_, ?_⟩
    · exact fun i w hnow => hengages i w (hnow.of_move hmove hfired)
    · rw [hes', hes, List.append_assoc]
    · intro i w hmem
      exact (List.mem_append.mp hmem).elim (fun hmem => hengages i w (hcalled' i w hmem))
        (hcalled i w)
  exact hI.2.2

/-- When the signal has fired, a worker does not get away from its end, and comes nearer by its own
steps. -/
theorem Move.remaining_worker (h : Move p l q) (hfired : p.triggered = true) {v : Worker π ω}
    (hat : p.workers[i]? = some v) :
    ∃ v', q.workers[i]? = some v' ∧ v'.remaining ≤ v.remaining ∧
      (l.worker? = some i → v'.remaining < v.remaining) := by
  obtain ⟨v', es, hv', -, hstep | ⟨hother, -, rfl | ⟨-, rfl⟩⟩⟩ := h.worker hat
  · have hlt := hstep.remaining_lt hfired
    exact ⟨v', hv', hlt.le, fun _ => hlt⟩
  · exact ⟨v', hv', Nat.le_refl _, fun hl => absurd hl hother⟩
  · exact ⟨v.notify, hv', v.remaining_notify_le, fun hl => absurd hl hother⟩

/-- When the signal has fired, what a worker does not stop before is bound to happen. -/
theorem exists_of_worker {s : Nat → Pool π ω} {ns : Nat → Label π ω}
    (hfired : (s 0).triggered = true) (hstep : ∀ n, (s n).step (ns n) = some (s (n + 1)))
    (hi : i < (s 0).workers.length) {P : Nat → Prop}
    (hgo : ∀ n, ¬ P n → ∃ m, n ≤ m ∧ (ns m).worker? = some i) : ∃ n, P n := by
  have hat : ∀ n, (s n).triggered = true ∧ ∃ v, (s n).workers[i]? = some v := by
    intro n
    induction n with
    | zero => exact ⟨hfired, _, List.getElem?_eq_getElem hi⟩
    | succ n ih =>
      obtain ⟨hfired, v, hv⟩ := ih
      have hmove := move_of_step (hstep n)
      obtain ⟨v', hv', -⟩ := hmove.remaining_worker hfired hv
      exact ⟨hmove.triggered_of_triggered hfired, v', hv'⟩
  let f (n : Nat) : Nat := (((s n).workers[i]?).map Worker.remaining).getD 0
  have hdown : ∀ n, f (n + 1) ≤ f n ∧ ((ns n).worker? = some i → f (n + 1) < f n) := by
    intro n
    obtain ⟨hfired, v, hv⟩ := hat n
    obtain ⟨v', hv', hle⟩ := (move_of_step (hstep n)).remaining_worker hfired hv
    simpa [f, hv, hv'] using hle
  refine exists_of_descent (fun n => (hdown n).1) fun n hn => ?_
  obtain ⟨m, hnm, hm⟩ := hgo n hn
  exact ⟨m, hnm, (hdown m).2 hm⟩

end Pool
end PacedJobs
