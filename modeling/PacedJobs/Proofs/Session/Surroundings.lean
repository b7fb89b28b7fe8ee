import PacedJobs.Proofs.Pool.Readings
import PacedJobs.Proofs.Session.Agreement

/-!
# Sessions in a pool that others use

Around the requests of a session anything may go on in its pool: the threads step, time passes, and
other clients submit, cancel and close as they like. All that is left to tell then is that the
transport answers by itself. So a value in a ticket is what the transport has made of the payload of
the ticket's own work.
-/

namespace PacedJobs

variable {π ω : Type}

/-- If it is the transport that steps, it answers by itself. -/
def Label.Answered (t : Transport π ω) (p : Pool π ω) : Label π ω → Prop
  | answer i x => ∀ w began, p.workers[i]? = some (.executing w began) → x = t.reply i w
  | _ => True

theorem Label.Serves.answered {t : Transport π ω} {p : Pool π ω} {l : Label π ω}
    (h : l.Serves t p) : l.Answered t p := by
  cases l <;> first | exact h | exact trivial

namespace Pool

variable {t : Transport π ω} {p q r : Pool π ω} {l : Label π ω}

/-- One pool becomes another by steps of anybody. -/
inductive Reaches (t : Transport π ω) (p : Pool π ω) : Pool π ω → Prop
  | refl : Reaches t p p
  | step {q r : Pool π ω} {l : Label π ω} (h : Reaches t p q) (hl : l.Answered t q)
      (hr : q.step l = some r) : Reaches t p r

namespace Reaches

theorem trans (h : Reaches t p q) (h' : Reaches t q r) : Reaches t p r := by
  induction h' with
  | refl => exact h
  | step _ hl hr ih => exact ih.step hl hr

theorem exists_run (h : Reaches t p q) : ∃ ls, p.run? ls = some q := by
  induction h with
  | refl => exact ⟨[], rfl⟩
  | step _ hl hr ih =>
    obtain ⟨ls, hls⟩ := ih
    exact ⟨ls ++ [_], run?_append.mpr ⟨_, hls, run?_cons.mpr ⟨_, hr, rfl⟩⟩⟩

theorem drifts (ds : List Drift) : Reaches t p (p.drifts t ds) := by
  induction ds generalizing p with
  | nil => exact .refl
  | cons d ds ih =>
    have hone : Reaches t p (p.drift t d) :=
      drift_induction (I := Reaches t p) .refl fun _ hserves hq =>
        .step .refl hserves.answered hq
    exact hone.trans ih

theorem goOn (k : Nat) (names : Nat → JobId) : Reaches t p (p.goOn k names) := by
  rcases p.goOn_cases k names with heq | ⟨ids, hq⟩
  · rw [heq]
    exact .refl
  · exact .step (l := .resume k ids) .refl trivial hq

end Reaches

theorem Move.of_returned (h : Move p l q) {i : Nat} {w : Work π} {x : Except Failure ω}
    (hx : .returned i w x ∈ q.history) :
    .returned i w x ∈ p.history ∨
      l = .answer i x ∧ ∃ began, p.workers[i]? = some (.executing w began) := by
  have hreserve : ∀ ids, .returned i w x ∈ (p.reserve ids).history →
      .returned i w x ∈ p.history := by
    intro ids hids
    rcases p.reserve_cases ids with heq | ⟨-, heq⟩ <;> rw [heq] at hids
    · exact hids
    · exact List.mem_of_ne_of_mem (by simp) hids
  cases h with
  | reserve hcall hids => exact .inl (hreserve _ hx)
  | prepare hat hmode hmore hids => exact .inl (hreserve _ hx)
  | answer r hat =>
    rcases List.mem_cons.mp hx with heq | hx
    · cases heq
      exact .inr ⟨rfl, _, hat⟩
    · exact .inl hx
  | _ => first | exact .inl hx | exact .inl (List.mem_of_ne_of_mem (by simp) hx)

/-- Whatever a worker was told is what the transport answers. -/
def AnsweredBy (t : Transport π ω) (p : Pool π ω) : Prop :=
  ∀ i w x, .returned i w x ∈ p.history → x = t.reply i w

theorem AnsweredBy.move (h : AnsweredBy t p) (hmove : Move p l q) (hl : l.Answered t p) :
    AnsweredBy t q := by
  intro i w x hx
  rcases hmove.of_returned hx with hx | ⟨rfl, began, hat⟩
  · exact h i w x hx
  · exact hl w began hat

namespace Reaches

variable {c : Config}

theorem answeredBy (h : Reaches t (Pool.start c t.operation) p) : AnsweredBy t p := by
  induction h with
  | refl =>
    intro i w x hx
    cases hx
  | step _ hl hr ih => exact ih.move (move_of_step hr) hl

/-- A value in a ticket is what the transport has answered to its work. -/
theorem reply_eq_ok (h : Reaches t (Pool.start c t.operation) p) {w : Work π}
    (hw : .work w ∈ p.arrivals) {v : ω}
    (hread : (p.tickets[w.ticket]?).bind Ticket.reading? = some (.ok v)) :
    ∃ i < max c.workers 1, t.reply i w = .ok v := by
  obtain ⟨ls, hrun⟩ := h.exists_run
  have hsound : p.Sound := sound_of_run hrun
  have hanswering := Answering.of_run hrun
  obtain ⟨s, hs, hread⟩ := Option.bind_eq_some_iff.mp hread
  have hunread : s.unread = some (.ok v) := by
    unfold Ticket.reading? at hread
    split at hread
    next x hx => rw [hx, hread]
    next => split at hread <;> cases hread
  obtain ⟨i, w', hwritten, hticket⟩ :=
    exists_of_mem_written (genuine_of_run hrun _ _ _ hs hunread)
  obtain ⟨x, hx, hok⟩ := hanswering.event _ hwritten
  have hcalled : .called i w' ∈ p.history := hanswering.event _ hx
  have heq := hsound.work_unique hw (hsound.mem_arrivals_of_called hcalled) hticket
  subst heq
  refine ⟨i, called_lt_of_run hrun hcalled, ?_⟩
  rw [← h.answeredBy i w' x hx]
  cases x with
  | ok v' => simpa [Except.mapError] using hok.symm
  | error f => cases hok

end Reaches
end Pool

/-- What goes on in a pool before each request of a session and between the halves of one that has
two, with the names and the times of new work. -/
structure Surroundings (t : Transport Json ω) where
  before : Nat → Pool Json ω → Pool Json ω
  between : Nat → Pool Json ω → Pool Json ω
  id : Nat → JobId
  submittedAt : Nat → Nat
  names : Nat → Nat → JobId
  reaches_before : ∀ n p, Pool.Reaches t p (before n p)
  reaches_between : ∀ n p, Pool.Reaches t p (between n p)

namespace Surroundings

variable {t : Transport Json ω}

/-- A desk over a pool that others use. -/
def desk (e : Surroundings t) : Desk (Scripted ω) ω where
  submit s payload priority taskCount :=
    let p := e.before s.turn s.pool
    let q := p.submit (e.id s.turn) priority (min (e.submittedAt s.turn) p.now) taskCount payload
    let q := (e.between s.turn q).goOn p.calls.length (e.names s.turn)
    (⟨e.id s.turn, p.tickets.length⟩, ⟨q, s.turn + 1⟩)
  cancel s id :=
    let (removed, q) := (e.before s.turn s.pool).cancel id
    (removed, ⟨q, s.turn + 1⟩)
  cancelBelow s priority :=
    let (jobs, q) := (e.before s.turn s.pool).cancelBelow priority
    (jobs.map Job.id, ⟨q, s.turn + 1⟩)
  await s _ := ⟨e.before s.turn s.pool, s.turn + 1⟩
  result s receipt :=
    ((s.pool.tickets[receipt.ticket]?).bind Ticket.reading?).getD (.error (.dropped receipt.id))

end Surroundings

/-- The surroundings in which nobody else is a client. -/
def Script.surroundings (script : Script) (t : Transport Json ω) : Surroundings t where
  before n p := p.drifts t (script n).before
  between n p := p.drifts t (script n).between
  id n := (script n).id
  submittedAt n := (script n).submittedAt
  names n := (script n).names
  reaches_before n _ := .drifts (script n).before
  reaches_between n _ := .drifts (script n).between

theorem Script.desk_surroundings (script : Script) (t : Transport Json ω) :
    (script.surroundings t).desk = script.desk t := rfl

/-- What receipts and exchanges tell of a pool that others use. -/
structure Attends (c : Config) (p : Pool Json Json) (receipts : List Receipt)
    (exchanges : List Exchange) : Prop where
  reached : Pool.Reaches Transport.echo (Pool.start c Transport.echo.operation) p
  submissions : List.Forall₂ (Submission.Covered 0 p)
    (exchanges.filterMap Exchange.submission?) receipts

namespace Attends

variable {c : Config} {p q : Pool Json Json} {l : Label Json Json} {receipts : List Receipt}
  {exchanges : List Exchange}

theorem reaches (h : Attends c p receipts exchanges) (hq : Pool.Reaches Transport.echo p q) :
    Attends c q receipts exchanges := by
  induction hq with
  | refl => exact h
  | step _ hl hr ih =>
    exact ⟨ih.reached.step hl hr, ih.submissions.imp fun _ _ => Submission.covered_of_step hr⟩

theorem exchange (h : Attends c p receipts exchanges) (hl : l.Answered Transport.echo p)
    (hq : p.step l = some q) {x : Exchange} (hx : x.submission? = none) :
    Attends c q receipts (exchanges ++ [x]) where
  reached := h.reached.step hl hq
  submissions := by
    rw [Exchange.submissions_concat hx]
    exact (h.reaches (.step .refl hl hq)).submissions

theorem refuse (h : Attends c p receipts exchanges) (line : UInt64) (refusal : Json.Refusal) :
    Attends c p receipts (exchanges ++ [(.error refusal, .rejected line refusal.message)]) where
  reached := h.reached
  submissions := by
    rw [Exchange.submissions_concat rfl]
    exact h.submissions

theorem submit (h : Attends c p receipts exchanges) (id : JobId) (payload : Json)
    (priority : UInt16) (taskCount : UInt32) {submittedAt : Nat} (htime : submittedAt ≤ p.now) :
    Attends c (p.submit id priority submittedAt taskCount payload)
      (receipts ++ [⟨id, p.tickets.length⟩])
      (exchanges ++ [(.ok (.submit payload priority taskCount), .submitted id)]) := by
  have hq : p.step (.submit id priority submittedAt taskCount payload) =
      some (p.submit id priority submittedAt taskCount payload) := if_pos htime
  exact ⟨h.reached.step (l := .submit id priority submittedAt taskCount payload) trivial hq,
    Submission.covered_concat hq (Nat.zero_le _) h.submissions⟩

end Attends

/-- A desk attends to its submissions, whatever goes on around it. -/
theorem Surroundings.kept_desk (c : Config) (e : Surroundings Transport.echo) :
    Session.Kept e.desk fun s => Attends c s.pool where
  submit payload priority taskCount h :=
    (((h.reaches (e.reaches_before _ _)).submit _ payload priority taskCount
      (Nat.min_le_right _ _)).reaches (e.reaches_between _ _)).reaches (.goOn _ _)
  cancel id h :=
    (h.reaches (e.reaches_before _ _)).exchange (l := .cancel id) trivial rfl rfl
  cancelBelow priority h :=
    (h.reaches (e.reaches_before _ _)).exchange
      (l := .cancelWhere (Judge.ofPredicate fun v => !v.isPlaceholder && v.priority < priority))
      trivial rfl rfl
  refuse line refusal h := h.refuse line refusal

end PacedJobs
