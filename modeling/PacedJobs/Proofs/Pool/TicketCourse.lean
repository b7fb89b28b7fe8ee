import PacedJobs.Proofs.Pool.Readings

/-!
# What a ticket shows in the course of time

A ticket shows nothing while a result may still come, then the result if there is one, nothing again
while the worker that wrote it has the job, and from then on that the job was dropped. Every move
keeps to this order, so it holds however readings come between the steps of the others. Who waits
for a result instead of asking for it gets what no reading has shown.
-/

namespace PacedJobs

variable {π ω : Type}

/-- How often a ticket shows nothing before its result and after it, and how often in the end that
the job was dropped. -/
structure Course (ω : Type) where
  before : Nat
  result? : Option (Except JobError ω)
  between : Nat
  after : Nat

namespace Course

/-- The answers of a ticket, from the first to the last. -/
def answers (c : Course ω) (job : JobId) : List (Option (Except JobError ω)) :=
  List.replicate c.before none ++
    (match c.result? with
      | some y => some y :: List.replicate c.between none
      | none => []) ++
    List.replicate c.after (some (.error (.dropped job)))

variable {c : Course ω} {job : JobId} {y : Except JobError ω}

theorem mem_answers (h : c.result? = some y) : some y ∈ c.answers job := by
  simp [answers, h]

theorem eq_of_mem_answers (h : some y ∈ c.answers job) :
    c.result? = some y ∨ c.after ≠ 0 ∧ y = .error (.dropped job) := by
  unfold answers at h
  rcases List.mem_append.mp h with h | h
  · left
    rcases List.mem_append.mp h with h | h
    · cases List.eq_of_mem_replicate h
    · split at h
      next z hz =>
        rcases List.mem_cons.mp h with h | h
        · rw [hz, h]
        · cases List.eq_of_mem_replicate h
      next => cases h
  · right
    have hshown := List.eq_of_mem_replicate h
    exact ⟨fun hzero => by simp [hzero] at h, Option.some.inj hshown⟩

/-- When it has shown that the job was dropped, a ticket shows nothing else. -/
theorem pairwise_answers (h : ∀ y, c.result? = some y → y ≠ .error (.dropped job)) :
    (c.answers job).Pairwise fun a b =>
      a = some (.error (.dropped job)) → b = some (.error (.dropped job)) := by
  have hfirst : ∀ a ∈ ({ c with after := 0 } : Course ω).answers job,
      a ≠ some (.error (.dropped job)) := by
    rintro a ha rfl
    rcases eq_of_mem_answers ha with hresult | ⟨hafter, -⟩
    · exact h _ hresult rfl
    · exact hafter rfl
  have hsplit : c.answers job = ({ c with after := 0 } : Course ω).answers job ++
      List.replicate c.after (some (.error (.dropped job))) := by
    simp [answers]
  rw [hsplit, List.pairwise_append]
  refine ⟨?_, List.pairwise_replicate.mpr (.inr fun _ => rfl), ?_⟩
  · exact List.Pairwise.imp_of_mem (fun ha _ _ hdropped => absurd hdropped (hfirst _ ha))
      (List.pairwise_of_forall fun _ _ => trivial)
  · exact fun a ha _ _ hdropped => absurd hdropped (hfirst a ha)

/-- What a course says of a ticket and of the results that were written to it. -/
structure Fits (c : Course ω) (results : List (Except JobError ω)) (t : Ticket ω) : Prop where
  read : ∀ y, c.result? = some y → y ∈ results ∧ t.unread = none
  unread : c.result? = none → t.receiver = true → ∀ y ∈ results, t.unread = some y
  ended : c.after ≠ 0 → t.sender = false ∧ t.unread = none

variable {results : List (Except JobError ω)} {t : Ticket ω}

theorem Fits.start (t : Ticket ω) : Fits ⟨0, none, 0, 0⟩ [] t :=
  ⟨nofun, fun _ _ _ hy => (nomatch hy), fun hafter => absurd rfl hafter⟩

theorem Fits.poll (h : c.Fits results t) (hgenuine : ∀ y, t.unread = some y → y ∈ results)
    (job : JobId) (hjob : t.job = job) :
    ∃ c' : Course ω, c'.answers job = c.answers job ++ [t.reading?] ∧ c'.Fits results t.poll.2 := by
  subst hjob
  cases hunread : t.unread with
  | some y =>
    have hresult : c.result? = none := by
      cases hc : c.result? with
      | none => rfl
      | some z => exact absurd (h.read z hc).2 (by simp [hunread])
    have hafter : c.after = 0 := by
      by_contra hafter
      exact absurd (h.ended hafter).2 (by simp [hunread])
    refine ⟨⟨c.before, some y, 0, 0⟩, ?_, ?_, nofun, fun hafter => absurd rfl hafter⟩
    · simp [answers, Ticket.reading?, hunread, hresult, hafter]
    · intro z hz
      cases hz
      exact ⟨hgenuine y hunread, rfl⟩
  | none =>
    have hread : ∀ z, c.result? = some z → z ∈ results ∧ t.poll.2.unread = none :=
      fun z hz => ⟨(h.read z hz).1, rfl⟩
    have hkept : c.result? = none → t.receiver = true → ∀ y ∈ results, t.poll.2.unread = some y :=
      fun hc hreceiver y hy => by simpa [hunread] using h.unread hc hreceiver y hy
    cases hsender : t.sender with
    | false =>
      refine ⟨{ c with after := c.after + 1 }, ?_, hread, hkept, fun _ => ⟨hsender, rfl⟩⟩
      simp [answers, Ticket.reading?, hunread, hsender, List.replicate_succ']
    | true =>
      have hafter : c.after = 0 := by
        by_contra hafter
        exact absurd (h.ended hafter).1 (by simp [hsender])
      cases hresult : c.result? with
      | none =>
        refine ⟨{ c with before := c.before + 1 }, ?_, hread, hkept, fun hne => absurd hafter hne⟩
        simp [answers, Ticket.reading?, hunread, hsender, hresult, hafter, List.replicate_succ']
      | some y =>
        refine ⟨{ c with between := c.between + 1 }, ?_, hread, hkept, fun hne => absurd hafter hne⟩
        simp [answers, Ticket.reading?, hunread, hsender, hresult, hafter, List.replicate_succ']

end Course

theorem Worker.Backed.called_of_mem_running {operation : String} {history : List (Event π ω)}
    {i : Nat} {v : Worker π ω} {w : Work π} (h : v.Backed operation history i)
    (hw : .work w ∈ v.running) : .called i w ∈ history := by
  cases v with
  | executing w' began =>
    cases List.mem_singleton.mp hw
    exact h
  | replying w' x began =>
    cases List.mem_singleton.mp hw
    exact h.1
  | delivered w' began =>
    cases List.mem_singleton.mp hw
    exact h
  | undelivered w' began =>
    cases List.mem_singleton.mp hw
    exact h
  | _ => cases hw

theorem Answer.ne_dropped {operation : String} {history : List (Event π ω)} {i : Nat} {w : Work π}
    {y : Except JobError ω} (h : Answer operation history i w y) (job : JobId) :
    y ≠ .error (.dropped job) := by
  obtain ⟨x, -, rfl⟩ := h
  cases x <;> simp [Except.mapError]

namespace Pool

variable {operation : String} {p q : Pool π ω} {l : Label π ω} {ls ms : List (Label π ω)} {n : Nat}
  {t : Ticket ω} {seen : List (Option (Except JobError ω))} {w : Work π}

theorem Sound.length_written_le (h : Sound p) (n : Nat) : (p.written n).length ≤ 1 := by
  have hanswered := (h.balanced (atTicket n)).answered_le
  have hexecuted := h.weigh_executed_le n
  rw [length_written]
  omega

theorem Sound.eq_of_mem_written (h : Sound p) {y z : Except JobError ω} (hy : y ∈ p.written n)
    (hz : z ∈ p.written n) : y = z := by
  obtain ⟨x, hx⟩ := List.length_eq_one_iff.mp
    ((h.length_written_le n).antisymm (List.length_pos_of_mem hy))
  rw [hx] at hy hz
  rw [List.mem_singleton.mp hy, List.mem_singleton.mp hz]

theorem arrivals_subset_of_run (h : p.run? ls = some q) : p.arrivals ⊆ q.arrivals := by
  obtain ⟨es, hes⟩ := history_of_run h
  rw [arrivals, arrivals, hes, List.flatMap_append]
  exact List.subset_append_right _ _

theorem Move.written_eq_or (h : Move p l q) (n : Nat) : q.written n = p.written n ∨
    ∃ (i : Nat) (w : Work π) (x : Except JobError ω) (began : Nat),
      p.workers[i]? = some (.replying w x began) ∧ w.ticket = n := by
  cases h with
  | reserve hcall hids => exact .inl (p.written_reserve _ n)
  | prepare hat hmode hmore hids => exact .inl (p.written_reserve _ n)
  | @write i ids w x began s hat hs hkept hfree =>
    by_cases hn : w.ticket = n
    · exact .inr ⟨i, w, x, began, hat, hn⟩
    · refine .inl (written_of_history [.written i w x] rfl n ?_)
      intro i' w' x' hmem
      cases List.mem_singleton.mp hmem
      exact hn
  | _ => exact .inl rfl

/-- While a result is to be written, the ticket has its sending end. -/
theorem Sound.sender_of_replying (h : Sound p) {i : Nat} {w : Work π} {x : Except JobError ω}
    {began : Nat} (hat : p.workers[i]? = some (.replying w x began))
    (ht : p.tickets[w.ticket]? = some t) : t.sender = true := by
  have hmem : .work w ∈ p.alive := List.mem_append_right _
    (List.mem_flatMap.mpr ⟨_, List.mem_of_getElem? hat, List.mem_singleton.mpr rfl⟩)
  have halive := le_weigh (f := atTicket w.ticket) hmem
  have hsender := h.matched.sender_iff _ t ht
  rw [atTicket_work, if_pos rfl] at halive
  by_contra hnone
  rw [if_neg hnone] at hsender
  omega

/-- What was seen of a ticket so far is a course that fits it. -/
def OnCourse (p : Pool π ω) (n : Nat) (seen : List (Option (Except JobError ω))) : Prop :=
  (p.tickets[n]? = none → seen = []) ∧
    ∀ t, p.tickets[n]? = some t → ∃ c : Course ω, seen = c.answers t.job ∧ c.Fits (p.written n) t

theorem OnCourse.move (h : OnCourse p n seen) (hsound : Sound p) (hgenuine : Genuine p)
    (hmove : Move p l q) : OnCourse q n (seen ++ p.shown n l) := by
  have hafter := hsound.move hmove
  cases ht : p.tickets[n]? with
  | none =>
    have hseen := h.1 ht
    have hshown : p.shown n l = [] := by
      cases l <;> simp [shown, ticket?, ht]
    rw [hseen, hshown]
    refine ⟨fun _ => rfl, fun t' _ => ⟨⟨0, none, 0, 0⟩, rfl, ?_⟩⟩
    rw [hmove.written_of_none ht, hsound.written_eq_nil_of_le (List.getElem?_eq_none_iff.mp ht)]
    exact .start t'
  | some t =>
    obtain ⟨c, rfl, hfits⟩ := h.2 t ht
    obtain ⟨t', rs, ht', hwritten, hstep⟩ := hmove.ticket ht
    refine ⟨fun hnone => by simp [ht'] at hnone, fun s hs => ?_⟩
    cases ht'.symm.trans hs
    have hquiet : l ≠ .poll n → p.shown n l = [] := by
      intro hl
      cases l <;> simp_all [shown]
    cases hstep with
    | keep _ hl =>
      rw [hquiet hl, List.append_nil, hwritten]
      exact ⟨c, rfl, hfits⟩
    | dropSender _ hl =>
      rw [hquiet hl, List.append_nil, hwritten]
      exact ⟨c, rfl, hfits.read, hfits.unread, fun hended => ⟨rfl, (hfits.ended hended).2⟩⟩
    | poll _ hkept =>
      have hshown : p.shown n (.poll n) = [t.reading?] := by
        simp [shown, ticket?, ht, hkept, Ticket.poll]
      rw [hshown, hwritten]
      obtain ⟨c', hc', hfits'⟩ := hfits.poll (fun y hy => hgenuine n t y ht hy) t.job rfl
      exact ⟨c', hc'.symm, hfits'⟩
    | forget _ hkept =>
      rw [hquiet (by simp), List.append_nil, hwritten]
      refine ⟨c, rfl, fun y hy => ⟨(hfits.read y hy).1, rfl⟩, ?_,
        fun hended => ⟨(hfits.ended hended).1, rfl⟩⟩
      intro _ hreceiver
      cases hreceiver
    | write _ y hkept hfree =>
      rw [hquiet (by simp), List.append_nil, hwritten]
      have hnone : p.written n = [] := by
        have hone := hafter.length_written_le n
        rw [hwritten] at hone
        exact List.length_eq_zero_iff.mp (by simpa using hone)
      have hsender : t.sender = true := by
        rcases hmove.written_eq_or n with heq | ⟨i, w, x, began, hat, rfl⟩
        · rw [hwritten] at heq
          simp at heq
        · exact hsound.sender_of_replying hat ht
      refine ⟨c, rfl, ?_, ?_, fun hended => absurd (hfits.ended hended).1 (by simp [hsender])⟩
      · intro z hz
        have hmem := (hfits.read z hz).1
        rw [hnone] at hmem
        cases hmem
      · intro _ _ z hz
        rw [hnone] at hz
        rw [List.mem_singleton.mp hz]

theorem OnCourse.run (h : OnCourse p n seen) (hsound : Sound p) (hgenuine : Genuine p)
    (hrun : p.run? ls = some q) : OnCourse q n (seen ++ p.readings n ls) := by
  induction ls generalizing p seen with
  | nil =>
    cases hrun
    simpa [readings] using h
  | cons l ls ih =>
    obtain ⟨s, hs, hrun⟩ := run?_cons.mp hrun
    have hmove := move_of_step hs
    have hcourse := ih (h.move hsound hgenuine hmove) (hsound.move hmove)
      (hgenuine.move hsound hmove) hrun
    rwa [readings, hs, Option.map_some, Option.getD_some, ← List.append_assoc]

/-- What the readings of a run have shown is a course that fits the ticket. -/
theorem onCourse_of_run {c : Config} (h : (Pool.start c operation).run? ls = some p) (n : Nat) :
    OnCourse p n ((Pool.start c operation).readings n ls) := by
  have hstart : OnCourse (Pool.start c operation : Pool π ω) n [] := ⟨fun _ => rfl, nofun⟩
  have hgenuine : Genuine (Pool.start c operation : Pool π ω) := nofun
  simpa using hstart.run (.start c operation) hgenuine h

/-- When nobody has the work of a ticket, that is executed no more. -/
theorem Sound.executed_eq_of_gone (h : Sound p) (ht : p.tickets[n]? = some t)
    (hgone : weigh (atTicket n) p.alive = 0) (hrun : p.run? ms = some q) :
    weigh (atTicket n) q.executed = weigh (atTicket n) p.executed := by
  have hq : Sound q := invariant_run? (fun hp hmove => hp.move hmove) h hrun
  obtain ⟨es, hes⟩ := history_of_run hrun
  have hnew : weigh (atTicket n) (es.flatMap Event.executed) ≤
      weigh (atTicket n) (es.flatMap Event.departures) :=
    ({ p with history := es } : Pool π ω).executed_le (atTicket n)
  have hnumbered := h.matched.numbered n
  have hbefore := (h.balanced (atTicket n)).conserved
  have hafter := (hq.balanced (atTicket n)).conserved
  have hone := hq.weigh_arrivals_le n
  rw [if_pos (List.getElem?_eq_some_iff.mp ht).1] at hnumbered
  simp only [alive, executed, departures, hes, List.flatMap_append, weigh_append] at *
  omega

/-- When nobody has the work of a ticket, nothing more is written to that. -/
theorem Sound.written_eq_of_gone (h : Sound p) (ht : p.tickets[n]? = some t)
    (hkept : t.receiver = true) (hgone : weigh (atTicket n) p.alive = 0)
    (hrun : p.run? ms = some q) : q.written n = p.written n := by
  have hq : Sound q := invariant_run? (fun hp hmove => hp.move hmove) h hrun
  obtain ⟨es, hes⟩ := history_of_run hrun
  have hlength : (q.written n).length ≤ (p.written n).length := by
    have hexecuted := h.executed_eq_of_gone ht hgone hrun
    have hanswered := h.matched.answered_eq n t ht hkept
    have hrunning := p.unanswered_le (atTicket n)
    have hafter := (hq.balanced (atTicket n)).answered_le
    rw [length_written, length_written]
    simp only [alive, weigh_append] at hgone
    omega
  have hsuffix : p.written n <:+ q.written n := by
    unfold written
    rw [hes, List.filterMap_append]
    exact List.suffix_append _ _
  exact (hsuffix.eq_of_length_le hlength).symm

theorem readings_append (n : Nat) (hrun : p.run? ls = some q) :
    p.readings n (ls ++ ms) = p.readings n ls ++ q.readings n ms := by
  induction ls generalizing p with
  | nil =>
    cases hrun
    rfl
  | cons l ls ih =>
    obtain ⟨s, hs, hrun⟩ := run?_cons.mp hrun
    simp [readings, hs, ih hrun]

theorem readings_eq_nil (h : ∀ l ∈ ms, l ≠ .poll n) : p.readings n ms = [] := by
  induction ms generalizing p with
  | nil => rfl
  | cons l ms ih =>
    obtain ⟨hl, hms⟩ := List.forall_mem_cons.mp h
    have hshown : p.shown n l = [] := by
      cases l <;> simp_all [shown]
    rw [readings, hshown, List.nil_append]
    cases p.step l with
    | none => rfl
    | some q => exact ih hms

/-- What a reading of the ticket would show now. -/
def Shows (p : Pool π ω) (n : Nat) (x : Option (Except JobError ω)) : Prop :=
  p.shown n (.poll n) = [x]

theorem shows_iff {x : Option (Except JobError ω)} : p.Shows n x ↔
    ∃ t, p.tickets[n]? = some t ∧ t.receiver = true ∧ t.reading? = x := by
  simp only [Shows, shown, if_true, Option.toList_eq_singleton_iff, Option.map_eq_some_iff,
    ticket?_eq_some_iff, Ticket.poll, and_assoc]

/-- The owner of a ticket waits for it from one moment to another: he neither asks for the result
nor gives the ticket up. -/
structure Awaits (p : Pool π ω) (n : Nat) (ms : List (Label π ω)) (q : Pool π ω) : Prop where
  owned : (p.ticket? n).isSome
  run : p.run? ms = some q
  patient : ∀ l ∈ ms, l ≠ .poll n ∧ l ≠ .forget n

theorem Move.isSome_ticket? (h : Move p l q) (hl : l ≠ .forget n) (howned : (p.ticket? n).isSome) :
    (q.ticket? n).isSome := by
  obtain ⟨t, ht⟩ := Option.isSome_iff_exists.mp howned
  obtain ⟨ht, hkept⟩ := ticket?_eq_some_iff.mp ht
  obtain ⟨t', rs, ht', -, hstep⟩ := h.ticket ht
  refine Option.isSome_iff_exists.mpr ⟨t', ticket?_eq_some_iff.mpr ⟨ht', ?_⟩⟩
  cases hstep with
  | forget _ _ => exact absurd rfl hl
  | _ => exact hkept

theorem Awaits.exists_ticket (h : p.Awaits n ms q) :
    ∃ t, q.tickets[n]? = some t ∧ t.receiver = true := by
  obtain ⟨howned, hrun, hpatient⟩ := h
  induction ms generalizing p with
  | nil =>
    cases hrun
    obtain ⟨t, ht⟩ := Option.isSome_iff_exists.mp howned
    exact ⟨t, ticket?_eq_some_iff.mp ht⟩
  | cons l ms ih =>
    obtain ⟨s, hs, hrun⟩ := run?_cons.mp hrun
    obtain ⟨hl, hms⟩ := List.forall_mem_cons.mp hpatient
    exact ih ((move_of_step hs).isSome_ticket? hl.2 howned) hrun hms

theorem OnCourse.shows (h : OnCourse p n seen) (hsound : Sound p) (hgenuine : Genuine p)
    (ht : p.tickets[n]? = some t) (hkept : t.receiver = true) :
    (∃ y, t.reading? = some y ∧ y ∈ p.written n ∧ some y ∉ seen) ∨
      (∀ y ∈ p.written n, some y ∈ seen) ∧
        t.reading? = if t.sender then none else some (.error (.dropped t.job)) := by
  obtain ⟨c, rfl, hfits⟩ := h.2 t ht
  cases hunread : t.unread with
  | some y =>
    refine .inl ⟨y, by simp [Ticket.reading?, hunread], hgenuine n t y ht hunread, fun hseen => ?_⟩
    rcases Course.eq_of_mem_answers hseen with hresult | ⟨hended, -⟩
    · exact absurd (hfits.read y hresult).2 (by simp [hunread])
    · exact absurd (hfits.ended hended).2 (by simp [hunread])
  | none =>
    refine .inr ⟨fun y hy => ?_, by simp [Ticket.reading?, hunread]⟩
    cases hresult : c.result? with
    | none => exact absurd (hfits.unread hresult hkept y hy) (by simp [hunread])
    | some z =>
      cases hsound.eq_of_mem_written (hfits.read z hresult).1 hy
      exact Course.mem_answers hresult

/-- What is known of the ticket of a job at some moment of a run, with what it has shown. -/
structure Watched (operation : String) (p : Pool π ω) (w : Work π)
    (seen : List (Option (Except JobError ω))) : Prop where
  sound : Sound p
  answering : Answering operation p
  genuine : Genuine p
  course : OnCourse p w.ticket seen
  arrived : .work w ∈ p.arrivals

namespace Watched

/-- The result that was written to the ticket of a job is that of its execution. -/
theorem answer_of_mem_written (h : Watched operation p w seen) {y : Except JobError ω}
    (hy : y ∈ p.written w.ticket) :
    ∃ i, .called i w ∈ p.history ∧ Answer operation p.history i w y := by
  obtain ⟨i, w', hwritten, hticket⟩ := exists_of_mem_written hy
  obtain ⟨x, hx, hy⟩ := h.answering.event _ hwritten
  have hcalled : .called i w' ∈ p.history := h.answering.event _ hx
  cases h.sound.work_unique h.arrived (h.sound.mem_arrivals_of_called hcalled) hticket
  exact ⟨i, hcalled, x, hx, hy⟩

/-- As long as a ticket has its sending end, somebody has the job. -/
theorem mem_alive (h : Watched operation p w seen) (ht : p.tickets[w.ticket]? = some t)
    (hsender : t.sender = true) : .work w ∈ p.alive := by
  have hweight := h.sound.matched.sender_iff _ t ht
  rw [hsender, if_pos rfl] at hweight
  obtain ⟨j, hj, hticket⟩ := exists_of_weigh_ne_zero (hweight ▸ Nat.one_ne_zero)
  cases j with
  | placeholder id => exact absurd rfl hticket
  | work w' =>
    have harrived : .work w' ∈ p.arrivals := by
      rcases List.mem_append.mp hj with hkept | hrunning
      · exact h.sound.kept_subset hkept
      · obtain ⟨v, hv, hw'⟩ := List.mem_flatMap.mp hrunning
        obtain ⟨i, hi⟩ := List.getElem?_of_mem hv
        exact h.sound.mem_arrivals_of_called ((h.answering.worker i v hi).called_of_mem_running hw')
    cases h.sound.work_unique h.arrived harrived (by simpa using hticket)
    exact hj

/-- Nobody has the job of a ticket that has lost its sending end. -/
theorem weigh_alive_eq_zero (h : Watched operation p w seen) (ht : p.tickets[w.ticket]? = some t)
    (hsender : t.sender = false) : weigh (atTicket w.ticket) p.alive = 0 := by
  rw [h.sound.matched.sender_iff _ t ht, hsender]
  rfl

theorem of_awaits (h : Watched operation p w seen) (hwait : p.Awaits w.ticket ms q) :
    Watched operation q w seen where
  sound := invariant_run? (fun hp hmove => hp.move hmove) h.sound hwait.run
  answering := invariant_run? (fun hp hmove => hp.move hmove) h.answering hwait.run
  genuine := (invariant_run? (I := fun p => Sound p ∧ Genuine p)
    (fun hp hmove => ⟨hp.1.move hmove, hp.2.move hp.1 hmove⟩) ⟨h.sound, h.genuine⟩ hwait.run).2
  course := by
    have hcourse := h.course.run h.sound h.genuine hwait.run
    rwa [readings_eq_nil fun l hl => (hwait.patient l hl).1, List.append_nil] at hcourse
  arrived := arrivals_subset_of_run hwait.run h.arrived

/-- While a ticket shows nothing, somebody has the job, and what was written was read. -/
theorem shows_none (h : Watched operation p w seen) (hshows : p.Shows w.ticket none) :
    .work w ∈ p.alive ∧ ∀ y ∈ p.written w.ticket, some y ∈ seen := by
  obtain ⟨t, ht, hkept, hreading⟩ := shows_iff.mp hshows
  rcases h.course.shows h.sound h.genuine ht hkept with ⟨y, hy, -⟩ | ⟨hread, hcut⟩
  · rw [hreading] at hy
    cases hy
  · refine ⟨h.mem_alive ht ?_, hread⟩
    by_contra hsender
    rw [hreading, if_neg hsender] at hcut
    cases hcut

/-- What a ticket shows is a result that was not read, or the end of the job. -/
theorem shows_some (h : Watched operation p w seen) {z : Except JobError ω}
    (hshows : p.Shows w.ticket (some z)) : z ∈ p.written w.ticket ∧ some z ∉ seen ∨
      z = .error (.dropped w.id) ∧ weigh (atTicket w.ticket) p.alive = 0 ∧
        ∀ y ∈ p.written w.ticket, some y ∈ seen := by
  obtain ⟨t, ht, hkept, hreading⟩ := shows_iff.mp hshows
  rcases h.course.shows h.sound h.genuine ht hkept with ⟨y, hy, hunread⟩ | ⟨hread, hcut⟩
  · rw [hreading] at hy
    cases hy
    exact .inl hunread
  · obtain ⟨t', ht', hjob⟩ := h.sound.matched.named w h.arrived
    cases ht.symm.trans ht'
    cases hsender : t.sender with
    | true => simp [hreading, hsender] at hcut
    | false =>
      rw [hreading, hsender, hjob] at hcut
      cases hcut
      exact .inr ⟨rfl, h.weigh_alive_eq_zero ht hsender, hread⟩

/-- The result in the course of a ticket is that of the execution of its job. -/
theorem exists_course (h : Watched operation p w seen) :
    ∃ c : Course ω, seen = c.answers w.id ∧ ∀ y, c.result? = some y →
      ∃ i, .called i w ∈ p.history ∧ Answer operation p.history i w y := by
  obtain ⟨t, ht, hjob⟩ := h.sound.matched.named w h.arrived
  obtain ⟨c, hseen, hfits⟩ := h.course.2 t ht
  exact ⟨c, hjob ▸ hseen, fun y hy => h.answer_of_mem_written (hfits.read y hy).1⟩

/-- After a result nothing is shown while the worker has the job. -/
theorem running_of_shows_none (h : Watched operation p w seen) {y : Except JobError ω}
    (hseen : some y ∈ seen) (hshows : p.Shows w.ticket none) :
    ∃ i v, .called i w ∈ p.history ∧ p.workers[i]? = some v ∧ .work w ∈ v.running := by
  obtain ⟨t, ht, hkept, hreading⟩ := shows_iff.mp hshows
  obtain ⟨c, rfl, hfits⟩ := h.course.2 t ht
  have hresult : c.result? = some y := by
    refine (Course.eq_of_mem_answers hseen).resolve_right ?_
    rintro ⟨hended, -⟩
    simp [Ticket.reading?, hfits.ended hended] at hreading
  obtain ⟨i, hcalled, -⟩ := h.answer_of_mem_written (hfits.read y hresult).1
  have hrunning : .work w ∈ p.running := by
    refine (List.mem_append.mp (h.shows_none hshows).1).resolve_left fun hkept => ?_
    exact h.sound.not_called_of_kept hkept i hcalled
  obtain ⟨v, hv, hw⟩ := List.mem_flatMap.mp hrunning
  obtain ⟨k, hk⟩ := List.getElem?_of_mem hv
  exact ⟨k, v, (h.answering.worker k v hk).called_of_mem_running hw, hk, hw⟩

/-- A ticket that shows the end of the job before any result is that of a job that was not
executed, and will not be. -/
theorem not_called_of_shows (h : Watched operation p w seen)
    (hseen : ∀ y, some y ∈ seen → y = .error (.dropped w.id))
    (hshows : p.Shows w.ticket (some (.error (.dropped w.id)))) (hrun : p.run? ms = some q) :
    w ∉ q.called := by
  obtain ⟨t, ht, hkept, -⟩ := shows_iff.mp hshows
  have hresult : ∀ y ∈ p.written w.ticket, y ≠ .error (.dropped w.id) := by
    intro y hy
    obtain ⟨i, -, hanswer⟩ := h.answer_of_mem_written hy
    exact hanswer.ne_dropped w.id
  obtain ⟨hwritten, -⟩ | ⟨-, hgone, hread⟩ := h.shows_some hshows
  · exact absurd rfl (hresult _ hwritten)
  · have hnone : p.written w.ticket = [] :=
      List.eq_nil_iff_forall_not_mem.mpr fun y hy => hresult y hy (hseen y (hread y hy))
    have hexecuted : weigh (atTicket w.ticket) q.executed = 0 := by
      rw [h.sound.executed_eq_of_gone ht hgone hrun,
        ← h.sound.matched.answered_eq _ t ht hkept, ← length_written, hnone]
      have hrunning := p.unanswered_le (atTicket w.ticket)
      simp only [alive, weigh_append] at hgone
      simp
      omega
    intro hmem
    obtain ⟨i, hcalled⟩ := mem_called.mp hmem
    have hweight := le_weigh (f := atTicket w.ticket) (work_mem_executed hcalled)
    rw [hexecuted, atTicket_work, if_pos rfl] at hweight
    exact absurd hweight (by omega)

end Watched

/-- What is promised of what the ticket of a job shows in a run, and in all that may follow. -/
structure ShowsInOrder (operation : String) (p : Pool π ω) (w : Work π)
    (seen : List (Option (Except JobError ω))) : Prop where
  /-- It has shown nothing, then what the transport answered for the job if that was executed, then
  nothing, and then that the job was dropped. -/
  course : ∃ c : Course ω, seen = c.answers w.id ∧ ∀ y, c.result? = some y →
    ∃ i, .called i w ∈ p.history ∧ Answer operation p.history i w y
  /-- After the result it shows nothing only while the worker has the job. -/
  held : (∃ y, some y ∈ seen) → p.Shows w.ticket none →
    ∃ i v, .called i w ∈ p.history ∧ p.workers[i]? = some v ∧ .work w ∈ v.running
  /-- When it shows before any result that the job was dropped, the job is never executed. -/
  unexecuted : (∀ y, some y ∈ seen → y = .error (.dropped w.id)) →
    p.Shows w.ticket (some (.error (.dropped w.id))) → ∀ ms q, p.run? ms = some q → w ∉ q.called
  /-- When it has shown that the job was dropped, it shows nothing else. -/
  last : some (.error (.dropped w.id)) ∈ seen → ∀ ms q, p.run? ms = some q →
    ∀ x ∈ p.readings w.ticket ms, x = some (.error (.dropped w.id))
  /-- Who waits does so only while somebody has the job. -/
  waits : ∀ ms q, p.Awaits w.ticket ms q → q.Shows w.ticket none → .work w ∈ q.alive
  /-- He gets the result that no reading has shown, as soon as it is there. -/
  unread : ∀ ms q y, p.Awaits w.ticket ms q → y ∈ q.written w.ticket → some y ∉ seen →
    q.Shows w.ticket (some y)
  /-- He gets nothing else, but that the job was dropped if no such result is there or will be. -/
  served : ∀ ms q z, p.Awaits w.ticket ms q → q.Shows w.ticket (some z) →
    z ∈ q.written w.ticket ∧ some z ∉ seen ∨
      z = .error (.dropped w.id) ∧
        ∀ ns r, q.run? ns = some r → ∀ y ∈ r.written w.ticket, some y ∈ seen

variable {c : Config}

theorem watched_of_run (h : (Pool.start c operation).run? ls = some p) (hw : .work w ∈ p.arrivals) :
    Watched operation p w ((Pool.start c operation).readings w.ticket ls) where
  sound := sound_of_run h
  answering := .of_run h
  genuine := genuine_of_run h
  course := onCourse_of_run h w.ticket
  arrived := hw

/-- However clients, coordinator and workers take their steps, a ticket shows what it shows in this
order, and who waits for it gets what is left to get. -/
theorem showsInOrder_of_run (h : (Pool.start c operation).run? ls = some p)
    (hw : .work w ∈ p.arrivals) :
    ShowsInOrder operation p w ((Pool.start c operation).readings w.ticket ls) := by
  have hwatched := watched_of_run h hw
  constructor
  · exact hwatched.exists_course
  · rintro ⟨y, hy⟩ hshows
    exact hwatched.running_of_shows_none hy hshows
  · exact fun hseen hshows ms q hrun => hwatched.not_called_of_shows hseen hshows hrun
  · intro hdropped ms q hrun x hx
    have hq : (Pool.start c operation).run? (ls ++ ms) = some q := run?_append.mpr ⟨p, h, hrun⟩
    have harrived : .work w ∈ q.arrivals := arrivals_subset_of_run hrun hw
    obtain ⟨c', hc', hresult⟩ := (watched_of_run hq harrived).exists_course
    have hne : ∀ y, c'.result? = some y → y ≠ .error (.dropped w.id) := by
      intro y hy
      obtain ⟨i, -, hanswer⟩ := hresult y hy
      exact hanswer.ne_dropped w.id
    have hpairwise := Course.pairwise_answers hne
    rw [← hc', readings_append w.ticket h, List.pairwise_append] at hpairwise
    exact hpairwise.2.2 _ hdropped x hx rfl
  · exact fun ms q hwait hshows => ((hwatched.of_awaits hwait).shows_none hshows).1
  · intro ms q y hwait hy hunread
    obtain ⟨t, ht, hkept⟩ := hwait.exists_ticket
    have hafter := hwatched.of_awaits hwait
    rcases hafter.course.shows hafter.sound hafter.genuine ht hkept with
      ⟨z, hz, hwritten, -⟩ | ⟨hread, -⟩
    · cases hafter.sound.eq_of_mem_written hy hwritten
      exact shows_iff.mpr ⟨t, ht, hkept, hz⟩
    · exact absurd (hread y hy) hunread
  · intro ms q z hwait hshows
    have hafter := hwatched.of_awaits hwait
    refine (hafter.shows_some hshows).imp_right ?_
    rintro ⟨hdropped, hgone, hread⟩
    refine ⟨hdropped, fun ns r hrun y hy => ?_⟩
    obtain ⟨t, ht, hkept⟩ := hwait.exists_ticket
    rw [hafter.sound.written_eq_of_gone ht hkept hgone hrun] at hy
    exact hread y hy

/-- One job is executed, and its ticket is read before, between and after the last steps of the
worker. -/
def readWhileAnswering : List (Label Unit Unit) :=
  [.submit ⟨1⟩ 0 0 1 (), .poll 0, .coordinate, .coordinate, .coordinate, .work 0 [], .work 0 [],
    .handOver 0, .work 0 [], .work 0 [], .work 0 [], .answer 0 (.ok ()), .work 0 [], .poll 0,
    .poll 0, .work 0 [], .poll 0]

theorem showsInOrder_readWhileAnswering : ∃ (p : Pool Unit Unit) (w : Work Unit),
    (Pool.start { workers := 1 } "run").run? readWhileAnswering = some p ∧ .work w ∈ p.arrivals ∧
      ShowsInOrder "run" p w [none, some (.ok ()), none, some (.error (.dropped ⟨1⟩))] := by
  refine ⟨_, .ofTaskCount ⟨1⟩ 0 0 1 () 0, rfl, ?_, ?_⟩
  · decide
  · have hrun : (Pool.start { workers := 1 } "run").run? readWhileAnswering = some _ := rfl
    exact showsInOrder_of_run hrun (by decide)

end Pool
end PacedJobs
