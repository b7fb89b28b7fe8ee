import PacedJobs.Proofs.Pool.Fates
import PacedJobs.Proofs.Pool.Whole
import PacedJobs.Transport

/-!
# A pool in the hands of one client

Somebody has a pool for himself: nobody closes it, and nobody reads his tickets or gives them up
before he does. The transport answers by a function. Then his tickets show the answers of the
transport to the work that he has submitted, but for the work that was cancelled.
-/

namespace PacedJobs

variable {π ω : Type}

/-- What a transport answers to a worker for its work. -/
def Transport.reply (t : Transport π ω) (i : Nat) (w : Work π) : Except Failure ω :=
  t.execute ⟨i, w.id, w.priority, w.taskCount⟩ w.payload

/-- The steps of a pool that is not closed and whose tickets nobody touches. The transport answers
by itself. -/
def Label.Serves (t : Transport π ω) (p : Pool π ω) : Label π ω → Prop
  | close | poll _ | forget _ => False
  | answer i x => ∀ w began, p.workers[i]? = some (.executing w began) → x = t.reply i w
  | _ => True

/-- Whether a client's call goes on without closing the pool. -/
def Call.isHarmless : Call → Bool
  | triggering | shutting => false
  | _ => true

theorem Call.harmless_of_mem_set {calls : List Call} {k : Nat} {c : Call}
    (hc : c ∈ calls.set k .returned) : c ∈ calls ∨ c.isHarmless = true := by
  rcases List.mem_or_eq_of_mem_set hc with hc | rfl
  · exact .inl hc
  · exact .inr rfl

theorem Call.harmless_of_mem_append {calls : List Call} {c d : Call} (hd : d.isHarmless = true)
    (hc : c ∈ calls ++ [d]) : c ∈ calls ∨ c.isHarmless = true := by
  rcases List.mem_append.mp hc with hc | hc
  · exact .inl hc
  · rw [List.mem_singleton.mp hc]
    exact .inr hd

namespace Pool

/-- The pool is served since it gave out so many tickets. The tickets since then hold all that was
written to them. -/
structure Served (t : Transport π ω) (since : Nat) (p : Pool π ω) : Prop where
  quiet : p.triggered = false
  calls : ∀ c ∈ p.calls, c.isHarmless = true
  ticket : ∀ n s, since ≤ n → p.tickets[n]? = some s →
    s.receiver = true ∧ p.written n = s.unread.toList
  returned : ∀ i w x, since ≤ w.ticket → .returned i w x ∈ p.history → x = t.reply i w

variable {t : Transport π ω} {since : Nat} {p q : Pool π ω} {l : Label π ω}

namespace Served

/-- Jobs may be given up, and events may be added, but for answers and results. -/
theorem note (h : Served t since p) (js : List (Job π)) (es : List (Event π ω))
    (hquiet : q.triggered = p.triggered) (hcalls : ∀ c ∈ q.calls, c ∈ p.calls ∨ c.isHarmless = true)
    (htickets : q.tickets = p.tickets.dropAll js) (hhistory : q.history = es ++ p.history)
    (hwritten : ∀ i w r, .written i w r ∉ es) (hreturned : ∀ i w x, .returned i w x ∉ es) :
    Served t since q where
  quiet := hquiet.trans h.quiet
  calls c hc := (hcalls c hc).elim (h.calls c) id
  ticket n s hn hs := by
    rw [htickets, Tickets.getElem?_dropAll] at hs
    obtain ⟨s', hs', rfl⟩ := Option.map_eq_some_iff.mp hs
    rw [written_of_history es hhistory n fun i w r hmem => absurd hmem (hwritten i w r)]
    split <;> exact h.ticket n s' hn hs'
  returned i w x hw hx := by
    rw [hhistory, List.mem_append] at hx
    exact hx.elim (fun hx => absurd hx (hreturned i w x)) (h.returned i w x hw)

theorem reserve (h : Served t since p) (ids : List JobId) : Served t since (p.reserve ids) := by
  rcases p.reserve_cases ids with heq | ⟨-, heq⟩
  · rwa [heq]
  · rw [heq]
    exact h.note [] [.reserved ids] rfl (fun c hc => .inl hc) rfl rfl (by simp) (by simp)

theorem issue (h : Served t since p) (hsound : Sound p) (id : JobId) :
    Served t since { p with tickets := p.tickets ++ [Ticket.issue id] } where
  quiet := h.quiet
  calls := h.calls
  ticket n s hn hs := by
    rcases Nat.lt_trichotomy n p.tickets.length with hlt | heq | hgt
    · exact h.ticket n s hn (by rwa [← List.getElem?_append_left hlt])
    · subst heq
      simp only [List.getElem?_concat_length, Option.some.injEq] at hs
      subst hs
      exact ⟨rfl, hsound.written_eq_nil_of_le (Nat.le_refl _)⟩
    · rw [List.getElem?_eq_none (by simp; omega)] at hs
      cases hs
  returned := h.returned

theorem write (h : Served t since p) {w : Work π} {s : Ticket ω} (i : Nat) (r : Except JobError ω)
    (v : Worker π ω) (hs : p.tickets[w.ticket]? = some s) (hfree : s.unread = none) :
    Served t since (((p.setTicket w.ticket { s with unread := some r }).setWorker i v).record
      (.written i w r)) where
  quiet := h.quiet
  calls := h.calls
  ticket n s' hn hs' := by
    have hlt : w.ticket < p.tickets.length := (List.getElem?_eq_some_iff.mp hs).1
    by_cases hw : w.ticket = n
    · subst hw
      simp only [record, setWorker, setTicket, List.getElem?_set_self hlt, Option.some.injEq] at hs'
      subst hs'
      obtain ⟨hreceiver, hwritten⟩ := h.ticket _ s hn hs
      refine ⟨hreceiver, ?_⟩
      rw [hfree] at hwritten
      have hcons : ∀ p' : Pool π ω, p'.history = .written i w r :: p.history →
          p'.written w.ticket = r :: p.written w.ticket := by
        intro p' hp'
        simp [written, hp']
      rw [hcons _ rfl, hwritten]
      rfl
    · simp only [record, setWorker, setTicket, List.getElem?_set_ne hw] at hs'
      rw [written_of_history [.written i w r] rfl n (by
        intro i' w' r' hmem
        simp only [List.mem_singleton, Event.written.injEq] at hmem
        rw [hmem.2.1]
        exact hw)]
      exact h.ticket n s' hn hs'
  returned i' w' x hw hx := by
    simp only [record, setWorker, setTicket, List.mem_cons, reduceCtorEq, false_or] at hx
    exact h.returned i' w' x hw hx

theorem move (h : Served t since p) (hsound : Sound p) (hmove : Move p l q) (hl : l.Serves t p) :
    Served t since q := by
  have hharmless : ∀ {k : Nat} {c : Call}, p.calls[k]? = some c → c.isHarmless = true :=
    fun hcall => h.calls _ (List.mem_of_getElem? hcall)
  cases hmove with
  | @refuse id priority submittedAt taskCount payload w hw hclosed =>
    exact (h.issue hsound id).note [.work w] [.refused w] rfl
      (fun c => Call.harmless_of_mem_append rfl) rfl rfl (by simp) (by simp)
  | @accept id priority submittedAt taskCount payload w hw hopen =>
    exact (h.issue hsound id).note [] [.pushed w] rfl
      (fun c => Call.harmless_of_mem_append (by split <;> rfl)) rfl rfl (by simp) (by simp)
  | cancelMiss hmiss => exact h
  | cancel j queue hdelete =>
    exact h.note [j] [.cancelled [j]] rfl (fun c => .inl) rfl rfl (by simp) (by simp)
  | sweepPanic queue hsweep => exact h.note [] [] rfl (fun c => .inl) rfl rfl (by simp) (by simp)
  | sweep js queue hsweep =>
    exact h.note js [.cancelled js] rfl (fun c => .inl) rfl rfl (by simp) (by simp)
  | close => cases hl
  | reserve hcall hids =>
    exact (h.reserve _).note [] [] rfl (fun c => Call.harmless_of_mem_set) rfl rfl (by simp)
      (by simp)
  | trigger hcall => cases hharmless hcall
  | shut hcall => cases hharmless hcall
  | poll s hs hkept => cases hl
  | forget s hs hkept => cases hl
  | coordinate hturn hawake => exact h.note [] [] rfl (fun c => .inl) rfl rfl (by simp) (by simp)
  | @pop j js hat hline =>
    exact h.note [] [.popped j] rfl (fun c => .inl) rfl rfl (by simp) (by simp)
  | @abandon j hat =>
    exact h.note [j] [.abandoned j] rfl (fun c => .inl) rfl rfl (by simp) (by simp)
  | rouse hat => exact h.note [] [] rfl (fun c => .inl) rfl rfl (by simp) (by simp)
  | work hat hturn hawake => exact h.note [] [] rfl (fun c => .inl) rfl rfl (by simp) (by simp)
  | @giveUp i ids j hat hfired =>
    exact h.note [j] [.abandoned j] rfl (fun c => .inl) rfl rfl (by simp) (by simp)
  | @begin i ids j hat =>
    exact h.note [] [.began i j p.now] rfl (fun c => .inl) rfl rfl (by simp) (by simp)
  | @prepare i ids w began hat hmode hmore hids =>
    exact (h.reserve ids).note [] [] rfl (fun c => .inl) rfl rfl (by simp) (by simp)
  | @call i ids w began hat =>
    exact h.note [] [.called i w] rfl (fun c => .inl) rfl rfl (by simp) (by simp)
  | write s hat hs hkept hfree => exact h.write _ _ _ hs hfree
  | miss hat hmiss => exact h.note [] [] rfl (fun c => .inl) rfl rfl (by simp) (by simp)
  | @finish i ids w began w' hat =>
    exact h.note [.work w] [] rfl (fun c => .inl) rfl rfl (by simp) (by simp)
  | @handOver i j hat hi =>
    exact h.note [] [.received i j] rfl (fun c => .inl) rfl rfl (by simp) (by simp)
  | @answer i w began x hat =>
    refine ⟨h.quiet, h.calls, ?_, ?_⟩
    · intro n s hn hs
      rw [written_of_history [.returned i w x] rfl n (by simp)]
      exact h.ticket n s hn hs
    · intro i' w' x' hw hx
      rcases List.mem_cons.mp hx with heq | hx
      · cases heq
        exact hl w began hat
      · exact h.returned i' w' x' hw hx
  | rouseWorker hat => exact h.note [] [] rfl (fun c => .inl) rfl rfl (by simp) (by simp)
  | elapse time => exact h.note [] [] rfl (fun c => .inl) rfl rfl (by simp) (by simp)

/-- A pool that goes on is served from now on, if no call is under way. -/
theorem of_idle {operation : String} (hsound : Sound p) (ha : Answering operation p)
    (hquiet : p.triggered = false) (hidle : ∀ c ∈ p.calls, c = .returned) :
    Served t p.tickets.length p where
  quiet := hquiet
  calls c hc := by
    rw [hidle c hc]
    rfl
  ticket n s hn hs := by
    have := (List.getElem?_eq_some_iff.mp hs).1
    omega
  returned i w x hw hx := by
    have hmem := hsound.mem_arrivals_of_called (ha.event _ hx)
    obtain ⟨s, hs, -⟩ := hsound.matched.named w hmem
    have := (List.getElem?_eq_some_iff.mp hs).1
    omega

variable {operation : String} {w : Work π} {s : Ticket ω}

/-- A result that was written for a ticket is the answer of the transport to its work. -/
theorem answer_of_mem_written (h : Served t since p) (hsound : Sound p)
    (ha : Answering operation p) (hw : .work w ∈ p.arrivals) (hsince : since ≤ w.ticket)
    {r : Except JobError ω} (hr : r ∈ p.written w.ticket) :
    ∃ i, .called i w ∈ p.history ∧
      r = (t.reply i w).mapError fun f => .transport i w.id operation f := by
  obtain ⟨i, w', hwritten, hticket⟩ := exists_of_mem_written hr
  obtain ⟨x, hx, rfl⟩ := ha.event _ hwritten
  have hcalled : .called i w' ∈ p.history := ha.event _ hx
  have heq := hsound.work_unique hw (hsound.mem_arrivals_of_called hcalled) hticket
  subst heq
  exact ⟨i, hcalled, by rw [h.returned i w' x hsince hx]⟩

theorem reading_of_cancelled (h : Served t since p) (hsound : Sound p) (ha : Answering operation p)
    (hnames : (p.arrivals.map Job.id).Nodup) (hw : .work w ∈ p.arrivals)
    (hsince : since ≤ w.ticket) (hs : p.tickets[w.ticket]? = some s)
    (hcancelled : w.id ∈ p.cancellations.map Job.id) {r : Except JobError ω}
    (hread : s.reading? = some r) : r = .error (.dropped w.id) := by
  have hnot : w.id ∉ p.executed.map Job.id := by
    have hgone := hsound.gone_nodup hnames
    rw [List.map_append] at hgone
    exact fun hexecuted => (List.disjoint_of_nodup_append hgone) hcancelled hexecuted
  have hwritten : p.written w.ticket = [] := by
    refine List.eq_nil_iff_forall_not_mem.mpr fun r' hr' => ?_
    obtain ⟨i, hcalled, -⟩ := h.answer_of_mem_written hsound ha hw hsince hr'
    exact hnot (List.mem_map_of_mem (work_mem_executed hcalled))
  have hunread : s.unread = none := by
    have htoList := (h.ticket _ s hsince hs).2
    rw [hwritten] at htoList
    exact Option.toList_eq_nil_iff.mp htoList.symm
  obtain ⟨s', hs', hjob⟩ := hsound.matched.named w hw
  cases hs.symm.trans hs'
  simp only [Ticket.reading?, hunread] at hread
  split at hread
  · cases hread
  · rw [← Option.some.inj hread, hjob]

/-- Work whose ticket has lost its sending end without a result was cancelled. -/
theorem cancelled_of_dropped (h : Served t since p) (hsound : Sound p) (hwhole : Whole p)
    (hw : .work w ∈ p.arrivals) (hsince : since ≤ w.ticket) (hs : p.tickets[w.ticket]? = some s)
    (hunread : s.unread = none) (hsender : s.sender = false) :
    w.id ∈ p.cancellations.map Job.id := by
  have halive := hsound.matched.sender_iff _ s hs
  rw [hsender, alive, weigh_append] at halive
  simp only [Bool.false_eq_true, if_false] at halive
  have hconserved := (hsound.balanced (atTicket w.ticket)).conserved
  have harrived := le_weigh (f := atTicket w.ticket) hw
  rw [atTicket_work, if_pos rfl] at harrived
  have hgone : weigh (atTicket w.ticket) p.departures ≠ 0 := by omega
  obtain ⟨j, hj, hticket⟩ := exists_of_weigh_ne_zero hgone
  obtain ⟨e, he, hje⟩ := List.mem_flatMap.mp hj
  have hjw : j = .work w := by
    cases j with
    | placeholder id => exact absurd rfl hticket
    | work w' =>
      exact congrArg Job.work (hsound.work_unique hw (hsound.departures_subset hj)
        (by simpa using hticket))
  subst hjw
  have hloss := hwhole.losses e he
  cases e with
  | cancelled js =>
    have hmem : .work w ∈ p.cancellations := List.mem_flatMap.mpr ⟨.cancelled js, he, hje⟩
    exact List.mem_map_of_mem hmem
  | called i w' =>
    cases List.mem_singleton.mp hje
    have hexecuted := le_weigh (f := atTicket w.ticket) (work_mem_executed he)
    rw [atTicket_work, if_pos rfl] at hexecuted
    obtain ⟨hreceiver, hwritten⟩ := h.ticket _ s hsince hs
    have hanswered := hsound.matched.answered_eq _ s hs hreceiver
    have hunanswered := p.unanswered_le (atTicket w.ticket)
    rw [hunread] at hwritten
    have hlength := p.length_written w.ticket
    rw [hwritten] at hlength
    simp only [Option.toList_none, List.length_nil] at hlength
    omega
  | began i j time =>
    cases j with
    | placeholder id => cases List.mem_singleton.mp hje
    | work w' => cases hje
  | refused w' => cases hloss
  | closed js => cases hloss
  | abandoned j => cases hloss
  | _ => cases hje

/-- A ticket shows that its job was dropped, if that was cancelled, and else the answer of the
transport. -/
theorem reading (h : Served t since p) (hsound : Sound p) (ha : Answering operation p)
    (hwhole : Whole p) (hnames : (p.arrivals.map Job.id).Nodup) (hw : .work w ∈ p.arrivals)
    (hsince : since ≤ w.ticket) {r : Except JobError ω}
    (hread : (p.tickets[w.ticket]?).bind Ticket.reading? = some r) :
    w.id ∈ p.cancellations.map Job.id ∧ r = .error (.dropped w.id) ∨
      w.id ∉ p.cancellations.map Job.id ∧ ∃ i, .called i w ∈ p.history ∧
        r = (t.reply i w).mapError fun f => .transport i w.id operation f := by
  obtain ⟨s, hs, hread⟩ := Option.bind_eq_some_iff.mp hread
  by_cases hcancelled : w.id ∈ p.cancellations.map Job.id
  · exact .inl ⟨hcancelled,
      h.reading_of_cancelled hsound ha hnames hw hsince hs hcancelled hread⟩
  · refine .inr ⟨hcancelled, ?_⟩
    cases hunread : s.unread with
    | some r' =>
      have hr : r' = r := by simpa [Ticket.reading?, hunread] using hread
      subst hr
      have hwritten := (h.ticket _ s hsince hs).2
      rw [hunread] at hwritten
      exact h.answer_of_mem_written hsound ha hw hsince (hwritten ▸ List.mem_singleton.mpr rfl)
    | none =>
      have hsender : s.sender = false := by
        cases hsender : s.sender with
        | false => rfl
        | true => simp [Ticket.reading?, hunread, hsender] at hread
      exact absurd (h.cancelled_of_dropped hsound hwhole hw hsince hs hunread hsender) hcancelled

end Served
end Pool
end PacedJobs
