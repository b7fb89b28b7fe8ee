import PacedJobs.Proofs.Pool.Custody

/-!
# What tickets know of their jobs

Every ticket belongs to one job. The sending end of its channel exists exactly as long as somebody
has the job or its work runs, and while the owner keeps the ticket every answer is written.
-/

namespace PacedJobs

variable {π ω : Type}

namespace Pool

/-- The jobs that somebody has. -/
def alive (p : Pool π ω) : List (Job π) :=
  p.kept ++ p.running

/-- What the tickets of a pool tell of its jobs. -/
structure Matched (p : Pool π ω) : Prop where
  numbered : ∀ n, weigh (atTicket n) p.arrivals = if n < p.tickets.length then 1 else 0
  named : ∀ w, .work w ∈ p.arrivals → ∃ t, p.tickets[w.ticket]? = some t ∧ t.job = w.id
  sender_iff : ∀ n t, p.tickets[n]? = some t →
    weigh (atTicket n) p.alive = if t.sender then 1 else 0
  answered_eq : ∀ n t, p.tickets[n]? = some t → t.receiver = true →
    weigh (atTicket n) p.answered + weigh (atTicket n) p.unanswered =
      weigh (atTicket n) p.executed
  unread : ∀ n t, p.tickets[n]? = some t → t.unread ≠ none → 1 ≤ weigh (atTicket n) p.answered

variable {p q : Pool π ω} {l : Label π ω}

theorem Move.length_tickets_le (h : Move p l q) : p.tickets.length ≤ q.tickets.length := by
  cases h with
  | refuse w hw hclosed => simp [record, addCall, drop]
  | accept w hw hopen => simp [record, addCall]
  | cancel j queue hdelete => simp [record, drop]
  | sweep js queue hsweep => simp [record, drop]
  | reserve hcall hids => exact (congrArg List.length (p.tickets_reserve _)).ge
  | shut hcall => simp [setCall, Pool.shut, record, drop]
  | poll t ht hkept => simp [Pool.setTicket]
  | forget t ht hkept => simp [Pool.setTicket]
  | abandon hat => simp [record, drop]
  | giveUp hat hfired => simp [record, drop, setWorker]
  | prepare hat hmode hmore hids => exact (congrArg List.length (p.tickets_reserve _)).ge
  | write t hat ht hkept hfree => simp [record, setWorker, Pool.setTicket]
  | finish hat => simp [drop, setWorker]
  | _ => exact Nat.le_refl _

theorem executed_le (p : Pool π ω) (f : Job π → Nat) :
    weigh f p.executed ≤ weigh f p.departures := by
  unfold executed departures
  induction p.history with
  | nil => exact Nat.le_refl _
  | cons e es ih =>
    have hone : weigh f e.executed ≤ weigh f e.departures := by
      cases e <;> simp [Event.executed, Event.departures]
    simp only [List.flatMap_cons, weigh_append]
    omega

theorem unanswered_le (p : Pool π ω) (f : Job π → Nat) :
    weigh f p.unanswered ≤ weigh f p.running := by
  unfold unanswered running
  induction p.workers with
  | nil => exact Nat.le_refl _
  | cons w ws ih =>
    have hone : weigh f w.unanswered ≤ weigh f w.running := by
      cases w <;> simp [Worker.unanswered, Worker.running]
    simp only [List.flatMap_cons, weigh_append]
    omega

theorem weigh_alive_setWorker {f : Job π → Nat} {i : Nat} {w : Worker π ω}
    (hat : p.workers[i]? = some w) (w' : Worker π ω) :
    weigh f (p.setWorker i w').alive + (weigh f w.hand + weigh f w.running) =
      weigh f p.alive + (weigh f w'.hand + weigh f w'.running) := by
  have hhands := weigh_flatMap_set (f := f) Worker.hand hat w'
  have hruns := weigh_flatMap_set (f := f) Worker.running hat w'
  simp only [alive, kept, hands, running, setWorker, weigh_append]
  omega

theorem weigh_unanswered_setWorker {f : Job π → Nat} {i : Nat} {w : Worker π ω}
    (hat : p.workers[i]? = some w) (w' : Worker π ω) :
    weigh f (p.setWorker i w').unanswered + weigh f w.unanswered =
      weigh f p.unanswered + weigh f w'.unanswered :=
  weigh_flatMap_set Worker.unanswered hat w'

theorem Balanced.alive_le {f : Job π → Nat} (h : Balanced p f) :
    weigh f p.alive ≤ weigh f p.arrivals := by
  have hconserved := h.conserved
  have hrunning := h.running_le
  have hexecuted := p.executed_le f
  simp only [alive, weigh_append]
  omega

theorem Balanced.executed_le_arrivals {f : Job π → Nat} (h : Balanced p f) :
    weigh f p.executed ≤ weigh f p.arrivals := by
  have hconserved := h.conserved
  have hexecuted := p.executed_le f
  omega

namespace Matched

theorem gone (h : Matched p) (js : List (Job π)) (htickets : q.tickets = p.tickets.dropAll js)
    (harrivals : ∃ ids : List JobId, q.arrivals = ids.map .placeholder ++ p.arrivals)
    (halive : ∀ n, weigh (atTicket n) q.alive + weigh (atTicket n) js =
      weigh (atTicket n) p.alive)
    (hanswers : ∀ n, weigh (atTicket n) q.answered + weigh (atTicket n) q.unanswered =
      weigh (atTicket n) p.answered + weigh (atTicket n) p.unanswered)
    (hanswered : ∀ n, weigh (atTicket n) q.answered = weigh (atTicket n) p.answered)
    (hexecuted : ∀ n, weigh (atTicket n) q.executed = weigh (atTicket n) p.executed) :
    Matched q := by
  obtain ⟨ids, harrivals⟩ := harrivals
  have hticket : ∀ n t, q.tickets[n]? = some t → ∃ t', p.tickets[n]? = some t' ∧
      t = if weigh (atTicket n) js = 0 then t' else t'.dropSender := by
    intro n t ht
    rw [htickets, Tickets.getElem?_dropAll] at ht
    obtain ⟨t', ht', rfl⟩ := Option.map_eq_some_iff.mp ht
    exact ⟨t', ht', rfl⟩
  constructor
  · intro n
    rw [harrivals, weigh_append, weigh_atTicket_placeholders, h.numbered, htickets]
    simp
  · intro w hw
    have hold : .work w ∈ p.arrivals := by simpa [harrivals] using hw
    obtain ⟨t, ht, hjob⟩ := h.named w hold
    refine ⟨_, by rw [htickets, Tickets.getElem?_dropAll, ht]; rfl, ?_⟩
    split <;> exact hjob
  · intro n t ht
    obtain ⟨t', ht', rfl⟩ := hticket n t ht
    have hsender := h.sender_iff n t' ht'
    have hweight := halive n
    split
    next hnone =>
      rw [← hsender]
      omega
    next hsome =>
      have : weigh (atTicket n) p.alive ≤ 1 := by
        rw [hsender]
        split <;> omega
      simp only [Ticket.dropSender, Bool.false_eq_true, if_false]
      omega
  · intro n t ht hkept
    obtain ⟨t', ht', rfl⟩ := hticket n t ht
    have hkept' : t'.receiver = true := by
      revert hkept
      split <;> exact id
    rw [hanswers, hexecuted]
    exact h.answered_eq n t' ht' hkept'
  · intro n t ht hunread
    obtain ⟨t', ht', rfl⟩ := hticket n t ht
    have hunread' : t'.unread ≠ none := by
      revert hunread
      split <;> exact id
    rw [hanswered]
    exact h.unread n t' ht' hunread'

/-- The queue and the coordinator move, and jobs may be given up. -/
theorem record (h : Matched p) (queue : Queue π) (c : Coordinator π) (js : List (Job π))
    (es : List (Event π ω))
    (hkept : ∀ n, weigh (atTicket n) queue.line + weigh (atTicket n) c.hand +
      weigh (atTicket n) js =
        weigh (atTicket n) p.queue.line + weigh (atTicket n) p.coordinator.hand)
    (hnew : ∃ ids : List JobId, es.flatMap Event.arrivals = ids.map .placeholder)
    (hanswered : es.flatMap Event.answered = []) (hexecuted : es.flatMap Event.executed = []) :
    Matched
      { p with
        queue := queue, coordinator := c, tickets := p.tickets.dropAll js
        history := es ++ p.history } := by
  obtain ⟨ids, hnew⟩ := hnew
  refine h.gone js rfl ⟨ids, ?_⟩ ?_ ?_ ?_ ?_
  · simp only [arrivals, List.flatMap_append, hnew]
  · intro n
    have := hkept n
    simp only [alive, kept, hands, running, weigh_append]
    omega
  all_goals
    intro n
    simp only [answered, executed, unanswered, List.flatMap_append, hanswered, hexecuted,
      List.nil_append]

theorem exchange (h : Matched p) {i : Nat} {w w' : Worker π ω} (js : List (Job π))
    (es : List (Event π ω)) (hat : p.workers[i]? = some w)
    (hload : ∀ n, weigh (atTicket n) w'.hand + weigh (atTicket n) w'.running +
      weigh (atTicket n) js = weigh (atTicket n) w.hand + weigh (atTicket n) w.running)
    (hunanswered : w'.unanswered = w.unanswered) (hnew : es.flatMap Event.arrivals = [])
    (hanswered : es.flatMap Event.answered = []) (hexecuted : es.flatMap Event.executed = []) :
    Matched
      { p.setWorker i w' with tickets := p.tickets.dropAll js, history := es ++ p.history } := by
  have hawaited : ∀ n, weigh (atTicket n) (p.setWorker i w').unanswered =
      weigh (atTicket n) p.unanswered := by
    intro n
    have := weigh_unanswered_setWorker (f := atTicket n) hat w'
    rw [hunanswered] at this
    omega
  refine h.gone js rfl ⟨[], ?_⟩ ?_ ?_ ?_ ?_
  · simp only [arrivals, List.flatMap_append, hnew, List.map_nil]
  · intro n
    have := hload n
    have halive := weigh_alive_setWorker (f := atTicket n) hat w'
    change weigh (atTicket n) (p.setWorker i w').alive + _ = _
    omega
  · intro n
    change _ + weigh (atTicket n) (p.setWorker i w').unanswered = _
    rw [hawaited]
    simp only [answered, List.flatMap_append, hanswered, List.nil_append]
  all_goals
    intro n
    simp only [answered, executed, List.flatMap_append, hanswered, hexecuted, List.nil_append]

theorem frame (h : Matched p) (calls : List Call) (triggered : Bool) (now : Nat) :
    Matched { p with calls := calls, triggered := triggered, now := now } :=
  ⟨h.numbered, h.named, h.sender_iff, h.answered_eq, h.unread⟩

theorem reserve (h : Matched p) (ids : List JobId) : Matched (p.reserve ids) := by
  rcases p.reserve_cases ids with heq | ⟨-, heq⟩
  · rwa [heq]
  · rw [heq]
    refine h.record _ _ [] [.reserved ids] ?_ ⟨ids, by simp [Event.arrivals]⟩ rfl rfl
    intro n
    have hline := weigh_perm (f := atTicket n) (p.queue.line_insertPlaceholders_perm ids)
    simp only [weigh_append, weigh_atTicket_placeholders] at hline
    simp only [Coordinator.hand_notify, weigh_nil]
    omega

theorem trigger (h : Matched p) : Matched p.trigger := by
  refine h.gone [] rfl ⟨[], rfl⟩ ?_ ?_ ?_ ?_
  all_goals
    intro n
    simp only [Pool.trigger, Pool.record, alive, kept, hands, running, answered, unanswered,
      executed, List.flatMap_map, Worker.hand_notify, Worker.running_notify,
      Worker.unanswered_notify, List.flatMap_cons, Event.answered, Event.executed,
      List.nil_append, weigh_nil, Nat.add_zero]

theorem push (h : Matched p) (hb : ∀ f, Balanced p f) (w : Work π)
    (hticket : w.ticket = p.tickets.length) (queue : Queue π) (c : Coordinator π)
    (hline : ∀ n, weigh (atTicket n) queue.line + weigh (atTicket n) c.hand =
      atTicket n (.work w) + (weigh (atTicket n) p.queue.line +
        weigh (atTicket n) p.coordinator.hand)) :
    Matched ({ p with
      queue := queue, coordinator := c, tickets := p.tickets ++ [Ticket.issue w.id] }.record
        (.pushed w)) := by
  have harrivals : ∀ n, weigh (atTicket n) (({ p with
      queue := queue, coordinator := c, tickets := p.tickets ++ [Ticket.issue w.id] }.record
        (.pushed w)).arrivals) = atTicket n (.work w) + weigh (atTicket n) p.arrivals := by
    intro n
    simp only [arrivals, Pool.record, List.flatMap_cons, Event.arrivals, weigh_append, weigh_cons,
      weigh_nil]
    omega
  have halive : ∀ n, weigh (atTicket n) (({ p with
      queue := queue, coordinator := c, tickets := p.tickets ++ [Ticket.issue w.id] }.record
        (.pushed w)).alive) = atTicket n (.work w) + weigh (atTicket n) p.alive := by
    intro n
    have := hline n
    simp only [alive, kept, hands, running, Pool.record, weigh_append]
    omega
  have hnone : weigh (atTicket p.tickets.length) p.arrivals = 0 := by
    rw [h.numbered]
    simp
  have hcases : ∀ n t, (p.tickets ++ [Ticket.issue w.id])[n]? = some t →
      p.tickets[n]? = some t ∧ w.ticket ≠ n ∨ t = Ticket.issue w.id ∧ w.ticket = n := by
    intro n t ht
    rcases Nat.lt_trichotomy n p.tickets.length with hn | hn | hn
    · rw [List.getElem?_append_left hn] at ht
      exact .inl ⟨ht, by omega⟩
    · subst hn
      simp only [List.getElem?_concat_length, Option.some.injEq] at ht
      exact .inr ⟨ht.symm, hticket⟩
    · rw [List.getElem?_eq_none (by simp; omega)] at ht
      cases ht
  constructor
  · intro n
    rw [harrivals, h.numbered, atTicket_work, hticket]
    simp only [Pool.record, List.length_append, List.length_singleton]
    split_ifs <;> omega
  · intro w' hw'
    simp only [arrivals, Pool.record, List.flatMap_cons, Event.arrivals, List.cons_append,
      List.nil_append, List.mem_cons, Job.work.injEq] at hw'
    rcases hw' with rfl | hw'
    · exact ⟨Ticket.issue w'.id, by simp [Pool.record, hticket], rfl⟩
    · obtain ⟨t, ht, hjob⟩ := h.named w' hw'
      have hlt : w'.ticket < p.tickets.length := (List.getElem?_eq_some_iff.mp ht).1
      exact ⟨t, by simpa [Pool.record, List.getElem?_append_left hlt] using ht, hjob⟩
  · intro n t ht
    rw [halive, atTicket_work]
    rcases hcases n t ht with ⟨hold, hne⟩ | ⟨rfl, rfl⟩
    · rw [if_neg hne, h.sender_iff n t hold]
      omega
    · have := (hb (atTicket w.ticket)).alive_le
      rw [hticket] at this ⊢
      simp only [Ticket.issue, if_true]
      omega
  · intro n t ht hkept
    rcases hcases n t ht with ⟨hold, -⟩ | ⟨-, rfl⟩
    · exact h.answered_eq n t hold hkept
    · have hanswered := (hb (atTicket w.ticket)).answered_le
      have hexecuted := (hb (atTicket w.ticket)).executed_le_arrivals
      simp only [Pool.record, answered, unanswered, executed, List.flatMap_cons, Event.answered,
        Event.executed, List.nil_append] at hanswered hexecuted ⊢
      rw [hticket] at hanswered hexecuted ⊢
      omega
  · intro n t ht hunread
    rcases hcases n t ht with ⟨hold, -⟩ | ⟨rfl, -⟩
    · exact h.unread n t hold hunread
    · exact absurd rfl hunread

/-- A ticket may be read and given up, and a result that was written may stand in it. -/
theorem setTicket (h : Matched p) {n : Nat} {t t' : Ticket ω} (ht : p.tickets[n]? = some t)
    (hjob : t'.job = t.job) (hsender : t'.sender = t.sender)
    (hreceiver : t'.receiver = true → t.receiver = true)
    (hunread : t'.unread ≠ none → 1 ≤ weigh (atTicket n) p.answered) :
    Matched (p.setTicket n t') := by
  have hold : ∀ m s, (p.tickets.set n t')[m]? = some s →
      p.tickets[m]? = some s ∨ m = n ∧ s = t' := by
    intro m s hs
    rw [List.getElem?_set] at hs
    split at hs
    next hm =>
      split at hs
      · exact .inr ⟨hm.symm, (Option.some.inj hs).symm⟩
      · cases hs
    next => exact .inl hs
  constructor
  · intro m
    have hlength : (p.setTicket n t').tickets.length = p.tickets.length := by
      simp [Pool.setTicket]
    rw [hlength]
    exact h.numbered m
  · intro w hw
    obtain ⟨s, hs, hname⟩ := h.named w hw
    by_cases hn : n = w.ticket
    · subst hn
      rw [ht] at hs
      cases hs
      refine ⟨t', ?_, hjob.trans hname⟩
      have hlt : w.ticket < p.tickets.length := (List.getElem?_eq_some_iff.mp ht).1
      simp [Pool.setTicket, hlt]
    · exact ⟨s, by simpa [Pool.setTicket, hn] using hs, hname⟩
  · intro m s hs
    rcases hold m s hs with hs | ⟨rfl, rfl⟩
    · exact h.sender_iff m s hs
    · rw [hsender]
      exact h.sender_iff m t ht
  · intro m s hs hkept
    rcases hold m s hs with hs | ⟨rfl, rfl⟩
    · exact h.answered_eq m s hs hkept
    · exact h.answered_eq m t ht (hreceiver hkept)
  · intro m s hs hsome
    rcases hold m s hs with hs | ⟨rfl, rfl⟩
    · exact h.unread m s hs hsome
    · exact hunread hsome

theorem call (h : Matched p) {i : Nat} {v : Worker π ω} {w : Work π} {began : Nat}
    (hat : p.workers[i]? = some v) (hhand : v.hand = [.work w]) (hrunning : v.running = [])
    (hunanswered : v.unanswered = []) : Matched (p.call i w began) := by
  refine ⟨h.numbered, h.named, ?_, ?_, h.unread⟩
  · intro n t ht
    have halive := weigh_alive_setWorker (f := atTicket n) hat (.executing w began)
    rw [hhand, hrunning] at halive
    simp only [Worker.hand, Worker.running, weigh_nil] at halive
    have hsame : weigh (atTicket n) (p.call i w began).alive = weigh (atTicket n) p.alive := by
      change weigh (atTicket n) (p.setWorker i (.executing w began)).alive = _
      omega
    rw [hsame, h.sender_iff n t ht]
  · intro n t ht hkept
    have hawaited := weigh_unanswered_setWorker (f := atTicket n) hat (.executing w began)
    have hanswered := h.answered_eq n t ht hkept
    rw [hunanswered] at hawaited
    simp only [answered, unanswered, executed, Pool.call, Pool.record, setWorker,
      List.flatMap_cons, Event.answered, Event.executed, weigh_append, Worker.unanswered,
      weigh_cons, weigh_nil] at *
    omega

theorem answer (h : Matched p) {i : Nat} {w : Work π} {r : Except JobError ω} {began : Nat}
    (hat : p.workers[i]? = some (.replying w r began)) :
    Matched ((p.setWorker i (.delivered w began)).record (.written i w r)) := by
  refine ⟨h.numbered, h.named, ?_, ?_, ?_⟩
  · intro n t ht
    have halive := weigh_alive_setWorker (f := atTicket n) hat (.delivered w began)
    exact (Nat.add_right_cancel halive).trans (h.sender_iff n t ht)
  · intro n t ht hkept
    have hawaited := weigh_unanswered_setWorker (f := atTicket n) hat (.delivered w began)
    have hanswered := h.answered_eq n t ht hkept
    simp only [answered, unanswered, executed, Pool.record, setWorker, List.flatMap_cons,
      Event.answered, Event.executed, weigh_append, Worker.unanswered, weigh_cons, weigh_nil] at *
    omega
  · intro n t ht hunread
    have hone := h.unread n t ht hunread
    simp only [answered, Pool.record, setWorker, List.flatMap_cons, weigh_append] at *
    omega

theorem write (h : Matched p) {i : Nat} {w : Work π} {r : Except JobError ω} {began : Nat}
    {t : Ticket ω} (hat : p.workers[i]? = some (.replying w r began))
    (ht : p.tickets[w.ticket]? = some t) :
    Matched (((p.setTicket w.ticket { t with unread := some r }).setWorker i
      (.delivered w began)).record (.written i w r)) := by
  refine (h.answer hat).setTicket ht rfl rfl id fun _ => ?_
  simp [answered, Pool.record, Event.answered]

/-- Nothing is lost for an owner who waits: his ticket has room for the answer. -/
theorem receiver_eq_false_of_miss (h : Matched p) (hb : ∀ f, Balanced p f) {i : Nat} {w : Work π}
    {r : Except JobError ω} {began : Nat} {t : Ticket ω}
    (hat : p.workers[i]? = some (.replying w r began)) (ht : p.tickets[w.ticket]? = some t)
    (hmiss : t.receiver = false ∨ t.unread ≠ none) : t.receiver = false := by
  rcases hmiss with hgone | hunread
  · exact hgone
  · have hone := h.unread _ t ht hunread
    have hnumbered := h.numbered w.ticket
    have hanswered := (hb (atTicket w.ticket)).answered_le
    have hexecuted := (hb (atTicket w.ticket)).executed_le_arrivals
    have hlt : w.ticket < p.tickets.length := (List.getElem?_eq_some_iff.mp ht).1
    have hwaiting : 1 ≤ weigh (atTicket w.ticket) p.unanswered := by
      have hmem : Job.work w ∈ p.unanswered :=
        List.mem_flatMap.mpr ⟨_, List.mem_of_getElem? hat, List.mem_singleton.mpr rfl⟩
      simpa using le_weigh (f := atTicket w.ticket) hmem
    rw [if_pos hlt] at hnumbered
    omega

theorem miss (h : Matched p) (hb : ∀ f, Balanced p f) {i : Nat} {w : Work π}
    {r : Except JobError ω} {began : Nat} (hat : p.workers[i]? = some (.replying w r began))
    (hmiss : ∀ t, p.tickets[w.ticket]? = some t → t.receiver = false ∨ t.unread ≠ none) :
    Matched (p.setWorker i (.undelivered w began)) := by
  refine ⟨h.numbered, h.named, ?_, ?_, h.unread⟩
  · intro n t ht
    have halive := weigh_alive_setWorker (f := atTicket n) hat (.undelivered w began)
    exact (Nat.add_right_cancel halive).trans (h.sender_iff n t ht)
  · intro n t ht hkept
    have hawaited := weigh_unanswered_setWorker (f := atTicket n) hat (.undelivered w began)
    have hanswered := h.answered_eq n t ht hkept
    have hother : w.ticket ≠ n := by
      rintro rfl
      rw [h.receiver_eq_false_of_miss hb hat ht (hmiss t ht)] at hkept
      cases hkept
    simp only [answered, unanswered, executed, setWorker, Worker.unanswered, weigh_cons, weigh_nil,
      atTicket_work, if_neg hother] at *
    omega

theorem move (h : Matched p) (hb : ∀ f, Balanced p f) (hmove : Move p l q) : Matched q := by
  cases hmove with
  | @refuse id priority submittedAt taskCount payload w hw hclosed =>
    have hticket : w.ticket = p.tickets.length := by rw [hw, Work.ticket_ofTaskCount]
    have hid : w.id = id := by rw [hw, Work.id_ofTaskCount]
    have hpush := h.push hb w hticket { p.queue with line := .work w :: p.queue.line }
      p.coordinator (by simp; omega)
    rw [hid] at hpush
    refine (hpush.gone [.work w] rfl ⟨[], rfl⟩ ?_ ?_ ?_ ?_)
    · intro n
      simp only [alive, kept, hands, running, Pool.record, addCall, drop, List.cons_append,
        weigh_append, weigh_cons, weigh_nil]
      omega
    all_goals
      intro n
      rfl
  | @accept id priority submittedAt taskCount payload w hw hopen =>
    have hticket : w.ticket = p.tickets.length := by rw [hw, Work.ticket_ofTaskCount]
    have hid : w.id = id := by rw [hw, Work.id_ofTaskCount]
    have hpush := h.push hb w hticket
      (p.queue.withJobs (Queue.insertSorted (.work w) p.queue.jobs)) p.coordinator.notify (by
        intro n
        have hline := weigh_perm (f := atTicket n) (p.queue.line_insertSorted_perm (.work w))
        rw [weigh_cons] at hline
        rw [hline, Coordinator.hand_notify]
        omega)
    rw [hid] at hpush
    exact hpush.frame _ _ _
  | cancelMiss hmiss => exact h
  | cancel j queue hdelete =>
    refine h.record queue p.coordinator [j] [.cancelled [j]] ?_ ⟨[], rfl⟩ rfl rfl
    intro n
    have hline := weigh_perm (f := atTicket n) (Queue.line_perm_of_delete hdelete)
    rw [weigh_cons] at hline
    simp only [weigh_cons, weigh_nil]
    omega
  | sweepPanic queue hsweep =>
    refine h.record queue p.coordinator [] [] ?_ ⟨[], rfl⟩ rfl rfl
    intro n
    rw [weigh_perm (Queue.line_perm_of_deleteWhere_panic hsweep), weigh_nil]
    omega
  | sweep js queue hsweep =>
    refine h.record queue p.coordinator js [.cancelled js] ?_ ⟨[], rfl⟩ rfl rfl
    intro n
    have hline := weigh_perm (f := atTicket n) (Queue.line_perm_of_deleteWhere hsweep)
    rw [weigh_append] at hline
    omega
  | close => exact h.frame _ _ _
  | reserve hcall hids => exact (h.reserve _).frame _ _ _
  | trigger hcall => exact h.trigger.frame _ _ _
  | shut hcall =>
    refine (h.record p.queue.close.2 p.coordinator.notify p.queue.jobs [.closed p.queue.jobs] ?_
      ⟨[], rfl⟩ rfl rfl).frame _ _ _
    intro n
    have hline := weigh_perm (f := atTicket n) p.queue.jobs_perm
    simp only [Queue.close, Coordinator.hand_notify, weigh_nil]
    omega
  | poll t ht hkept => exact h.setTicket ht rfl rfl id fun hsome => absurd rfl hsome
  | forget t ht hkept => exact h.setTicket ht rfl rfl (fun _ => hkept) fun hsome => absurd rfl hsome
  | coordinate hturn hawake =>
    refine h.record p.queue _ [] [] ?_ ⟨[], rfl⟩ rfl rfl
    intro n
    rw [hturn.hand_eq, weigh_nil]
    omega
  | @pop j js hat hline =>
    refine h.record { p.queue with line := js } (.holding j) [] [.popped j] ?_ ⟨[], rfl⟩ rfl rfl
    intro n
    simp only [hline, hat, Coordinator.hand, weigh_cons, weigh_nil]
    omega
  | @abandon j hat =>
    refine h.record p.queue .stopped [j] [.abandoned j] ?_ ⟨[], rfl⟩ rfl rfl
    intro n
    rw [hand_eq_of_abandon hat]
    simp only [Coordinator.hand, weigh_cons, weigh_nil]
    omega
  | rouse hat =>
    refine h.record p.queue .checking [] [] ?_ ⟨[], rfl⟩ rfl rfl
    intro n
    simp only [hat, Coordinator.hand, weigh_nil]
  | work hat hturn hawake =>
    refine h.exchange [] [] hat ?_ hturn.unanswered_eq rfl rfl rfl
    intro n
    rw [hturn.hand_eq, hturn.running_eq, weigh_nil, Nat.add_zero]
  | @giveUp i ids j hat hfired =>
    refine h.exchange [j] [.abandoned j] hat ?_ rfl rfl rfl rfl
    intro n
    simp only [Worker.hand, Worker.running, weigh_nil]
    omega
  | @begin i ids j hat =>
    refine h.exchange [] [.began i j p.now] hat ?_ rfl rfl rfl rfl
    intro n
    cases j <;> rfl
  | @prepare i ids w began hat hmode hmore hids =>
    rw [← p.workers_reserve ids] at hat
    exact (h.reserve ids).exchange [] [] hat (by intro n; rfl) rfl rfl rfl rfl
  | call hat =>
    rcases hat with ⟨hat, -⟩ | hat
    · exact h.call hat rfl rfl rfl
    · exact h.call hat rfl rfl rfl
  | write t hat ht hkept hfree => exact h.write hat ht
  | miss hat hmiss => exact h.miss hb hat hmiss
  | @finish i ids w began w' hat =>
    obtain ⟨⟨v, hv, hvhand, hvrunning, hvunanswered⟩, hhand, hrunning, hunanswered⟩ :=
      exists_of_finish hat
    refine h.exchange [.work w] [] hv ?_ (hunanswered.trans hvunanswered.symm) rfl rfl rfl
    intro n
    rw [hhand, hrunning, hvhand, hvrunning]
    rfl
  | @handOver i j hat hi =>
    refine h.gone [] rfl ⟨[], rfl⟩ ?_ ?_ ?_ ?_
    · intro n
      have halive := weigh_alive_setWorker (f := atTicket n) hi (.received j)
      simp only [alive, kept, Pool.record, setWorker, hands, running, hat, weigh_append,
        Coordinator.hand, Worker.hand, Worker.running, weigh_nil, weigh_cons] at *
      omega
    · intro n
      have hawaited := weigh_unanswered_setWorker (f := atTicket n) hi (.received j)
      simp only [answered, unanswered, Pool.record, setWorker, List.flatMap_cons, Event.answered,
        Worker.unanswered, List.nil_append, weigh_nil] at *
      omega
    all_goals
      intro n
      rfl
  | @answer i w began r hat =>
    exact h.exchange [] [.returned i w r] hat (by intro n; rfl) rfl rfl rfl rfl
  | rouseWorker hat => exact h.exchange [] [] hat (by intro n; rfl) rfl rfl rfl rfl
  | elapse time => exact h.frame _ _ _

theorem start (c : Config) (operation : String) :
    Matched (Pool.start c operation : Pool π ω) := by
  constructor
  · intro n
    rfl
  · intro w hw
    cases hw
  all_goals
    intro n t ht
    cases ht

end Matched

/-- What holds of the books and of the tickets in all that a run can reach. -/
structure Sound (p : Pool π ω) : Prop where
  balanced : ∀ f, Balanced p f
  matched : Matched p

theorem Sound.move (h : Sound p) (hmove : Move p l q) : Sound q where
  balanced f := (h.balanced f).move hmove
  matched := h.matched.move h.balanced hmove

theorem Sound.start (c : Config) (operation : String) :
    Sound (Pool.start c operation : Pool π ω) where
  balanced _ := .start c operation
  matched := .start c operation

theorem Sound.weigh_arrivals_le (h : Sound p) (n : Nat) : weigh (atTicket n) p.arrivals ≤ 1 := by
  rw [h.matched.numbered]
  split <;> omega

theorem Sound.weigh_executed_le (h : Sound p) (n : Nat) : weigh (atTicket n) p.executed ≤ 1 :=
  (h.balanced (atTicket n)).executed_le_arrivals.trans (h.weigh_arrivals_le n)

theorem sound_of_run {c : Config} {operation : String} {ls : List (Label π ω)}
    (h : (Pool.start c operation).run? ls = some p) : Sound p :=
  invariant_run? (fun hp hmove => hp.move hmove) (.start c operation) h

end Pool
end PacedJobs
