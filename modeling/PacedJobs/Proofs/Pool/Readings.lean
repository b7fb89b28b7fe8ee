import PacedJobs.Proofs.Pool.Fates

/-!
# What tickets show

A move leaves a ticket alone, takes its sending end away, or is a step of its own: the owner reads
it or gives it up, or a result is written to it. So whatever was written to a ticket that its owner
has is still in it, or it was shown to him.
-/

namespace PacedJobs

variable {π ω : Type}

/-- All that a move does to the ticket with a number, with what is written to it. -/
inductive Ticket.Step (n : Nat) :
    Label π ω → Ticket ω → Ticket ω → List (Except JobError ω) → Prop
  | keep {l} (t : Ticket ω) (hl : l ≠ .poll n) : Step n l t t []
  | dropSender {l} (t : Ticket ω) (hl : l ≠ .poll n) : Step n l t t.dropSender []
  | poll (t : Ticket ω) (hkept : t.receiver = true) : Step n (.poll n) t t.poll.2 []
  | forget (t : Ticket ω) (hkept : t.receiver = true) : Step n (.forget n) t t.dropReceiver []
  | write {i ids} (t : Ticket ω) (r : Except JobError ω) (hkept : t.receiver = true)
      (hfree : t.unread = none) : Step n (.work i ids) t { t with unread := some r } [r]

namespace Pool

/-- What a step shows to the owner of the ticket with a number. -/
def shown (p : Pool π ω) (n : Nat) : Label π ω → List (Option (Except JobError ω))
  | .poll m => if m = n then ((p.ticket? n).map fun t => t.poll.1).toList else []
  | _ => []

/-- What the steps of a run show to the owner of the ticket, one after the other. -/
def readings (p : Pool π ω) (n : Nat) : List (Label π ω) → List (Option (Except JobError ω))
  | [] => []
  | l :: ls => p.shown n l ++ ((p.step l).map fun q => q.readings n ls).getD []

variable {p q : Pool π ω} {l : Label π ω} {n : Nat} {t : Ticket ω}

/-- What a move with a label does to the ticket with the number `n`. -/
def TicketMove (p q : Pool π ω) (l : Label π ω) (n : Nat) (t : Ticket ω) : Prop :=
  ∃ t' rs, q.tickets[n]? = some t' ∧ q.written n = rs ++ p.written n ∧ Ticket.Step n l t t' rs

theorem TicketMove.drop (ht : p.tickets[n]? = some t) (hl : l ≠ .poll n) (js : List (Job π))
    (htickets : q.tickets[n]? = (p.tickets.dropAll js)[n]?) (hwritten : q.written n = p.written n) :
    TicketMove p q l n t := by
  rw [Tickets.getElem?_dropAll, ht, Option.map_some] at htickets
  refine ⟨_, [], htickets, hwritten, ?_⟩
  split
  · exact .keep t hl
  · exact .dropSender t hl

theorem TicketMove.stay (ht : p.tickets[n]? = some t) (hl : l ≠ .poll n)
    (htickets : q.tickets[n]? = p.tickets[n]?) (hwritten : q.written n = p.written n) :
    TicketMove p q l n t :=
  .drop ht hl [] htickets hwritten

theorem TicketMove.set (ht : p.tickets[n]? = some t) {m : Nat} {s s' : Ticket ω}
    {rs : List (Except JobError ω)} (hs : p.tickets[m]? = some s) (hl : l ≠ .poll n ∨ m = n)
    (htickets : q.tickets = p.tickets.set m s')
    (hwritten : q.written n = (if m = n then rs else []) ++ p.written n)
    (hstep : Ticket.Step m l s s' rs) : TicketMove p q l n t := by
  by_cases hm : m = n
  · subst hm
    rw [ht] at hs
    cases hs
    have hlt := (List.getElem?_eq_some_iff.mp ht).1
    refine ⟨s', rs, ?_, by simpa using hwritten, hstep⟩
    rw [htickets, List.getElem?_set_self hlt]
  · refine .stay ht (hl.resolve_right hm) ?_ (by simpa [hm] using hwritten)
    rw [htickets, List.getElem?_set_ne hm]

theorem written_reserve (p : Pool π ω) (ids : List JobId) (n : Nat) :
    (p.reserve ids).written n = p.written n := by
  rcases p.reserve_cases ids with heq | ⟨-, heq⟩
  · rw [heq]
  · rw [heq]
    exact written_of_history [.reserved ids] rfl n (by simp)

theorem Move.ticket (h : Move p l q) (ht : p.tickets[n]? = some t) : TicketMove p q l n t := by
  have hlt := (List.getElem?_eq_some_iff.mp ht).1
  have hissue : ∀ (id : JobId) (js : List (Job π)),
      ((p.tickets ++ [Ticket.issue id]).dropAll js)[n]? = (p.tickets.dropAll js)[n]? := by
    intro id js
    rw [Tickets.getElem?_dropAll, Tickets.getElem?_dropAll, List.getElem?_append_left hlt]
  cases h with
  | refuse w hw hclosed => exact .drop ht (by simp) [.work w] (hissue _ _) rfl
  | accept w hw hopen => exact .stay ht (by simp) (List.getElem?_append_left hlt) rfl
  | cancel j queue hdelete => exact .drop ht (by simp) [j] rfl rfl
  | sweep js queue hsweep => exact .drop ht (by simp) js rfl rfl
  | reserve hcall hids =>
    refine .stay ht (by simp) ?_ (p.written_reserve _ n)
    rw [← p.tickets_reserve _]
    rfl
  | shut hcall => exact .drop ht (by simp) p.queue.jobs rfl rfl
  | @poll m s hs hkept =>
    refine .set ht hs ?_ rfl (by simp [written, Pool.setTicket]) (.poll s hkept)
    by_cases hm : m = n
    · exact .inr hm
    · exact .inl (by simpa using hm)
  | @forget m s hs hkept =>
    exact .set ht hs (.inl (by simp)) rfl (by simp [written, Pool.setTicket]) (.forget s hkept)
  | @abandon j hat => exact .drop ht (by simp) [j] rfl rfl
  | @giveUp i ids j hat hfired => exact .drop ht (by simp) [j] rfl rfl
  | prepare hat hmode hmore hids =>
    refine .stay ht (by simp) ?_ (p.written_reserve _ n)
    rw [← p.tickets_reserve _]
    rfl
  | @write i ids w r began s hat hs hkept hfree =>
    refine .set ht hs (.inl (by simp)) rfl ?_ (.write s r hkept hfree)
    by_cases hw : w.ticket = n <;> simp [written, record, hw, setWorker, Pool.setTicket]
  | @finish i ids w began w' hat => exact .drop ht (by simp) [.work w] rfl rfl
  | _ => exact .stay ht (by simp) rfl rfl

theorem Move.written_of_none (h : Move p l q) (hnone : p.tickets[n]? = none) :
    q.written n = p.written n := by
  cases h with
  | reserve hcall hids => exact p.written_reserve _ n
  | prepare hat hmode hmore hids => exact p.written_reserve _ n
  | @write i ids w r began s hat hs hkept hfree =>
    refine written_of_history [.written i w r] rfl n ?_
    intro i' w' r' hmem hw'
    cases List.mem_singleton.mp hmem
    rw [hw', hnone] at hs
    cases hs
  | _ => rfl

/-- What was written to the ticket while its owner has it is in it, or he has seen it. -/
def Told (p : Pool π ω) (n : Nat) (seen : List (Option (Except JobError ω))) : Prop :=
  ∀ t, p.tickets[n]? = some t → t.receiver = true →
    ∀ r ∈ p.written n, t.unread = some r ∨ some r ∈ seen

variable {seen : List (Option (Except JobError ω))} {ls : List (Label π ω)}

theorem Told.move (h : Told p n seen) (hsound : Sound p) (hmove : Move p l q) :
    Told q n (seen ++ p.shown n l) := by
  intro t' ht' hkept r hr
  cases ht : p.tickets[n]? with
  | none =>
    rw [hmove.written_of_none ht,
      hsound.written_eq_nil_of_le (List.getElem?_eq_none_iff.mp ht)] at hr
    cases hr
  | some t =>
    obtain ⟨s, rs, hs, hwritten, hstep⟩ := hmove.ticket ht
    cases hs.symm.trans ht'
    rw [hwritten] at hr
    cases hstep with
    | keep _ hl => exact (h _ ht hkept r hr).imp_right (List.mem_append_left _)
    | dropSender _ hl => exact (h _ ht hkept r hr).imp_right (List.mem_append_left _)
    | poll _ hreceiver =>
      refine .inr (List.mem_append.mpr ((h _ ht hreceiver r hr).symm.imp_right fun hunread => ?_))
      simp [shown, ticket?, ht, hreceiver, Ticket.poll, Ticket.reading?, hunread]
    | forget _ hreceiver => cases hkept
    | write _ r' hreceiver hfree =>
      rcases List.mem_cons.mp hr with rfl | hr
      · exact .inl rfl
      · exact .inr (List.mem_append_left _ ((h _ ht hreceiver r hr).resolve_left (by simp [hfree])))

theorem Told.run (h : Told p n seen) (hsound : Sound p) (hrun : p.run? ls = some q) :
    Told q n (seen ++ p.readings n ls) := by
  induction ls generalizing p seen with
  | nil =>
    cases hrun
    simpa [readings] using h
  | cons l ls ih =>
    obtain ⟨r, hr, hrun⟩ := run?_cons.mp hrun
    have hmove := move_of_step hr
    have htold := ih (h.move hsound hmove) (hsound.move hmove) hrun
    rwa [readings, hr, Option.map_some, Option.getD_some, ← List.append_assoc]

/-- What was written to a ticket that its owner has is in it, or he has read it. -/
theorem told_of_run {c : Config} {operation : String}
    (h : (Pool.start c operation).run? ls = some p) (n : Nat) :
    Told p n ((Pool.start c operation).readings n ls) := by
  have hstart : Told (Pool.start c operation : Pool π ω) n [] := by
    intro t ht
    cases ht
  simpa using hstart.run (.start c operation) h

/-- What is unread in a ticket was written to it. -/
def Genuine (p : Pool π ω) : Prop :=
  ∀ n t r, p.tickets[n]? = some t → t.unread = some r → r ∈ p.written n

theorem Genuine.move (h : Genuine p) (hsound : Sound p) (hmove : Move p l q) : Genuine q := by
  intro n t' r ht' hr
  cases ht : p.tickets[n]? with
  | none =>
    have hanswered := (hsound.move hmove).matched.unread n t' ht' (by simp [hr])
    rw [← length_written, hmove.written_of_none ht,
      hsound.written_eq_nil_of_le (List.getElem?_eq_none_iff.mp ht)] at hanswered
    cases hanswered
  | some t =>
    obtain ⟨s, rs, hs, hwritten, hstep⟩ := hmove.ticket ht
    cases hs.symm.trans ht'
    rw [hwritten]
    cases hstep with
    | keep _ hl => exact List.mem_append_right _ (h n _ r ht hr)
    | dropSender _ hl => exact List.mem_append_right _ (h n _ r ht hr)
    | poll _ hreceiver => cases hr
    | forget _ hreceiver => cases hr
    | write _ r' hreceiver hfree =>
      cases hr
      exact List.mem_cons_self

theorem genuine_of_run {c : Config} {operation : String}
    (h : (Pool.start c operation).run? ls = some p) : Genuine p := by
  let I (p : Pool π ω) : Prop := Sound p ∧ Genuine p
  have hstart : Genuine (Pool.start c operation : Pool π ω) := by
    intro n t r ht
    cases ht
  have hI : I p := invariant_run? (I := I)
    (fun hp hmove => ⟨hp.1.move hmove, hp.2.move hp.1 hmove⟩) ⟨.start c operation, hstart⟩ h
  exact hI.2

end Pool
end PacedJobs
