import PacedJobs.Proofs.Queue.Contents
import PacedJobs.Proofs.Queue.Weights
import PacedJobs.Workbench

/-!
# Who owns the jobs of a queue

A ledger is kept of all jobs that a workbench was ever given and of those that it has destroyed. At
every moment each job is pending, or popped and held, or destroyed, and its ticket tells which of
the first two or the last. Nothing is asked of the names of jobs, which may collide, nor of the order
in which the queue stands.
-/

namespace PacedJobs

namespace Workbench

/-- What may be asked of a workbench. The reading of a ticket may be one that waits. -/
inductive Request (π : Type) where
  | submit (id : JobId) (priority : UInt16) (submittedAt : Nat) (taskCount : UInt32) (payload : π)
  | pushPlaceholder (id : JobId)
  | pushHeld (slot : Nat)
  | discard (slot : Nat)
  | reserve (ids : List JobId)
  | pop
  | delete (id : JobId)
  | deleteWhere (judge : Judge π)
  | close
  | poll (ticket : Nat)
  | take (ticket : Nat)

variable {π ω : Type}

def apply (b : Workbench π ω) : Request π → Workbench π ω
  | .submit id priority submittedAt taskCount payload =>
    (b.submit id priority submittedAt taskCount payload).2
  | .pushPlaceholder id => (b.push (.placeholder id)).2
  | .pushHeld slot => ((b.pushHeld slot).map Prod.snd).getD b
  | .discard slot => b.discard slot
  | .reserve ids => (b.reserve ids).2
  | .pop => (b.pop.map Prod.snd).getD b
  | .delete id => (b.delete id).2
  | .deleteWhere judge => (b.deleteWhere judge).2
  | .close => b.close.2
  | .poll n => (b.poll n).2
  | .take n => (b.take n).2

/-- The popped jobs that were neither pushed again nor given up. -/
def heldJobs (b : Workbench π ω) : List (Job π) :=
  b.held.flatMap Option.toList

/-- The jobs that a request makes. A reservation makes none for a closed queue. -/
def brings (b : Workbench π ω) : Request π → List (Job π)
  | .submit id priority submittedAt taskCount payload =>
    [.work (.ofTaskCount id priority submittedAt taskCount payload b.tickets.length)]
  | .pushPlaceholder id => [.placeholder id]
  | .reserve ids => if b.queue.closed then [] else ids.map .placeholder
  | _ => []

def destroys (b : Workbench π ω) (request : Request π) : List (Job π) :=
  match request with
  | .submit .. | .pushPlaceholder _ => if b.queue.closed then b.brings request else []
  | .pushHeld slot => if b.queue.closed then (b.held? slot).toList else []
  | .discard slot => (b.held? slot).toList
  | .delete id => (b.queue.jobs.find? (·.id == id)).toList
  | .deleteWhere judge => (b.queue.deleteWhere judge).1.getD []
  | .close => b.queue.jobs
  | _ => []

end Workbench

open Workbench

/-- A workbench with all jobs that it was ever given, and those that it has destroyed. -/
structure Ledger (π ω : Type) where
  bench : Workbench π ω
  brought : List (Job π)
  destroyed : List (Job π)

/-- Where a ledger can have a job. -/
inductive Column where
  | pending
  | held
  | dropped
deriving DecidableEq

namespace Ledger

variable {π ω : Type}

def empty (selection : Selection) : Ledger π ω :=
  ⟨Workbench.empty selection, [], []⟩

def apply (l : Ledger π ω) (request : Request π) : Ledger π ω :=
  ⟨l.bench.apply request, l.brought ++ l.bench.brings request,
    l.destroyed ++ l.bench.destroys request⟩

def jobsAt (l : Ledger π ω) : Column → List (Job π)
  | .pending => l.bench.queue.jobs
  | .held => l.bench.heldJobs
  | .dropped => l.destroyed

end Ledger

namespace Workbench

variable {π ω : Type}

/-- The books balance while somebody has some jobs in hand. -/
structure Balanced (b : Workbench π ω) (brought hand destroyed : List (Job π)) : Prop where
  conserved : ∀ f, weigh f brought =
    weigh f b.queue.line + weigh f b.heldJobs + weigh f hand + weigh f destroyed
  numbered : ∀ n, weigh (atTicket n) brought = if n < b.tickets.length then 1 else 0
  named : ∀ w, .work w ∈ brought → ∃ t, b.tickets[w.ticket]? = some t ∧ t.job = w.id
  unread : ∀ (n : Nat) (t : Ticket ω), b.tickets[n]? = some t → t.unread = none
  sender_iff : ∀ (n : Nat) (t : Ticket ω), b.tickets[n]? = some t →
    weigh (atTicket n) destroyed = if t.sender then 0 else 1
  emptied : b.queue.closed = true → b.queue.line = []

namespace Balanced

variable {b : Workbench π ω} {brought hand destroyed js : List (Job π)}

theorem empty (selection : Selection) : Balanced (.empty selection : Workbench π ω) [] [] [] where
  conserved f := rfl
  numbered n := rfl
  named w hw := by simp at hw
  unread n t ht := by simp [Workbench.empty] at ht
  sender_iff n t ht := by simp [Workbench.empty] at ht
  emptied _ := rfl

theorem issue (h : Balanced b brought [] destroyed) {w : Work π}
    (hticket : w.ticket = b.tickets.length) :
    Balanced { b with tickets := b.tickets ++ [Ticket.issue w.id] } (brought ++ [.work w])
      [.work w] destroyed := by
  have hold : ∀ n t, (b.tickets ++ [Ticket.issue w.id])[n]? = some t →
      b.tickets[n]? = some t ∨ n = b.tickets.length ∧ t = Ticket.issue w.id := by
    intro n t ht
    rcases Nat.lt_trichotomy n b.tickets.length with hn | hn | hn
    · exact .inl (by rwa [List.getElem?_append_left hn] at ht)
    · subst hn
      exact .inr ⟨rfl, by simpa using ht.symm⟩
    · rw [List.getElem?_eq_none (by simpa using hn)] at ht
      cases ht
  constructor
  · intro f
    have := h.conserved f
    simp only [weigh_append, weigh_cons, weigh_nil] at this ⊢
    change _ = weigh f b.queue.line + weigh f b.heldJobs + _ + _
    omega
  · intro n
    rw [weigh_append, h.numbered, weigh_cons, weigh_nil, atTicket_work, hticket]
    simp only [List.length_append, List.length_singleton]
    grind
  · intro v hv
    rcases List.mem_append.mp hv with hv | hv
    · obtain ⟨t, ht, hjob⟩ := h.named v hv
      exact ⟨t, by rw [List.getElem?_append_left (List.getElem?_eq_some_iff.mp ht).1, ht], hjob⟩
    · cases List.mem_singleton.mp hv
      exact ⟨Ticket.issue w.id, by simp [hticket], rfl⟩
  · intro n t ht
    rcases hold n t ht with ht | ⟨-, rfl⟩
    · exact h.unread n t ht
    · rfl
  · intro n t ht
    rcases hold n t ht with ht | ⟨rfl, rfl⟩
    · exact h.sender_iff n t ht
    · have hconserved := h.conserved (atTicket b.tickets.length)
      rw [h.numbered, if_neg (Nat.lt_irrefl _)] at hconserved
      simp only [Ticket.issue, if_true]
      omega
  · exact h.emptied

theorem placeholders (h : Balanced b brought [] destroyed) (ids : List JobId) :
    Balanced b (brought ++ ids.map .placeholder) (ids.map .placeholder) destroyed where
  conserved f := by
    have := h.conserved f
    simp only [weigh_append, weigh_nil] at this ⊢
    omega
  numbered n := by rw [weigh_append, weigh_atTicket_placeholders, h.numbered, Nat.add_zero]
  named w hw := h.named w (by simpa using hw)
  unread := h.unread
  sender_iff := h.sender_iff
  emptied := h.emptied

theorem drop (h : Balanced b brought js destroyed) :
    Balanced (b.drop js) brought [] (destroyed ++ js) where
  conserved f := by
    have := h.conserved f
    simp only [weigh_append, weigh_nil]
    change _ = weigh f b.queue.line + weigh f b.heldJobs + _ + _
    omega
  numbered n := by
    rw [h.numbered, Workbench.drop, Tickets.length_dropAll]
  named w hw := by
    obtain ⟨t, ht, hjob⟩ := h.named w hw
    refine ⟨_, by rw [Workbench.drop, Tickets.getElem?_dropAll, ht]; rfl, ?_⟩
    split <;> exact hjob
  unread n t ht := by
    rw [Workbench.drop, Tickets.getElem?_dropAll] at ht
    obtain ⟨t', ht', rfl⟩ := Option.map_eq_some_iff.mp ht
    split <;> exact h.unread n t' ht'
  sender_iff n t ht := by
    rw [Workbench.drop, Tickets.getElem?_dropAll] at ht
    obtain ⟨t', ht', rfl⟩ := Option.map_eq_some_iff.mp ht
    have hsender := h.sender_iff n t' ht'
    have hconserved := h.conserved (atTicket n)
    rw [h.numbered, if_pos (List.getElem?_eq_some_iff.mp ht').1] at hconserved
    rw [weigh_append]
    split
    next hnone => rw [hnone, hsender, Nat.add_zero]
    next hsome =>
      simp only [Ticket.dropSender, Bool.false_eq_true, if_false]
      omega
  emptied := h.emptied

theorem store (h : Balanced b brought js destroyed) {q : Queue π} (waiters : List (Option Bool))
    (hopen : q.closed = false) (hline : q.line.Perm (js ++ b.queue.line)) :
    Balanced { b with queue := q, waiters := waiters } brought [] destroyed where
  conserved f := by
    have := h.conserved f
    have hweight := weigh_perm (f := f) hline
    simp only [weigh_append, weigh_nil] at hweight ⊢
    change _ = weigh f q.line + weigh f b.heldJobs + _ + _
    omega
  numbered := h.numbered
  named := h.named
  unread := h.unread
  sender_iff := h.sender_iff
  emptied hclosed := by simp [hopen] at hclosed

theorem fetch (h : Balanced b brought [] destroyed) {q : Queue π}
    (hclosed : q.closed = true → q.line = []) (hline : b.queue.line.Perm (js ++ q.line)) :
    Balanced { b with queue := q } brought js destroyed where
  conserved f := by
    have := h.conserved f
    have hweight := weigh_perm (f := f) hline
    simp only [weigh_append, weigh_nil] at hweight this
    change _ = weigh f q.line + weigh f b.heldJobs + _ + _
    omega
  numbered := h.numbered
  named := h.named
  unread := h.unread
  sender_iff := h.sender_iff
  emptied := hclosed

theorem hold {j : Job π} (h : Balanced b brought [j] destroyed) :
    Balanced { b with held := b.held ++ [some j] } brought [] destroyed where
  conserved f := by
    have := h.conserved f
    simp only [heldJobs, List.flatMap_append, List.flatMap_singleton, Option.toList_some,
      weigh_append, weigh_cons, weigh_nil] at this ⊢
    omega
  numbered := h.numbered
  named := h.named
  unread := h.unread
  sender_iff := h.sender_iff
  emptied := h.emptied

theorem release (h : Balanced b brought [] destroyed) {slot : Nat} {j : Job π}
    (hheld : b.held? slot = some j) :
    Balanced { b with held := b.held.set slot none } brought [j] destroyed where
  conserved f := by
    have hat : b.held[slot]? = some (some j) := Option.join_eq_some_iff.mp hheld
    have := h.conserved f
    have hset := weigh_flatMap_set (f := f) Option.toList hat none
    simp only [heldJobs, Option.toList_some, Option.toList_none, weigh_cons, weigh_nil]
      at this hset ⊢
    omega
  numbered := h.numbered
  named := h.named
  unread := h.unread
  sender_iff := h.sender_iff
  emptied := h.emptied

theorem setTicket (h : Balanced b brought hand destroyed) {n : Nat} {t t' : Ticket ω}
    (ht : b.tickets[n]? = some t) (hjob : t'.job = t.job) (hsender : t'.sender = t.sender)
    (hunread : t'.unread = none) :
    Balanced { b with tickets := b.tickets.set n t' } brought hand destroyed := by
  have hat : ∀ m s, (b.tickets.set n t')[m]? = some s →
      b.tickets[m]? = some s ∨ m = n ∧ s = t' := by
    intro m s hs
    by_cases hm : n = m
    · subst hm
      rw [List.getElem?_set_self (List.getElem?_eq_some_iff.mp ht).1] at hs
      exact .inr ⟨rfl, (Option.some.inj hs).symm⟩
    · exact .inl (by rwa [List.getElem?_set_ne hm] at hs)
  refine ⟨h.conserved, ?_, ?_, ?_, ?_, h.emptied⟩
  · intro m
    rw [h.numbered, List.length_set]
  · intro w hw
    obtain ⟨s, hs, hname⟩ := h.named w hw
    by_cases hm : n = w.ticket
    · subst hm
      cases ht.symm.trans hs
      exact ⟨t', List.getElem?_set_self (List.getElem?_eq_some_iff.mp ht).1, hjob.trans hname⟩
    · exact ⟨s, by rw [List.getElem?_set_ne hm, hs], hname⟩
  · intro m s hs
    rcases hat m s hs with hs | ⟨-, rfl⟩
    · exact h.unread m s hs
    · exact hunread
  · intro m s hs
    rcases hat m s hs with hs | ⟨rfl, rfl⟩
    · exact h.sender_iff m s hs
    · rw [h.sender_iff m t ht, hsender]

theorem emptied_of_perm (h : Balanced b brought hand destroyed) (js : List (Job π))
    {q : Queue π} (hclosed : q.closed = b.queue.closed) (hline : b.queue.line.Perm (js ++ q.line)) :
    q.closed = true → q.line = [] := by
  intro hq
  rw [h.emptied (hclosed ▸ hq)] at hline
  exact (List.append_eq_nil_iff.mp hline.nil_eq.symm).2

theorem push {j : Job π} (h : Balanced b brought [j] destroyed) :
    Balanced (b.push j).2 brought [] (destroyed ++ if b.queue.closed then [j] else []) := by
  unfold Workbench.push Queue.push
  cases hclosed : b.queue.closed with
  | true => exact h.drop
  | false =>
    simp only [Bool.false_eq_true, if_false, List.append_nil]
    exact h.store _ (by simp [hclosed]) (b.queue.line_insertSorted_perm j)

theorem reserve (h : Balanced b brought [] destroyed) (ids : List JobId) :
    Balanced (b.reserve ids).2 (brought ++ b.brings (.reserve ids)) [] destroyed := by
  unfold Workbench.reserve Queue.reserve Workbench.brings
  cases hclosed : b.queue.closed with
  | true => simpa using h
  | false =>
    simp only [Bool.false_eq_true, if_false]
    exact (h.placeholders ids).store _ (by simp [hclosed])
      (b.queue.line_insertPlaceholders_perm ids)

theorem pop (h : Balanced b brought [] destroyed) :
    Balanced ((b.pop.map Prod.snd).getD b) brought [] destroyed := by
  unfold Workbench.pop Queue.pop
  cases hline : b.queue.line with
  | nil => exact h
  | cons j js =>
    have hfetch : Balanced { b with queue := { b.queue with line := js } } brought [j] destroyed :=
      h.fetch (h.emptied_of_perm [j] rfl (hline ▸ .refl _)) (hline ▸ .refl _)
    exact hfetch.hold

theorem delete (h : Balanced b brought [] destroyed) (id : JobId) :
    Balanced (b.delete id).2 brought [] (destroyed ++ b.destroys (.delete id)) := by
  unfold Workbench.delete Workbench.destroys
  cases hdelete : b.queue.delete id with
  | none =>
    have hfind : b.queue.jobs.find? (·.id == id) = none := Option.map_eq_none_iff.mp hdelete
    simpa [hfind] using h
  | some found =>
    obtain ⟨j, q⟩ := found
    have hline := Queue.line_perm_of_delete hdelete
    have hfind : b.queue.jobs.find? (·.id == id) = some j := by
      obtain ⟨i, hfind, hi⟩ := Option.map_eq_some_iff.mp hdelete
      cases hi
      exact hfind
    have hfetch : Balanced { b with queue := q } brought [j] destroyed :=
      h.fetch (h.emptied_of_perm [j] (Queue.closed_of_delete hdelete) hline) hline
    simpa [hfind] using hfetch.drop

theorem deleteWhere (h : Balanced b brought [] destroyed) (judge : Judge π) :
    Balanced (b.deleteWhere judge).2 brought [] (destroyed ++ b.destroys (.deleteWhere judge)) := by
  unfold Workbench.deleteWhere Workbench.destroys
  cases hsweep : b.queue.deleteWhere judge with
  | mk removed q =>
    have hclosed := Queue.closed_of_deleteWhere hsweep
    cases removed with
    | none =>
      have hline := Queue.line_perm_of_deleteWhere_panic hsweep
      have hfetch : Balanced { b with queue := q } brought [] destroyed :=
        h.fetch (h.emptied_of_perm [] hclosed hline.symm) hline.symm
      simpa [hsweep] using hfetch
    | some js =>
      have hline := Queue.line_perm_of_deleteWhere hsweep
      have hfetch : Balanced { b with queue := q } brought js destroyed :=
        h.fetch (h.emptied_of_perm js hclosed hline) hline
      simpa [hsweep] using hfetch.drop

theorem close (h : Balanced b brought [] destroyed) :
    Balanced b.close.2 brought [] (destroyed ++ b.queue.jobs) := by
  have hline : b.queue.line.Perm (b.queue.jobs ++ []) := by
    simpa using b.queue.jobs_perm.symm
  have hfetch : Balanced { b with queue := b.queue.close.2 } brought b.queue.jobs destroyed :=
    h.fetch (fun _ => rfl) hline
  have hdrop := hfetch.drop
  exact ⟨hdrop.conserved, hdrop.numbered, hdrop.named, hdrop.unread, hdrop.sender_iff,
    hdrop.emptied⟩

theorem getElem?_of_ticket? {n : Nat} {t : Ticket ω} (ht : b.ticket? n = some t) :
    b.tickets[n]? = some t :=
  (Option.filter_eq_some_iff.mp ht).1

theorem poll (h : Balanced b brought [] destroyed) (n : Nat) :
    Balanced (b.poll n).2 brought [] destroyed := by
  unfold Workbench.poll
  cases ht : b.ticket? n with
  | none => exact h
  | some t => exact h.setTicket (getElem?_of_ticket? ht) rfl rfl rfl

theorem take (h : Balanced b brought [] destroyed) (n : Nat) :
    Balanced (b.take n).2 brought [] destroyed := by
  unfold Workbench.take
  cases ht : b.ticket? n with
  | none => exact h
  | some t =>
    cases hr : t.reading? with
    | none => simpa [hr] using h
    | some r =>
      have hgone : Balanced { b with tickets := b.tickets.set n t.dropReceiver } brought []
          destroyed := h.setTicket (getElem?_of_ticket? ht) rfl rfl rfl
      simpa [hr] using hgone

theorem apply (h : Balanced b brought [] destroyed) (request : Request π) :
    Balanced (b.apply request) (brought ++ b.brings request) []
      (destroyed ++ b.destroys request) := by
  cases request with
  | submit id priority submittedAt taskCount payload =>
    have hissue := h.issue (w := .ofTaskCount id priority submittedAt taskCount payload
      b.tickets.length) (Work.ticket_ofTaskCount ..)
    rw [Work.id_ofTaskCount] at hissue
    exact hissue.push
  | pushPlaceholder id => exact (h.placeholders [id]).push
  | pushHeld slot =>
    simp only [Workbench.apply, pushHeld, brings, destroys, List.append_nil]
    cases hheld : b.held? slot with
    | none => simpa using h
    | some j => exact (h.release hheld).push
  | discard slot =>
    simp only [Workbench.apply, discard, brings, destroys, List.append_nil]
    cases hheld : b.held? slot with
    | none => simpa using h
    | some j => exact (h.release hheld).drop
  | reserve ids => simpa [Workbench.apply, destroys] using h.reserve ids
  | pop => simpa [Workbench.apply, brings, destroys] using h.pop
  | delete id => simpa [Workbench.apply, brings] using h.delete id
  | deleteWhere judge => simpa [Workbench.apply, brings] using h.deleteWhere judge
  | close => simpa [Workbench.apply, brings, destroys] using h.close
  | poll n => simpa [Workbench.apply, brings, destroys] using h.poll n
  | take n => simpa [Workbench.apply, brings, destroys] using h.take n

end Balanced

theorem closed_apply {b : Workbench π ω} (h : b.queue.closed = true) (request : Request π) :
    (b.apply request).queue.closed = true := by
  cases request with
  | submit id priority submittedAt taskCount payload =>
    simp [apply, submit, push, Queue.push, h, drop]
  | pushPlaceholder id => simp [apply, push, Queue.push, h, drop]
  | pushHeld slot =>
    cases hheld : b.held? slot <;> simp [apply, pushHeld, hheld, push, Queue.push, h, drop]
  | discard slot => cases hheld : b.held? slot <;> simp [apply, discard, hheld, h, drop]
  | reserve ids => simp [apply, reserve, Queue.reserve, h]
  | pop => cases hline : b.queue.line <;> simp [apply, pop, Queue.pop, hline, h]
  | delete id =>
    cases hdelete : b.queue.delete id with
    | none => simpa [apply, delete, hdelete] using h
    | some found =>
      simpa [apply, delete, hdelete, drop] using (Queue.closed_of_delete hdelete).trans h
  | deleteWhere judge =>
    cases hsweep : b.queue.deleteWhere judge with
    | mk removed q =>
      have hclosed := (Queue.closed_of_deleteWhere hsweep).trans h
      cases removed <;> simpa [apply, deleteWhere, hsweep, drop] using hclosed
  | close => rfl
  | poll n => cases ht : b.ticket? n <;> simp [apply, poll, ht, h]
  | take n =>
    cases ht : b.ticket? n with
    | none => simp [apply, take, ht, h]
    | some t => cases hr : t.reading? <;> simp [apply, take, ht, hr, h]

/-- A deletion takes out the first job with the name, or nothing. -/
theorem delete_cases (b : Workbench π ω) (id : JobId) :
    ((∀ j ∈ b.queue.jobs, j.id ≠ id) ∧ b.delete id = (false, b)) ∨
      ∃ xs j ys, b.queue.jobs = xs ++ j :: ys ∧ j.id = id ∧ (∀ x ∈ xs, x.id ≠ id) ∧
        b.destroys (.delete id) = [j] ∧
        b.delete id = (true, { b with queue := b.queue.withJobs (xs ++ ys) }.drop [j]) := by
  cases hfind : b.queue.jobs.find? (·.id == id) with
  | none =>
    refine .inl ⟨by simpa using hfind, ?_⟩
    simp [delete, Queue.delete, hfind]
  | some j =>
    obtain ⟨hid, xs, ys, hjobs, hxs⟩ := List.find?_eq_some_iff_append.mp hfind
    have herase : b.queue.jobs.eraseP (·.id == id) = xs ++ ys := by
      rw [hjobs, List.eraseP_append_right _ (fun x hx => by simpa using hxs x hx),
        List.eraseP_cons_of_pos]
      exact hid
    refine .inr ⟨xs, j, ys, hjobs, by simpa using hid, fun x hx => by simpa using hxs x hx,
      by simp [destroys, hfind], ?_⟩
    simp [delete, Queue.delete, hfind, herase]

theorem pop_cases (b : Workbench π ω) : (b.queue.jobs = [] ∧ b.pop = none) ∨
    ∃ xs j ys, b.queue.jobs = xs ++ j :: ys ∧ b.pop = some (j,
      { b with queue := b.queue.withJobs (xs ++ ys), held := b.held ++ [some j] }) := by
  rw [pop, Queue.pop_eq]
  rcases List.eq_nil_or_concat' b.queue.jobs with hjobs | ⟨ys, j, hjobs⟩
  · left
    cases b.queue.selection <;> simp [hjobs]
  · right
    cases hselection : b.queue.selection with
    | leastUrgentFirst =>
      obtain ⟨i, xs, hfirst⟩ := List.exists_cons_of_ne_nil (show b.queue.jobs ≠ [] by simp [hjobs])
      exact ⟨[], i, xs, hfirst, by simp [hfirst]⟩
    | mostUrgentFirst => exact ⟨ys, j, [], hjobs, by simp [hjobs]⟩

end Workbench

namespace Ledger

variable {π ω : Type} {l : Ledger π ω}

/-- What is promised of a ledger at every moment. -/
structure Kept (l : Ledger π ω) : Prop where
  parted : l.brought.Perm (l.jobsAt .pending ++ l.jobsAt .held ++ l.jobsAt .dropped)
  /-- Every ticket has one job, and no two jobs are the same. -/
  ticketed : (l.brought.filterMap Job.ticket?).Perm (List.range l.bench.tickets.length)
  placed : ∀ w, .work w ∈ l.brought → ∃! column, .work w ∈ l.jobsAt column
  size_eq : l.bench.queue.size = (l.jobsAt .pending).length
  placeholderCount_eq :
    l.bench.queue.placeholderCount = ((l.jobsAt .pending).filter Job.isPlaceholder).length
  /-- What is popped goes from the pending jobs to the held ones, and nothing else moves. -/
  pop : (l.jobsAt .pending = [] ∧ l.bench.pop = none ∧ (l.apply .pop).bench = l.bench) ∨
    ∃ xs j ys, l.jobsAt .pending = xs ++ j :: ys ∧ l.bench.pop.map Prod.fst = some j ∧
      (l.apply .pop).jobsAt .pending = xs ++ ys ∧
      (l.apply .pop).jobsAt .held = l.jobsAt .held ++ [j] ∧
      (l.apply .pop).jobsAt .dropped = l.jobsAt .dropped
  delete : ∀ id,
    ((∀ j ∈ l.jobsAt .pending, j.id ≠ id) ∧ l.bench.delete id = (false, l.bench)) ∨
      ∃ xs j ys, l.jobsAt .pending = xs ++ j :: ys ∧ j.id = id ∧ (∀ x ∈ xs, x.id ≠ id) ∧
        (l.bench.delete id).1 = true ∧ (l.apply (.delete id)).jobsAt .pending = xs ++ ys ∧
        (l.apply (.delete id)).jobsAt .held = l.jobsAt .held ∧
        (l.apply (.delete id)).jobsAt .dropped = l.jobsAt .dropped ++ [j]
  close : l.bench.close.1 = (l.jobsAt .pending).length ∧ (l.apply .close).jobsAt .pending = [] ∧
    (l.apply .close).jobsAt .dropped = l.jobsAt .dropped ++ l.jobsAt .pending
  reading : ∀ n t, l.bench.ticket? n = some t → ∃ w, .work w ∈ l.brought ∧ w.ticket = n ∧
    t.job = w.id ∧
      ((.work w ∈ l.jobsAt .pending ∨ .work w ∈ l.jobsAt .held) ∧
          l.bench.poll n = (some none, l.bench) ∧ l.bench.take n = (some none, l.bench) ∨
        .work w ∈ l.jobsAt .dropped ∧
          (l.bench.poll n).1 = some (some (.error (.dropped t.job))) ∧
          (l.bench.take n).1 = some (some (.error (.dropped t.job))))

/-- What is promised of a ledger once the queue has been closed. -/
structure Closed (l : Ledger π ω) : Prop where
  closed : l.bench.queue.closed = true
  pending : l.jobsAt .pending = []
  submit : ∀ id priority submittedAt taskCount payload,
    (l.bench.submit id priority submittedAt taskCount payload).1 = false ∧
      (l.apply (.submit id priority submittedAt taskCount payload)).jobsAt .dropped =
        l.jobsAt .dropped ++ l.bench.brings (.submit id priority submittedAt taskCount payload)
  pushPlaceholder : ∀ id, (l.bench.push (.placeholder id)).1 = false ∧
    (l.apply (.pushPlaceholder id)).jobsAt .dropped = l.jobsAt .dropped ++ [.placeholder id]
  pushHeld : ∀ slot j, l.bench.held? slot = some j →
    (l.bench.pushHeld slot).map Prod.fst = some false ∧
      (l.apply (.pushHeld slot)).jobsAt .dropped = l.jobsAt .dropped ++ [j]
  reserve : ∀ ids, (l.bench.reserve ids).1 = []
  pop : l.bench.pop = none
  delete : ∀ id, (l.bench.delete id).1 = false
  close : l.bench.close.1 = 0

theorem balanced_foldl_apply (requests : List (Request π))
    (h : Balanced l.bench l.brought [] l.destroyed) :
    Balanced (requests.foldl apply l).bench (requests.foldl apply l).brought []
      (requests.foldl apply l).destroyed := by
  induction requests generalizing l with
  | nil => exact h
  | cons request requests ih => exact ih (h.apply request)

theorem closed_foldl_apply (requests : List (Request π)) (h : l.bench.queue.closed = true) :
    (requests.foldl apply l).bench.queue.closed = true := by
  induction requests generalizing l with
  | nil => exact h
  | cons request requests ih => exact ih (closed_apply h request)

section Balanced

variable (h : Balanced l.bench l.brought [] l.destroyed)

include h

theorem parted_of_balanced :
    l.brought.Perm (l.jobsAt .pending ++ l.jobsAt .held ++ l.jobsAt .dropped) := by
  refine perm_of_weigh fun f => ?_
  have hconserved := h.conserved f
  have hjobs := weigh_perm (f := f) l.bench.queue.jobs_perm
  simp only [jobsAt, weigh_append, weigh_nil] at hconserved ⊢
  omega

theorem ticketed_of_balanced :
    (l.brought.filterMap Job.ticket?).Perm (List.range l.bench.tickets.length) := by
  refine List.perm_iff_count.mpr fun n => ?_
  have hcount : (l.brought.filterMap Job.ticket?).count n = weigh (atTicket n) l.brought := by
    induction l.brought with
    | nil => rfl
    | cons j js ih =>
      rw [weigh_cons, ← ih, List.filterMap_cons]
      unfold atTicket
      cases j.ticket? with
      | none => simp
      | some m => simp [List.count_cons, Nat.add_comm]
  rw [hcount, h.numbered]
  split
  next hlt => exact (List.count_eq_one_of_mem List.nodup_range (List.mem_range.mpr hlt)).symm
  next hge => exact (List.count_eq_zero_of_not_mem (by simpa using hge)).symm

theorem weigh_columns_of_balanced {w : Work π} (hw : .work w ∈ l.brought) :
    weigh (atTicket w.ticket) (l.jobsAt .pending) + weigh (atTicket w.ticket) (l.jobsAt .held) +
      weigh (atTicket w.ticket) (l.jobsAt .dropped) = 1 := by
  obtain ⟨t, ht, -⟩ := h.named w hw
  have hweight := weigh_perm (f := atTicket w.ticket) (parted_of_balanced h)
  rw [h.numbered, if_pos (List.getElem?_eq_some_iff.mp ht).1] at hweight
  simpa only [weigh_append] using hweight.symm

theorem placed_of_balanced {w : Work π} (hw : .work w ∈ l.brought) :
    ∃! column, .work w ∈ l.jobsAt column := by
  have hone := weigh_columns_of_balanced h hw
  have hweight : ∀ column, .work w ∈ l.jobsAt column →
      1 ≤ weigh (atTicket w.ticket) (l.jobsAt column) := by
    intro column hmem
    have := le_weigh (f := atTicket w.ticket) hmem
    simpa using this
  have hsome : ∃ column, .work w ∈ l.jobsAt column := by
    have hmem := (parted_of_balanced h).mem_iff.mp hw
    rcases List.mem_append.mp hmem with hmem | hmem
    · rcases List.mem_append.mp hmem with hmem | hmem
      · exact ⟨.pending, hmem⟩
      · exact ⟨.held, hmem⟩
    · exact ⟨.dropped, hmem⟩
  obtain ⟨column, hcolumn⟩ := hsome
  refine ⟨column, hcolumn, fun other hother => ?_⟩
  have h₁ := hweight column hcolumn
  have h₂ := hweight other hother
  cases column <;> cases other <;> first | rfl | omega

theorem reading_of_balanced {n : Nat} {t : Ticket ω} (ht : l.bench.ticket? n = some t) :
    ∃ w, .work w ∈ l.brought ∧ w.ticket = n ∧ t.job = w.id ∧
      ((.work w ∈ l.jobsAt .pending ∨ .work w ∈ l.jobsAt .held) ∧
          l.bench.poll n = (some none, l.bench) ∧ l.bench.take n = (some none, l.bench) ∨
        .work w ∈ l.jobsAt .dropped ∧
          (l.bench.poll n).1 = some (some (.error (.dropped t.job))) ∧
          (l.bench.take n).1 = some (some (.error (.dropped t.job)))) := by
  have hat := Balanced.getElem?_of_ticket? ht
  have hlt := (List.getElem?_eq_some_iff.mp hat).1
  obtain ⟨w, hw, rfl⟩ : ∃ w, .work w ∈ l.brought ∧ w.ticket = n := by
    have hmem := (ticketed_of_balanced h).mem_iff.mpr (List.mem_range.mpr hlt)
    obtain ⟨j, hj, hticket⟩ := List.mem_filterMap.mp hmem
    cases j with
    | placeholder id => cases hticket
    | work w => exact ⟨w, hj, Option.some.inj hticket⟩
  obtain ⟨s, hs, hjob⟩ := h.named w hw
  cases hat.symm.trans hs
  refine ⟨w, hw, rfl, hjob, ?_⟩
  have hunread := h.unread _ t hat
  have hsender := h.sender_iff _ t hat
  have hone := weigh_columns_of_balanced h hw
  obtain ⟨column, hcolumn, -⟩ := placed_of_balanced h hw
  have hweight := le_weigh (f := atTicket w.ticket) hcolumn
  simp only [atTicket_work, if_true] at hweight
  have hsame : l.bench.tickets.set w.ticket { t with unread := none } = l.bench.tickets := by
    have hread : { t with unread := none } = t := by rw [← hunread]
    rw [hread, ← (List.getElem?_eq_some_iff.mp hat).2]
    exact List.set_getElem_self hlt
  cases hsend : t.sender with
  | true =>
    have hnot : column ≠ .dropped := by
      rintro rfl
      simp only [hsend, if_true, jobsAt] at hsender hweight
      omega
    have hreading : t.reading? = none := by simp [Ticket.reading?, hunread, hsend]
    refine .inl ⟨?_, ?_, ?_⟩
    · cases column with
      | pending => exact .inl hcolumn
      | held => exact .inr hcolumn
      | dropped => exact absurd rfl hnot
    · simp only [poll, ht, Ticket.poll, hreading, hsame]
    · simp only [take, ht, hreading]
  | false =>
    have hdropped : column = .dropped := by
      simp only [hsend, Bool.false_eq_true, if_false] at hsender
      cases column <;> simp only [jobsAt] at hweight hone ⊢ <;> omega
    have hreading : t.reading? = some (.error (.dropped t.job)) := by
      simp [Ticket.reading?, hunread, hsend]
    refine .inr ⟨hdropped ▸ hcolumn, ?_, ?_⟩
    · simp only [poll, ht, Ticket.poll, hreading]
    · simp only [take, ht, hreading]

theorem kept_of_balanced : l.Kept where
  parted := parted_of_balanced h
  ticketed := ticketed_of_balanced h
  placed _ hw := placed_of_balanced h hw
  size_eq := l.bench.queue.size_eq
  placeholderCount_eq := by
    rw [l.bench.queue.placeholderCount_eq, List.countP_eq_length_filter]
    rfl
  pop := by
    rcases l.bench.pop_cases with ⟨hjobs, hnone⟩ | ⟨xs, j, ys, hjobs, hpop⟩
    · exact .inl ⟨hjobs, hnone, by simp [apply, Workbench.apply, hnone]⟩
    · refine .inr ⟨xs, j, ys, hjobs, congrArg (Option.map Prod.fst) hpop, ?_, ?_, ?_⟩
      · simp [jobsAt, apply, Workbench.apply, hpop]
      · simp [jobsAt, apply, Workbench.apply, hpop, heldJobs]
      · simp [jobsAt, apply, destroys]
  delete id := by
    rcases l.bench.delete_cases id with hnone | ⟨xs, j, ys, hjobs, hid, hxs, hgone, hdelete⟩
    · exact .inl hnone
    · refine .inr ⟨xs, j, ys, hjobs, hid, hxs, ?_⟩
      have hbench : (l.apply (.delete id)).bench =
          { l.bench with queue := l.bench.queue.withJobs (xs ++ ys) }.drop [j] :=
        congrArg Prod.snd hdelete
      refine ⟨congrArg Prod.fst hdelete, ?_, ?_, congrArg (l.destroyed ++ ·) hgone⟩
      · rw [jobsAt, hbench]
        exact Queue.jobs_withJobs _ _
      · rw [jobsAt, hbench]
        rfl
  close := ⟨rfl, by cases hs : l.bench.queue.selection <;>
    simp [jobsAt, apply, Workbench.apply, Workbench.close, Workbench.drop, Queue.close,
      Queue.jobs, hs], rfl⟩
  reading _ _ ht := reading_of_balanced h ht

theorem closed_of_balanced (hclosed : l.bench.queue.closed = true) : l.Closed := by
  have hline := h.emptied hclosed
  have hjobs : l.bench.queue.jobs = [] :=
    (hline ▸ l.bench.queue.jobs_perm).eq_nil
  constructor
  · exact hclosed
  · exact hjobs
  · intro id priority submittedAt taskCount payload
    simp [submit, push, Queue.push, hclosed, apply, jobsAt, destroys]
  · intro id
    simp [push, Queue.push, hclosed, apply, jobsAt, destroys, brings]
  · intro slot j hheld
    simp [pushHeld, hheld, push, Queue.push, hclosed, apply, jobsAt, destroys]
  · intro ids
    simp [reserve, Queue.reserve, hclosed]
  · simp [pop, Queue.pop, hline]
  · intro id
    simp [delete, Queue.delete, hjobs]
  · simp [close, Queue.close, hjobs]

end Balanced

/-- Whatever is asked of a new workbench in whatever order, every job has its column and its ticket
tells of it, and a queue that has been closed once stays closed and empty. -/
theorem kept_of_requests (selection : Selection) (requests : List (Request π)) :
    (requests.foldl apply (empty selection : Ledger π ω)).Kept ∧
      (Request.close ∈ requests →
        (requests.foldl apply (empty selection : Ledger π ω)).Closed) := by
  have hall : ∀ rs : List (Request π),
      Balanced (rs.foldl apply (empty selection : Ledger π ω)).bench _ [] _ :=
    fun rs => balanced_foldl_apply rs (Balanced.empty selection)
  refine ⟨kept_of_balanced (hall requests), fun hclose => ?_⟩
  refine closed_of_balanced (hall requests) ?_
  obtain ⟨before, after, rfl⟩ := List.append_of_mem hclose
  rw [List.foldl_append, List.foldl_cons]
  exact closed_foldl_apply after rfl

end Ledger
end PacedJobs
