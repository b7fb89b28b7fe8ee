import PacedJobs.Proofs.Pool.HandOver
import PacedJobs.Proofs.Pool.Reservations

/-!
# Reserved slices are spent first

Placeholders are the least urgent. So when the least urgent job is taken first, the coordinator pops
nothing but placeholders while one of a reservation is pending, and workers get at most one job of
another kind, which the coordinator had in hand. Whatever is popped after that is popped when the
placeholders of the reservation are gone. A sweep that a panic breaks off can move work in front of
placeholders, so there must be none that moves a job.
-/

namespace PacedJobs

variable {π ω : Type}

namespace Register

/-- What is present and was not yet when so many insertions had been made. -/
def since (r : Register π) (insertions : Nat) : List (Arrival π) :=
  r.present.filter fun a => insertions ≤ a.number

theorem since_apply_reserve (r : Register π) (ids : List JobId) :
    ((r.apply (.reserve ids)).since r.insertions).map Arrival.job =
      (if r.closed then [] else ids).map .placeholder := by
  have hold : r.present.filter (fun a => r.insertions ≤ a.number) = [] := by
    simpa [List.filter_eq_nil_iff] using r.number_lt
  cases hclosed : r.closed with
  | true =>
    simp only [apply, hclosed, if_true, since]
    rw [hold]
    rfl
  | false =>
    obtain ⟨own, hpresent, hjobs, hnew⟩ := r.exists_present_foldl_insert (ids.map Job.placeholder)
    have hown : own.filter (fun a => r.insertions ≤ a.number) = own := by
      simpa [List.filter_eq_self] using hnew
    simp only [apply, hclosed, Bool.false_eq_true, if_false, since]
    rw [hpresent, List.filter_append, hold, hown]
    exact hjobs

/-- What precedes a placeholder where the least urgent is taken first is a placeholder. -/
theorem isPlaceholder_of_before {a b : Arrival π} (h : a.Before .leastUrgentFirst b)
    (hb : b.job.isPlaceholder = true) : a.job.isPlaceholder = true :=
  Job.isPlaceholder_of_notAbove h.1 hb

theorem Ahead.number_lt {a b : Arrival π} (h : Ahead .leastUrgentFirst a b)
    (hb : b.job.isPlaceholder = true) : a.number < b.number := by
  obtain ⟨hne, hbefore | hlt⟩ := h
  · have hequal : b.job.notAbove a.job = true := by
      obtain ⟨m, j⟩ := b
      cases j with
      | placeholder id => exact Job.placeholder_notAbove _ _
      | work w => cases hb
    exact lt_of_le_of_ne (hbefore.2 hequal) hne
  · exact hlt

end Register

namespace Pool

variable {c : Config} {operation : String} {p q s : Pool π ω} {l : Label π ω}
  {ls ms : List (Label π ω)} {ids : List JobId}

structure Reserves (p : Pool π ω) (l : Label π ω) (ids : List JobId) (q : Pool π ω) : Prop where
  step : p.step l = some q
  asked : p.asked l = [.reserve ids]
  opened : p.queue.closed = false

def brought (c : Config) (operation : String) (ls : List (Label π ω)) (l : Label π ω) :
    List (Arrival π) :=
  (register c operation (ls ++ [l])).since (register c operation ls).insertions

theorem register_concat (h : (Pool.start c operation).run? ls = some p) (l : Label π ω) :
    register c operation (ls ++ [l]) =
      (p.asked l).foldl Register.apply (register c operation ls) := by
  rw [register_append h, requests]
  cases p.step l <;> simp [requests]

theorem map_brought (h : (Pool.start c operation).run? ls = some p)
    (hintact : (Pool.start c operation).Intact ls) (hasked : p.asked l = [.reserve ids]) :
    (brought c operation ls l).map Arrival.job =
      (if p.queue.closed then [] else ids).map .placeholder := by
  rw [brought, register_concat h, hasked, (follows_of_run h hintact).closed_eq]
  exact Register.since_apply_reserve _ ids

theorem brought_subset (c : Config) (operation : String) (ls : List (Label π ω)) (l : Label π ω) :
    brought c operation ls l ⊆ (register c operation (ls ++ [l])).present :=
  List.filter_subset_self _

theorem isPlaceholder_of_mem_brought {ids : List JobId} {bs : List (Arrival π)}
    (h : bs.map Arrival.job = ids.map .placeholder) {b : Arrival π} (hb : b ∈ bs) :
    b.job.isPlaceholder = true := by
  have hmem : b.job ∈ ids.map (Job.placeholder : JobId → Job π) := h ▸ List.mem_map_of_mem hb
  obtain ⟨id, -, hid⟩ := List.mem_map.mp hmem
  exact hid ▸ rfl

/-- What is popped when a placeholder is pending is a placeholder. -/
theorem isPlaceholder_of_popped (hselection : c.selection = .leastUrgentFirst)
    (h : (Pool.start c operation).run? ls = some p)
    (hintact : (Pool.start c operation).Intact ls) {b : Arrival π}
    (hb : b ∈ (register c operation ls).present) (hspent : b.job.isPlaceholder = true)
    (hstep : p.step l = some q) {j : Job π} (hpopped : q.popped = p.popped ++ [j]) :
    j.isPlaceholder = true := by
  obtain ⟨a, hnext, rfl⟩ := next?_of_popped (follows_of_run h hintact) hstep hpopped
  refine Register.isPlaceholder_of_before (b := b) ?_ hspent
  exact hselection ▸ selection_register c operation ls ▸ Register.before_of_next? hnext hb

/-- What is promised of the time from a reservation on, as long as one of its placeholders is
pending. At its beginning the pool is `q`, and the run `ls` has led there. -/
structure Spends (c : Config) (operation : String) (ls : List (Label π ω)) (q : Pool π ω)
    (ms : List (Label π ω)) (s : Pool π ω) : Prop where
  /-- Nothing but placeholders is popped, the older ones first. Workers receive what the coordinator
  had in hand, and then these. -/
  popped : ∃ as : List (Arrival π), s.popped = q.popped ++ as.map Arrival.job ∧
    (∀ a ∈ as, a.job.isPlaceholder = true) ∧ as.Pairwise (fun a b => a.number < b.number) ∧
      (∀ a ∈ as, ∀ b ∈ (register c operation (ls ++ ms)).present, b.job.isPlaceholder = true →
        a.number < b.number) ∧
      ∃ hs, s.received = q.received ++ hs ∧ hs <+: q.coordinator.hand ++ as.map Arrival.job
  hand : q.coordinator.hand.length ≤ 1
  /-- What is popped next is a placeholder, too. -/
  next : ∀ l t j, s.step l = some t → t.popped = s.popped ++ [j] → j.isPlaceholder = true

theorem spends_of_run (hselection : c.selection = .leastUrgentFirst)
    (h : (Pool.start c operation).run? ls = some q) (hrun : q.run? ms = some s)
    (hintact : (Pool.start c operation).Intact (ls ++ ms)) {b : Arrival π}
    (hb : b ∈ (register c operation ls).present)
    (hstays : b ∈ (register c operation (ls ++ ms)).present)
    (hspent : b.job.isPlaceholder = true) : Spends c operation ls q ms s := by
  obtain ⟨hbefore, hafter⟩ := (intact_append h).mp hintact
  have hs : (Pool.start c operation).run? (ls ++ ms) = some s := run?_append.mpr ⟨q, h, hrun⟩
  have hleast : (register c operation ls).selection = .leastUrgentFirst :=
    (selection_register c operation ls).trans hselection
  have hpopped := (obeys_of_run hafter hrun).popped_eq
  rw [(follows_of_run h hbefore).taken_eq] at hpopped
  have hplaceholders : ∀ a ∈ (register c operation ls).taken (q.requests ms),
      a.job.isPlaceholder = true := by
    intro a ha
    rw [register_append h] at hstays
    exact Register.isPlaceholder_of_before
      (hleast ▸ (Register.before_of_mem_taken ha hb hstays).2) hspent
  refine ⟨⟨_, hpopped, hplaceholders, ?_, ?_, ?_⟩, ?_, ?_⟩
  · refine (Register.taken_pairwise _ _).imp_of_mem fun _ ha' hahead => ?_
    exact Register.Ahead.number_lt (hleast ▸ hahead) (hplaceholders _ ha')
  · intro a ha b' hb' hspent'
    rw [register_append h] at hb'
    exact Register.Ahead.number_lt (hleast ▸ Register.ahead_of_mem_taken ha (.inl hb')) hspent'
  · exact (handing_of_run h).received_of_run (handing_of_run hs) hrun hpopped
  · exact q.coordinator.length_hand_le
  · exact fun l t j hstep hpopped =>
      isPlaceholder_of_popped hselection hs hintact hstays hspent hstep hpopped

/-- What is promised of the slices that are reserved in a run and in all that may follow, as long as
no sweep that a panic breaks off has moved a job. -/
structure SpentFirst (c : Config) (operation : String) (ls : List (Label π ω)) (p : Pool π ω) :
    Prop where
  /-- The register has what is pending. -/
  pending : (Pool.start c operation).Intact ls →
    p.queue.line.Perm ((register c operation ls).present.map Arrival.job)
  /-- A reservation brings its placeholders, and they are spent before anything else is popped. -/
  spends : (Pool.start c operation).Intact ls → ∀ l ids q, Reserves p l ids q →
    (brought c operation ls l).map Arrival.job = ids.map .placeholder ∧
      ∀ ms s, q.run? ms = some s → (Pool.start c operation).Intact (ls ++ [l] ++ ms) →
        (∃ b ∈ brought c operation ls l, b ∈ (register c operation (ls ++ [l] ++ ms)).present) →
          Spends c operation (ls ++ [l]) q ms s
  /-- When slices are reserved on submission and the call has returned, it has brought them in one
  step, and no work is popped, whenever it comes in, until they are gone. -/
  submitted : c.reservation = .onSubmit → ∀ id priority submittedAt taskCount payload q ms s,
    p.queue.closed = false →
    p.step (.submit id priority submittedAt taskCount payload) = some q → q.run? ms = some s →
    s.calls[p.calls.length]? = some .returned →
    (Pool.start c operation).Intact
      (ls ++ .submit id priority submittedAt taskCount payload :: ms) →
    ∃ ms₁ ids ms₂ r, ms = ms₁ ++ .resume p.calls.length ids :: ms₂ ∧ q.run? ms₁ = some r ∧
      let own := brought c operation
        (ls ++ .submit id priority submittedAt taskCount payload :: ms₁)
        (.resume p.calls.length ids)
      own.map Arrival.job = (if r.queue.closed then [] else ids).map .placeholder ∧
        (r.queue.closed = false → ids.length = max taskCount.toNat 1 - 1) ∧
        ∀ ns t l u w, s.run? ns = some t →
          let run := ls ++ .submit id priority submittedAt taskCount payload :: ms ++ ns
          (Pool.start c operation).Intact run → t.step l = some u →
            u.popped = t.popped ++ [.work w] → ∀ b ∈ own, b ∉ (register c operation run).present

theorem spentFirst_of_run (hselection : c.selection = .leastUrgentFirst)
    (h : (Pool.start c operation).run? ls = some p) : SpentFirst c operation ls p := by
  constructor
  · exact fun hintact => (follows_of_run h hintact).line_eq ▸
      (Register.lineup_perm _).map Arrival.job
  · intro hintact l ids q hreserves
    have hjobs := map_brought h hintact hreserves.asked
    rw [hreserves.opened] at hjobs
    have hq : (Pool.start c operation).run? (ls ++ [l]) = some q :=
      run?_append.mpr ⟨p, h, run?_cons.mpr ⟨q, hreserves.step, rfl⟩⟩
    refine ⟨hjobs, fun ms s hrun hafter ⟨b, hb, hstays⟩ => ?_⟩
    exact spends_of_run hselection hq hrun hafter (brought_subset _ _ _ _ hb) hstays
      (isPlaceholder_of_mem_brought hjobs hb)
  · intro hmode id priority submittedAt taskCount payload q ms s hopen hstep hrun hreturned hintact
    have hcall := reserving_of_submit ((reservation_of_run h).trans hmode) hopen hstep
    have hfirst : ∀ {ns t}, q.run? ns = some t → (Pool.start c operation).run?
        (ls ++ .submit id priority submittedAt taskCount payload :: ns) = some t :=
      fun hns => run?_append.mpr ⟨p, h, run?_cons.mpr ⟨q, hstep, hns⟩⟩
    rcases reserving_run hcall hrun with ⟨hat, -⟩ | ⟨-, ms₁, ids, ms₂, r, hms, hr, hat, -, hlength⟩
    · cases hat.symm.trans hreturned
    have hbrought := map_brought (hfirst hr)
      ((intact_append (hfirst hr)).mp (by simpa [hms] using hintact)).1
      (show r.asked (.resume p.calls.length ids) = [.reserve ids] by simp only [asked, hat])
    refine ⟨ms₁, ids, ms₂, r, hms, hr, hbrought, hlength, ?_⟩
    intro ns t l u w hns run hafter hstep hpopped b hb hstays
    have ht : (Pool.start c operation).run? run = some t := run?_append.mpr ⟨s, hfirst hrun, hns⟩
    exact Bool.false_ne_true (isPlaceholder_of_popped hselection ht hafter hstays
      (isPlaceholder_of_mem_brought hbrought hb) hstep hpopped)

/-- A job of three tasks is in the coordinator's hands when its call reserves two more slices, and a
job of another client is pending. -/
def submitBesideHeld : List (Label Unit Unit) :=
  [.submit ⟨1⟩ 0 0 3 (), .coordinate, .coordinate, .submit ⟨2⟩ 0 0 1 ()]

theorem spentFirst_submitBesideHeld : ∃ p q : Pool Unit Unit,
    (Pool.start { workers := 1 } "run").run? submitBesideHeld = some p ∧
      SpentFirst { workers := 1 } "run" submitBesideHeld p ∧
        (Pool.start (π := Unit) (ω := Unit) { workers := 1 } "run").Intact submitBesideHeld ∧
          Reserves p (.resume 0 [⟨3⟩, ⟨4⟩]) [⟨3⟩, ⟨4⟩] q ∧
            p.coordinator.hand.map Job.id = [⟨1⟩] ∧
              q.queue.line.map Job.id = [⟨3⟩, ⟨4⟩, ⟨2⟩] := by
  refine ⟨_, _, rfl, ?_, ?_, ⟨rfl, rfl, rfl⟩, rfl, by decide⟩
  · have hrun : (Pool.start { workers := 1 } "run").run? submitBesideHeld = some _ := rfl
    exact spentFirst_of_run rfl hrun
  · exact intact_of_forall_ne_panic (by simp [submitBesideHeld])

/-- A job of two tasks is in the coordinator's hands, and its call is about to reserve a slice. -/
def holdTwoTasks : List (Label Unit Unit) :=
  [.submit ⟨1⟩ 0 0 2 (), .coordinate, .coordinate]

/-- Two jobs come in. A sweep condemns the placeholder, lets the first job stay, and panics. Then both
workers receive a job. -/
def sweepPlaceholder : List (Label Unit Unit) :=
  [.submit ⟨2⟩ 5 0 1 (), .submit ⟨3⟩ 9 0 1 (), .cancelWhere Workbench.removeKeepPanic,
    .work 0 [], .work 0 [], .coordinate, .handOver 0, .coordinate, .coordinate,
    .work 1 [], .work 1 [], .coordinate, .handOver 1]

/-- Work that has come in after the reservation is received while the placeholder is pending. -/
theorem received_beforePlaceholder : ∃ p q s : Pool Unit Unit,
    (Pool.start { workers := 2, selection := .leastUrgentFirst } "run").run? holdTwoTasks =
        some p ∧
      Reserves p (.resume 0 [⟨4⟩]) [⟨4⟩] q ∧ q.calls = [.returned] ∧ q.received = [] ∧
        q.coordinator.hand.map Job.id = [⟨1⟩] ∧ q.run? sweepPlaceholder = some s ∧
          s.received.map Job.id = [⟨1⟩, ⟨2⟩] ∧ (∀ j ∈ s.received, j.isPlaceholder = false) ∧
            .placeholder ⟨4⟩ ∈ s.queue.line := by
  refine ⟨_, _, _, rfl, ⟨rfl, rfl, rfl⟩, rfl, rfl, rfl, rfl, rfl, ?_, ?_⟩ <;> decide

end Pool
end PacedJobs
