import PacedJobs.Proofs.Pool.Requests
import PacedJobs.Proofs.Queue.Interruption

/-!
# The order in which jobs are handed over

Workers get the jobs in the order in which the coordinator pops them, and that looks no further
ahead than one job. What it pops stands first in line, so pending jobs are popped in their order,
and one that stays is overtaken only by those that precede it in the order of the selection. A
single worker goes through all in this order. Only a sweep that a panic breaks off can move pending
jobs to other places, and what is popped then may not be first in the order.
-/

namespace PacedJobs

variable {π ω : Type}

theorem Coordinator.length_hand_le (c : Coordinator π) : c.hand.length ≤ 1 := by
  cases c <;> simp [hand]

namespace Pool

variable {c : Config} {operation : String} {p q : Pool π ω} {ls ms : List (Label π ω)}

/-- The jobs that were popped and that nobody is done with. -/
def unfinished (p : Pool π ω) : List (Job π) :=
  p.coordinator.hand ++ p.workers.flatMap Worker.load

theorem length_unfinished_le (p : Pool π ω) : p.unfinished.length ≤ p.workers.length + 1 := by
  have hhand := p.coordinator.length_hand_le
  have hloads : (p.workers.flatMap Worker.load).length ≤ p.workers.length := by
    induction p.workers with
    | nil => exact Nat.le_refl _
    | cons v vs ih =>
      have hload := v.length_load_le
      simp only [List.flatMap_cons, List.length_append, List.length_cons]
      omega
  rw [unfinished, List.length_append]
  omega

theorem received_prefix_popped (h : Handing p) : p.received <+: p.popped := by
  rcases h with heq | ⟨-, j, heq, -⟩ <;> exact heq ▸ List.prefix_append _ _

/-- A single worker begins its cycles in the order in which jobs are popped, and calls the transport
in the order of the cycles. -/
theorem begun_of_alone (h : (Pool.start c operation).run? ls = some p) (halone : c.workers ≤ 1) :
    p.begun <+: p.popped ∧ p.called <+: p.begun.filterMap Job.work? := by
  have hworkers : 0 < p.workers.length := by
    rw [length_workers_of_run h]
    omega
  have hsequenced := orderly_of_run h 0 _ (List.getElem?_eq_getElem hworkers)
  have hreceived : p.toldOf Event.received? 0 = p.received :=
    toldOf_of_alone h halone fun e b he => by cases e <;> simp_all [Event.received?, Event.worker?]
  have hbegun : p.toldOf Event.begun? 0 = p.begun :=
    toldOf_of_alone h halone fun e b he => by cases e <;> simp_all [Event.begun?, Event.worker?]
  have hcalled : p.toldOf Event.called? 0 = p.called := p.called_eq_told ▸
    toldOf_of_alone h halone fun e b he => by cases e <;> simp_all [Event.called?, Event.worker?]
  rw [hreceived, hbegun, hcalled] at hsequenced
  refine ⟨List.IsPrefix.trans ?_ (received_prefix_popped (handing_of_run h)), ?_⟩
  · rcases hsequenced.received_eq with heq | ⟨-, j, heq⟩ <;> exact heq ▸ List.prefix_append _ _
  · exact hsequenced.begun_eq ▸ List.prefix_append _ _

/-- Requests take jobs of a kind of which none comes in from the front of the line. -/
theorem drained_of_intact (hintact : p.Intact ms) (hrun : p.run? ms = some q)
    (kind : Job π → Bool) (hkind : ∀ x ∈ p.requests ms, ∀ j ∈ x.inserted, kind j = false) :
    ∃ js, q.popped = p.popped ++ js ∧
      ((js ++ q.queue.line).filter kind).Sublist (p.queue.line.filter kind) ∧
        ((∀ x ∈ p.requests ms, x.discards = false) →
          (js ++ q.queue.line).filter kind = p.queue.line.filter kind) := by
  obtain ⟨hqueue, hpopped⟩ := obeys_of_run hintact hrun
  refine ⟨_, hpopped, ?_, fun hdiscards => ?_⟩
  · rw [hqueue]
    exact Queue.filter_taken_sublist hkind
  · rw [hqueue]
    exact Queue.filter_taken_eq hkind hdiscards

theorem filterMap_work?_filter (js : List (Job π)) :
    (js.filter fun j => !j.isPlaceholder).filterMap Job.work? = js.filterMap Job.work? := by
  rw [List.filterMap_filter]
  refine List.filterMap_congr fun j _ => ?_
  cases j <;> rfl

/-- A single worker executes what was popped and what is pending in that order, while no more work
comes in. -/
theorem executed_of_alone (h : (Pool.start c operation).run? ls = some p) (halone : c.workers ≤ 1)
    (hrun : p.run? ms = some q) (hintact : p.Intact ms)
    (hinserted : ∀ x ∈ p.requests ms, ∀ j ∈ x.inserted, j.isPlaceholder = true) :
    q.called.Sublist ((p.popped ++ p.queue.line).filterMap Job.work?) ∧
      ((∀ x ∈ p.requests ms, x.discards = false) →
        q.called <+: (p.popped ++ p.queue.line).filterMap Job.work?) := by
  have hq : (Pool.start c operation).run? (ls ++ ms) = some q := run?_append.mpr ⟨p, h, hrun⟩
  obtain ⟨hbegun, hcalled⟩ := begun_of_alone hq halone
  have hcalled : q.called <+: q.popped.filterMap Job.work? :=
    hcalled.trans (hbegun.filterMap Job.work?)
  obtain ⟨js, hpopped, hless, hall⟩ := drained_of_intact hintact hrun
    (fun j => !j.isPlaceholder) fun x hx j hj => by simp [hinserted x hx j hj]
  have hless := hless.filterMap Job.work?
  rw [hpopped, List.filterMap_append] at hcalled
  rw [filterMap_work?_filter, filterMap_work?_filter, List.filterMap_append] at hless
  rw [List.filterMap_append]
  refine ⟨hcalled.sublist.trans
    (((List.sublist_append_left _ _).trans hless).append_left _), fun hdiscards => ?_⟩
  have hall := congrArg (List.filterMap Job.work?) (hall hdiscards)
  rw [filterMap_work?_filter, filterMap_work?_filter, List.filterMap_append] at hall
  exact hcalled.trans (hall ▸ (List.prefix_append_right_inj _).mpr (List.prefix_append _ _))

theorem Move.popped_eq {l : Label π ω} (h : Move p l q) :
    q.popped = p.popped ∨ l = .coordinate := by
  cases h with
  | reserve hcall hids => exact .inl (told_reserve (fun _ => rfl) p _)
  | prepare hat hmode hmore hids => exact .inl (told_reserve (fun _ => rfl) p _)
  | coordinate hturn hawake => exact .inr rfl
  | pop hat hline => exact .inr rfl
  | abandon hat => exact .inr rfl
  | _ => exact .inl rfl

theorem next?_of_popped {r : Register π} (hfollows : p.queue.Follows r) {l : Label π ω}
    (hstep : p.step l = some q) {j : Job π} (hpopped : q.popped = p.popped ++ [j]) :
    ∃ a, r.next? = some a ∧ a.job = j := by
  have hmove := move_of_step hstep
  rcases hmove.popped_eq with hsame | rfl
  · rw [hpopped] at hsame
    simp at hsame
  · have htaken := (hmove.obeys (by simp)).popped_eq
    rw [hpopped, List.append_cancel_left_eq, hfollows.taken_eq] at htaken
    cases hat : p.coordinator with
    | popping =>
      simp only [asked, hat, Register.taken, Register.given, List.append_nil] at htaken
      cases hnext : r.next? with
      | none => simp [hnext] at htaken
      | some a =>
        rw [hnext] at htaken
        exact ⟨a, rfl, (List.singleton_inj.mp htaken).symm⟩
    | _ => simp [asked, hat, Register.taken] at htaken

/-- What is promised of the order in which jobs are handed over in a run and in all that may follow.
Where the order of the queue comes in, no sweep that a panic breaks off may have moved a job. -/
structure HandOver (c : Config) (operation : String) (ls : List (Label π ω)) (p : Pool π ω) :
    Prop where
  /-- Workers receive what was popped without at most the last job, which the coordinator has in
  hand or with which it has stopped. -/
  received : p.popped = p.received ++ p.coordinator.hand ∨
    p.coordinator = .stopped ∧ ∃ j, p.popped = p.received ++ [j] ∧ .abandoned j ∈ p.history
  hand : p.coordinator.hand.length ≤ 1
  /-- Every worker goes through what it receives in that order. -/
  worker : ∀ (i : Nat) (v : Worker π ω), p.workers[i]? = some v →
    v.Sequenced (p.toldOf Event.received? i) (p.toldOf Event.begun? i) (p.toldOf Event.called? i)
  unfinished : p.unfinished.length ≤ max c.workers 1 + 1
  /-- A single worker takes all jobs in the order in which they are popped. -/
  alone : c.workers ≤ 1 → p.begun <+: p.popped ∧ p.called <+: p.begun.filterMap Job.work?
  /-- Jobs of a kind of which none comes in are popped in the order in which they stand in line, and
  all of them if none is discarded. -/
  drained : ∀ ms q (kind : Job π → Bool), p.run? ms = some q → p.Intact ms →
    (∀ x ∈ p.requests ms, ∀ j ∈ x.inserted, kind j = false) →
      ∃ js, q.popped = p.popped ++ js ∧
        ((js ++ q.queue.line).filter kind).Sublist (p.queue.line.filter kind) ∧
          ((∀ x ∈ p.requests ms, x.discards = false) →
            (js ++ q.queue.line).filter kind = p.queue.line.filter kind)
  /-- A single worker executes what was popped and what is pending in that order, if no more work
  comes in. -/
  executed : c.workers ≤ 1 → ∀ ms q, p.run? ms = some q → p.Intact ms →
    (∀ x ∈ p.requests ms, ∀ j ∈ x.inserted, j.isPlaceholder = true) →
      q.called.Sublist ((p.popped ++ p.queue.line).filterMap Job.work?) ∧
        ((∀ x ∈ p.requests ms, x.discards = false) →
          q.called <+: (p.popped ++ p.queue.line).filterMap Job.work?)
  /-- The pending jobs stand in the order of the selection, which is that of their urgency and among
  equals that of their arrival. -/
  line : (Pool.start c operation).Intact ls → ∃ as : List (Arrival π),
    as.Perm (register c operation ls).present ∧ p.queue.line = as.map Arrival.job ∧
      as.Pairwise (Arrival.Before c.selection)
  /-- When a job is popped, no pending job precedes it. -/
  popped : (Pool.start c operation).Intact ls → ∀ l q j, p.step l = some q →
    q.popped = p.popped ++ [j] → ∃ a ∈ (register c operation ls).present, a.job = j ∧
      ∀ b ∈ (register c operation ls).present, a.Before c.selection b
  /-- What is popped while a job stays precedes that. -/
  overtaken : ∀ ms q, p.run? ms = some q → (Pool.start c operation).Intact (ls ++ ms) →
    ∃ as : List (Arrival π), q.popped = p.popped ++ as.map Arrival.job ∧
      ∀ b ∈ (register c operation ls).present, b ∈ (register c operation (ls ++ ms)).present →
        ∀ a ∈ as, a.number ≠ b.number ∧ a.Before c.selection b

theorem handOver_of_run (h : (Pool.start c operation).run? ls = some p) :
    HandOver c operation ls p := by
  constructor
  · exact handing_of_run h
  · exact p.coordinator.length_hand_le
  · exact orderly_of_run h
  · exact length_workers_of_run h ▸ p.length_unfinished_le
  · exact begun_of_alone h
  · exact fun ms q kind hrun hintact hkind => drained_of_intact hintact hrun kind hkind
  · exact fun halone ms q hrun hintact hinserted =>
      executed_of_alone h halone hrun hintact hinserted
  · intro hintact
    have hfollows := follows_of_run h hintact
    refine ⟨_, Register.lineup_perm _, hfollows.line_eq, ?_⟩
    exact selection_register c operation ls ▸ Register.lineup_pairwise _
  · intro hintact l q j hstep hpopped
    obtain ⟨a, hnext, rfl⟩ := next?_of_popped (follows_of_run h hintact) hstep hpopped
    refine ⟨a, Register.mem_of_next? hnext, rfl, fun b hb => ?_⟩
    exact selection_register c operation ls ▸ Register.before_of_next? hnext hb
  · intro ms q hrun hintact
    obtain ⟨hbefore, hafter⟩ := (intact_append h).mp hintact
    have hfollows := follows_of_run h hbefore
    have hpopped := (obeys_of_run hafter hrun).popped_eq
    rw [hfollows.taken_eq] at hpopped
    refine ⟨_, hpopped, fun b hb hstays a ha => ?_⟩
    rw [register_append h] at hstays
    exact selection_register c operation ls ▸ Register.before_of_mem_taken ha hb hstays

/-- Three jobs come in while the only worker executes another one, and the first of them is held. -/
def submitWhileExecuting : List (Label Unit Unit) :=
  [.submit ⟨1⟩ 0 0 1 (), .coordinate, .coordinate, .coordinate, .work 0 [], .work 0 [],
    .handOver 0, .work 0 [], .work 0 [], .work 0 [], .submit ⟨2⟩ 5 0 1 (), .coordinate,
    .coordinate, .coordinate, .submit ⟨3⟩ 9 0 1 (), .submit ⟨4⟩ 7 0 1 ()]

theorem handOver_submitWhileExecuting : ∃ p : Pool Unit Unit,
    (Pool.start { workers := 1 } "run").run? submitWhileExecuting = some p ∧
      HandOver { workers := 1 } "run" submitWhileExecuting p ∧
        p.unfinished.map Job.id = [⟨2⟩, ⟨1⟩] ∧ p.queue.line.map Job.id = [⟨4⟩, ⟨3⟩] := by
  refine ⟨_, rfl, ?_, rfl, by decide⟩
  have hrun : (Pool.start { workers := 1 } "run").run? submitWhileExecuting = some _ := rfl
  exact handOver_of_run hrun

/-- A sweep condemns the first of three pending jobs, lets the second one stay, and panics. -/
def sweepPanicking : List (Label Unit Unit) :=
  [.submit ⟨1⟩ 1 0 1 (), .submit ⟨2⟩ 2 0 1 (), .submit ⟨3⟩ 3 0 1 (),
    .cancelWhere Workbench.removeKeepPanic, .coordinate]

/-- The least urgent job is to be taken first, but one that is more urgent has passed it. -/
theorem popped_outOfOrder : ∃ (p q : Pool Unit Unit) (i j : Job Unit),
    (Pool.start { workers := 1, selection := .leastUrgentFirst } "run").run? sweepPanicking =
        some p ∧
      p.step .coordinate = some q ∧ q.popped = p.popped ++ [j] ∧ i ∈ q.queue.line ∧
        i.notAbove j = true ∧ j.notAbove i = false := by
  refine ⟨_, _, .work (.ofTaskCount ⟨1⟩ 1 0 1 () 0), .work (.ofTaskCount ⟨2⟩ 2 0 1 () 1), rfl, rfl,
    rfl, ?_, rfl, rfl⟩
  decide

end Pool
end PacedJobs
