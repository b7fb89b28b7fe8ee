import PacedJobs.Proofs.Pool.Sequence
import PacedJobs.Proofs.Queue.Taking

/-!
# What a pool asks of its queue

A step asks the queue for one thing at most. So the queue of a pool is what the requests of its run
have made of it, and what the coordinator has popped is what they have taken. This is so as long as
a sweep that a panic breaks off leaves the queue as it was.
-/

namespace PacedJobs

variable {π ω : Type}

/-- What a judge condemns if it does not panic. -/
def Judge.condemns (judge : Judge π) (seen : Array (View π)) (v : View π) : Bool :=
  judge seen v == .remove

theorem Judge.ofAnswers_condemns {judge : Judge π} (h : ∀ seen v, judge seen v ≠ .panic) :
    .ofAnswers judge.condemns = judge := by
  funext seen v
  cases hverdict : judge seen v with
  | panic => exact absurd hverdict (h seen v)
  | _ => simp [ofAnswers, condemns, hverdict]

namespace Sweep

/-- A judge that has not panicked might as well have answered every view. -/
theorem judgeAll_condemns {judge : Judge π} {seen : Array (View π)}
    {judged judged' : List (Job π × Bool)} {jobs : List (Job π)}
    (h : judgeAll judge seen judged jobs = (judged', [])) :
    judgeAll (Judge.ofAnswers judge.condemns) seen judged jobs = (judged', []) := by
  induction jobs generalizing seen judged with
  | nil => exact h
  | cons j js ih =>
    unfold judgeAll at h ⊢
    cases hverdict : judge seen j.view with
    | panic => simp [hverdict] at h
    | remove =>
      rw [hverdict] at h
      simpa [Judge.ofAnswers, Judge.condemns, hverdict] using ih h
    | keep =>
      rw [hverdict] at h
      simpa [Judge.ofAnswers, Judge.condemns, hverdict] using ih h

theorem run_condemns {judge : Judge π} {jobs kept removed : List (Job π)}
    (h : run judge jobs = .finished kept removed) :
    run (Judge.ofAnswers judge.condemns) jobs = .finished kept removed := by
  unfold run at h ⊢
  cases hjudged : judgeAll judge #[] [] jobs with
  | mk judged rest =>
    cases rest with
    | nil => rwa [judgeAll_condemns hjudged, ← hjudged]
    | cons j rest =>
      rw [hjudged] at h
      cases h

end Sweep

theorem Queue.deleteWhere_condemns {q q' : Queue π} {judge : Judge π} {js : List (Job π)}
    (h : q.deleteWhere judge = (some js, q')) :
    q.deleteWhere (Judge.ofAnswers judge.condemns) = (some js, q') := by
  unfold deleteWhere at h ⊢
  cases hrun : Sweep.run judge q.jobs with
  | finished kept removed => rwa [Sweep.run_condemns hrun, ← hrun]
  | panicked jobs =>
    rw [hrun] at h
    cases h

theorem Queue.reserve_nil (q : Queue π) : q.reserve [] = ([], q) := by
  simp [reserve, insertPlaceholders]

theorem Queue.taken_append (q : Queue π) (xs ys : List (Request π)) :
    q.taken (xs ++ ys) = q.taken xs ++ (xs.foldl apply q).taken ys := by
  induction xs generalizing q with
  | nil => rfl
  | cons x xs ih => simp [taken, ih]

namespace Pool

/-- What a step asks of the queue. A sweep that a panic breaks off asks for nothing. -/
def asked (p : Pool π ω) : Label π ω → List (Queue.Request π)
  | .submit id priority submittedAt taskCount payload =>
    [.push (.work (.ofTaskCount id priority submittedAt taskCount payload p.tickets.length))]
  | .cancel id => [.delete id]
  | .cancelWhere judge =>
    if (p.queue.deleteWhere judge).1.isSome then [.deleteWhere judge.condemns] else []
  | .resume k ids =>
    match p.calls[k]? with
    | some (.reserving _) => [.reserve ids]
    | some .shutting => [.close]
    | _ => []
  | .coordinate =>
    match p.coordinator with
    | .popping => [.pop]
    | _ => []
  | .work i ids =>
    match p.workers[i]? with
    | some (.processing (.work w) _) =>
      if p.reservation = .onExecute ∧ 0 < w.reserved then [.reserve ids] else []
    | _ => []
  | _ => []

/-- What the steps of a run ask of the queue, one after the other. -/
def requests (p : Pool π ω) : List (Label π ω) → List (Queue.Request π)
  | [] => []
  | l :: ls => p.asked l ++ ((p.step l).map fun q => q.requests ls).getD []

/-- Every sweep of a run that a panic breaks off leaves the queue as it was. -/
def Intact (p : Pool π ω) : List (Label π ω) → Prop
  | [] => True
  | l :: ls => (∀ judge q, l = .cancelWhere judge → p.queue.deleteWhere judge = (none, q) →
      q = p.queue) ∧ ∀ q, p.step l = some q → q.Intact ls

/-- The queue has answered requests, and the coordinator has got what they take. -/
structure Obeys (p q : Pool π ω) (xs : List (Queue.Request π)) : Prop where
  queue_eq : q.queue = xs.foldl Queue.apply p.queue
  popped_eq : q.popped = p.popped ++ p.queue.taken xs

variable {p q r : Pool π ω} {l : Label π ω} {ls ms : List (Label π ω)}
  {xs ys : List (Queue.Request π)}

theorem Obeys.refl (p : Pool π ω) : Obeys p p [] :=
  ⟨rfl, (List.append_nil _).symm⟩

theorem Obeys.trans (h : Obeys p q xs) (h' : Obeys q r ys) : Obeys p r (xs ++ ys) where
  queue_eq := by rw [h'.queue_eq, h.queue_eq, List.foldl_append]
  popped_eq := by
    rw [h'.popped_eq, h.popped_eq, Queue.taken_append, h.queue_eq, List.append_assoc]

theorem popped_note {e : Event π ω} (h : q.history = e :: p.history) :
    q.popped = p.popped ++ e.popped?.toList := by
  rw [popped, told_of_history [e] h, List.filterMap_cons]
  cases e.popped? <;> rfl

theorem Obeys.frame (hqueue : q.queue = p.queue) (hhistory : q.history = p.history) :
    Obeys p q [] :=
  ⟨hqueue, by simp [popped, told, hhistory, Queue.taken]⟩

theorem Obeys.note {e : Event π ω} (hqueue : q.queue = xs.foldl Queue.apply p.queue)
    (hhistory : q.history = e :: p.history) (htaken : p.queue.taken xs = e.popped?.toList) :
    Obeys p q xs :=
  ⟨hqueue, htaken ▸ popped_note hhistory⟩

theorem queue_reserve (p : Pool π ω) (ids : List JobId) :
    (p.reserve ids).queue = p.queue.apply (.reserve ids) := by
  simp only [Pool.reserve, Queue.apply]
  cases ids with
  | nil => simp [Queue.reserve_nil]
  | cons id ids =>
    unfold Queue.reserve
    cases p.queue.closed <;> rfl

theorem Obeys.reserve (p : Pool π ω) (ids : List JobId) (hqueue : q.queue = (p.reserve ids).queue)
    (hhistory : q.history = (p.reserve ids).history) : Obeys p q [.reserve ids] := by
  refine ⟨hqueue.trans (p.queue_reserve ids), ?_⟩
  rcases p.reserve_cases ids with heq | ⟨-, heq⟩
  · rw [heq] at hhistory
    simp [popped, told, hhistory, Queue.taken, Queue.given]
  · rw [heq] at hhistory
    exact popped_note hhistory

theorem Move.obeys (h : Move p l q) (hintact : ∀ judge q, l = .cancelWhere judge →
    p.queue.deleteWhere judge = (none, q) → q = p.queue) : Obeys p q (p.asked l) := by
  cases h with
  | refuse w hw hclosed =>
    refine .note ?_ rfl rfl
    simp [asked, Queue.apply, Queue.push, hclosed, record, addCall, drop]
  | accept w hw hopen =>
    subst hw
    refine .note ?_ rfl rfl
    simp [asked, Queue.apply, Queue.push, hopen, record, addCall]
  | @cancelMiss id hmiss => exact ⟨by simp [asked, Queue.apply, hmiss], (List.append_nil _).symm⟩
  | cancel j queue hdelete =>
    refine .note ?_ rfl rfl
    simp [asked, Queue.apply, hdelete, record, drop]
  | sweepPanic queue hsweep =>
    simp only [asked, hsweep, Option.isSome_none, Bool.false_eq_true, if_false]
    exact .frame (hintact _ queue rfl hsweep) rfl
  | sweep js queue hsweep =>
    simp only [asked, hsweep, Option.isSome_some, if_true]
    refine .note ?_ rfl rfl
    simp [Queue.apply, Queue.deleteWhere_condemns hsweep, record, drop]
  | @reserve k ids count hcall hids =>
    simp only [asked, hcall]
    exact .reserve p ids rfl rfl
  | trigger hcall =>
    simp only [asked, hcall]
    exact .note rfl rfl rfl
  | shut hcall =>
    simp only [asked, hcall]
    exact .note rfl rfl rfl
  | coordinate hturn hawake =>
    cases hat : p.coordinator with
    | popping =>
      rw [hat] at hturn
      cases hturn with
      | miss hempty =>
        have hnone : p.queue.pop = none := by simp [Queue.pop, hempty]
        exact ⟨by simp [asked, hat, Queue.apply, hnone], by
          simp [asked, hat, Queue.taken, Queue.given, hempty, popped, told]⟩
    | _ =>
      simp only [asked, hat]
      exact .frame rfl rfl
  | pop hat hline =>
    simp only [asked, hat]
    refine .note ?_ rfl ?_
    · simp [Queue.apply, Queue.pop, hline, record]
    · simp [Queue.taken, Queue.given, hline, Event.popped?]
  | abandon hat =>
    rcases hat with ⟨hat, -⟩ | ⟨hat, -⟩
    all_goals
      simp only [asked, hat]
      exact .note rfl rfl rfl
  | @work i ids w w' hat hturn hawake =>
    have hnone : p.asked (.work i ids) = [] := by
      simp only [asked, hat]
      cases hturn <;> rfl
    rw [hnone]
    exact .frame rfl rfl
  | giveUp hat hfired =>
    simp only [asked, hat]
    exact .note rfl rfl rfl
  | begin hat =>
    simp only [asked, hat]
    exact .note rfl rfl rfl
  | prepare hat hmode hmore hids =>
    simp only [asked, hat, hmode, hmore, and_self, if_true]
    exact .reserve p _ rfl rfl
  | call hat =>
    rcases hat with ⟨hat, hmode⟩ | hat
    · simp only [asked, hat, hmode, if_false]
      exact .note rfl rfl rfl
    · simp only [asked, hat]
      exact .note rfl rfl rfl
  | write t hat ht hkept hfree =>
    simp only [asked, hat]
    exact .note rfl rfl rfl
  | miss hat hmiss =>
    simp only [asked, hat]
    exact .frame rfl rfl
  | finish hat =>
    rcases hat with ⟨hat, -⟩ | ⟨hat, -⟩
    all_goals
      simp only [asked, hat]
      exact .frame rfl rfl
  | handOver hat hi => exact .note rfl rfl rfl
  | answer x hat => exact .note rfl rfl rfl
  | _ => exact .frame rfl rfl

theorem obeys_of_run (hintact : p.Intact ls) (h : p.run? ls = some q) :
    Obeys p q (p.requests ls) := by
  induction ls generalizing p with
  | nil =>
    cases h
    exact .refl _
  | cons l ls ih =>
    obtain ⟨s, hs, hrun⟩ := run?_cons.mp h
    rw [requests, hs, Option.map_some, Option.getD_some]
    exact ((move_of_step hs).obeys hintact.1).trans (ih (hintact.2 s hs) hrun)

theorem requests_append (hrun : p.run? ls = some q) (ms : List (Label π ω)) :
    p.requests (ls ++ ms) = p.requests ls ++ q.requests ms := by
  induction ls generalizing p with
  | nil =>
    cases hrun
    rfl
  | cons l ls ih =>
    obtain ⟨s, hs, hrun⟩ := run?_cons.mp hrun
    simp [requests, hs, ih hrun]

theorem intact_append (hrun : p.run? ls = some q) :
    p.Intact (ls ++ ms) ↔ p.Intact ls ∧ q.Intact ms := by
  induction ls generalizing p with
  | nil =>
    cases hrun
    simp [Intact]
  | cons l ls ih =>
    obtain ⟨s, hs, hrun⟩ := run?_cons.mp hrun
    simp [Intact, hs, ih hrun, and_assoc]

theorem intact_of_forall_ne_panic
    (h : ∀ judge, .cancelWhere judge ∈ ls → ∀ seen v, judge seen v ≠ .panic) : p.Intact ls := by
  induction ls generalizing p with
  | nil => exact True.intro
  | cons l ls ih =>
    refine ⟨?_, fun q _ => ih fun judge hjudge => h judge (List.mem_cons_of_mem l hjudge)⟩
    rintro judge q rfl hsweep
    rw [← Judge.ofAnswers_condemns (h judge List.mem_cons_self), Queue.deleteWhere,
      Sweep.run_ofAnswers] at hsweep
    cases hsweep

/-- The register that is kept of what a run from the start asks of the queue. -/
def register (c : Config) (operation : String) (ls : List (Label π ω)) : Register π :=
  ((Pool.start c operation).requests ls).foldl Register.apply (Register.empty c.selection)

variable {c : Config} {operation : String}

theorem follows_of_run (h : (Pool.start c operation).run? ls = some p)
    (hintact : (Pool.start c operation).Intact ls) :
    p.queue.Follows (register c operation ls) := by
  rw [(obeys_of_run hintact h).queue_eq]
  exact (Queue.follows_empty c.selection).foldl_apply _

theorem register_append (h : (Pool.start c operation).run? ls = some p) (ms : List (Label π ω)) :
    register c operation (ls ++ ms) =
      (p.requests ms).foldl Register.apply (register c operation ls) := by
  rw [register, requests_append h, List.foldl_append]
  rfl

theorem selection_register (c : Config) (operation : String) (ls : List (Label π ω)) :
    (register c operation ls).selection = c.selection :=
  Register.selection_foldl_apply _ _

end Pool
end PacedJobs
