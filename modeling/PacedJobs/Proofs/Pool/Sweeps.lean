import PacedJobs.Proofs.Pool.Slices
import PacedJobs.Proofs.Queue.Interruption
import PacedJobs.Proofs.Queue.Weights
import PacedJobs.Session.Basic
import PacedJobs.Workbench

/-!
# What a sweep takes out

A sweep asks its judge once about every pending job, from the least to the most urgent, and takes
out those that the judge condemns. What it reports is what is gone. To cancel by priority sweeps
with a judge that knows no placeholder, so the highest of several priorities decides.
-/

namespace PacedJobs

variable {π ω : Type}

namespace Judge

/-- The verdicts on jobs that are shown one after the other, where some views were shown before. -/
def verdictsAfter (judge : Judge π) (seen : Array (View π)) (jobs : List (Job π)) : List Verdict :=
  jobs.mapIdx fun k j => judge (seen ++ ((jobs.take k).map Job.view).toArray) j.view

/-- The verdicts on jobs, each shown with its own view after all jobs before it. -/
abbrev verdicts (judge : Judge π) (jobs : List (Job π)) : List Verdict :=
  judge.verdictsAfter #[] jobs

/-- The answers of a predicate that changes what it remembers whenever it is called. -/
def calls {σ : Type} (call : σ → View π → Bool × σ) : σ → List (View π) → List Bool
  | _, [] => []
  | s, v :: vs => (call s v).1 :: calls call (call s v).2 vs

def ofAnswer (condemned : Bool) : Verdict :=
  if condemned then .remove else .keep

/-- A predicate that changes what it remembers whenever it is called. -/
def remembering {σ : Type} (call : σ → View π → Bool × σ) (start : σ) : Judge π :=
  fun seen v =>
    ofAnswer (call (seen.foldl (fun s v => (call s v).2) start) v).1

variable {judge : Judge π} {seen : Array (View π)} {j : Job π} {js : List (Job π)}

@[simp] theorem verdictsAfter_nil : judge.verdictsAfter seen [] = [] := rfl

@[simp] theorem verdictsAfter_cons : judge.verdictsAfter seen (j :: js) =
    judge seen j.view :: judge.verdictsAfter (seen.push j.view) js := by
  unfold verdictsAfter
  rw [List.mapIdx_cons]
  congr 1
  refine congrArg (fun f => js.mapIdx f) (funext fun k => funext fun i => ?_)
  simp [← Array.append_singleton]

@[simp] theorem length_verdictsAfter : (judge.verdictsAfter seen js).length = js.length := by
  simp [verdictsAfter]

theorem ofAnswer_ne_panic (condemned : Bool) : ofAnswer condemned ≠ .panic := by
  cases condemned <;> decide

theorem verdictsAfter_remembering {σ : Type} (call : σ → View π → Bool × σ) (start : σ) :
    (remembering call start).verdictsAfter seen js =
      (calls call (seen.foldl (fun s v => (call s v).2) start) (js.map Job.view)).map ofAnswer := by
  induction js generalizing seen with
  | nil => rfl
  | cons j js ih => simp [ih, calls, remembering]

theorem verdictsAfter_ofPredicate (f : View π → Bool) :
    (ofPredicate f).verdictsAfter seen js = js.map fun j => ofAnswer (f j.view) := by
  induction js generalizing seen with
  | nil => rfl
  | cons j js ih =>
    rw [verdictsAfter_cons, ih]
    rfl

theorem panic_not_mem_map_ofAnswer {α : Type} (f : α → Bool) (xs : List α) :
    .panic ∉ xs.map fun x => ofAnswer (f x) := by
  intro hmem
  obtain ⟨x, -, hx⟩ := List.mem_map.mp hmem
  exact ofAnswer_ne_panic _ hx

end Judge

namespace Sweep

def withVerdict (v : Verdict) (jobs : List (Job π)) (verdicts : List Verdict) : List (Job π) :=
  ((jobs.zip verdicts).filter (·.2 == v)).map Prod.fst

theorem withVerdict_sublist {v : Verdict} {jobs : List (Job π)} {verdicts : List Verdict}
    (h : verdicts.length = jobs.length) : (withVerdict v jobs verdicts).Sublist jobs := by
  have hsublist := List.filter_sublist (p := (·.2 == v)) (l := jobs.zip verdicts)
  have hmap := hsublist.map Prod.fst
  rwa [List.map_fst_zip h.ge] at hmap

variable {judge : Judge π} {seen : Array (View π)} {judged : List (Job π × Bool)}
  {jobs : List (Job π)}

theorem judgeAll_of_not_panic (h : .panic ∉ judge.verdictsAfter seen jobs) :
    judgeAll judge seen judged jobs = (judged.reverse ++
      (jobs.zip (judge.verdictsAfter seen jobs)).map fun x => (x.1, x.2 == .keep), []) := by
  induction jobs generalizing seen judged with
  | nil => simp [judgeAll]
  | cons j js ih =>
    rw [Judge.verdictsAfter_cons, List.mem_cons, not_or] at h
    cases hverdict : judge seen j.view with
    | panic => exact absurd hverdict.symm h.1
    | _ => simp [judgeAll, hverdict, ih h.2]

theorem judgeAll_of_panic (h : .panic ∈ judge.verdictsAfter seen jobs) :
    (judgeAll judge seen judged jobs).2 ≠ [] := by
  induction jobs generalizing seen judged with
  | nil => simp at h
  | cons j js ih =>
    rw [Judge.verdictsAfter_cons, List.mem_cons] at h
    cases hverdict : judge seen j.view with
    | panic => simp [judgeAll, hverdict]
    | _ => simpa [judgeAll, hverdict] using ih (h.resolve_left (by simp [hverdict]))

theorem run_of_not_panic (h : .panic ∉ judge.verdicts jobs) :
    run judge jobs = .finished (withVerdict .keep jobs (judge.verdicts jobs))
      (withVerdict .remove jobs (judge.verdicts jobs)) := by
  have hremoved : ∀ x ∈ jobs.zip (judge.verdicts jobs), (!(x.2 == .keep)) = (x.2 == .remove) := by
    intro x hx
    have hmem := (List.of_mem_zip hx).2
    obtain ⟨j, v⟩ := x
    cases v with
    | panic => exact absurd hmem h
    | _ => rfl
  rw [run, judgeAll_of_not_panic h]
  simp only [List.reverse_nil, List.nil_append, List.filter_map, List.map_map, withVerdict,
    Function.comp_def]
  rw [List.filter_congr hremoved]

theorem run_of_panic (h : .panic ∈ judge.verdicts jobs) :
    ∃ left, run judge jobs = .panicked left := by
  have hrest : (judgeAll judge #[] [] jobs).2 ≠ [] := judgeAll_of_panic h
  unfold run
  cases hjudged : judgeAll judge #[] [] jobs with
  | mk judged rest =>
    rw [hjudged] at hrest
    cases rest with
    | nil => exact absurd rfl hrest
    | cons j rest => exact ⟨_, rfl⟩

end Sweep

namespace Tickets

theorem weigh_atTicket_eq_zero {n : Nat} {js : List (Job π)} :
    weigh (atTicket n) js = 0 ↔ some n ∉ js.map Job.ticket? := by
  induction js with
  | nil => simp
  | cons j js ih =>
    rw [weigh_cons, Nat.add_eq_zero_iff, ih, List.map_cons, List.mem_cons, not_or]
    simp [atTicket, eq_comm]

theorem dropAll_append (ts : Tickets ω) (xs ys : List (Job π)) :
    ts.dropAll (xs ++ ys) = (ts.dropAll xs).dropAll ys :=
  List.foldl_append ..

theorem dropAll_perm (ts : Tickets ω) {xs ys : List (Job π)} (h : xs.Perm ys) :
    ts.dropAll xs = ts.dropAll ys := by
  refine List.ext_getElem? fun n => ?_
  rw [getElem?_dropAll, getElem?_dropAll, weigh_perm h]

end Tickets

/-- What a sweep makes of a queue and its tickets, given the verdicts on the jobs. -/
structure Swept (verdicts : List Verdict) (q : Queue π) (ts : Tickets ω) (removed : List (Job π))
    (q' : Queue π) (ts' : Tickets ω) : Prop where
  removed_eq : removed = Sweep.withVerdict .remove q.jobs verdicts
  jobs_eq : q'.jobs = Sweep.withVerdict .keep q.jobs verdicts
  queue_eq : q' = q.withJobs q'.jobs
  all : (removed ++ q'.jobs).Perm q.jobs
  removed_sublist : removed.Sublist q.jobs
  jobs_sublist : q'.jobs.Sublist q.jobs
  ids_nodup : (q.jobs.map Job.id).Nodup → (removed.map Job.id).Nodup
  tickets : ∀ n : Nat, ts'[n]? = (ts[n]?).map fun t =>
    if some n ∈ removed.map Job.ticket? then t.dropSender else t

namespace Queue

variable {q : Queue π} {judge : Judge π}

theorem deleteWhere_of_not_panic (h : .panic ∉ judge.verdicts q.jobs) (ts : Tickets ω) :
    ∃ removed q', q.deleteWhere judge = (some removed, q') ∧
      Swept (judge.verdicts q.jobs) q ts removed q' (ts.dropAll removed) := by
  have hrun := Sweep.run_of_not_panic h
  have hall := Sweep.run_perm judge q.jobs
  have hlength : (judge.verdicts q.jobs).length = q.jobs.length := Judge.length_verdictsAfter
  have hremoved := Sweep.withVerdict_sublist (v := .remove) hlength
  rw [hrun] at hall
  refine ⟨_, _, by rw [deleteWhere, hrun], ?_⟩
  constructor
  · rfl
  · exact q.jobs_withJobs _
  · rw [q.jobs_withJobs]
  · rwa [q.jobs_withJobs]
  · exact hremoved
  · rw [q.jobs_withJobs]
    exact Sweep.withVerdict_sublist hlength
  · exact (hremoved.map Job.id).nodup
  · intro n
    rw [Tickets.getElem?_dropAll]
    simp only [Tickets.weigh_atTicket_eq_zero, ite_not]

theorem deleteWhere_eq_none_iff :
    (q.deleteWhere judge).1 = none ↔ .panic ∈ judge.verdicts q.jobs := by
  constructor
  · intro hnone
    by_contra h
    obtain ⟨removed, q', hsweep, -⟩ := deleteWhere_of_not_panic (ω := Unit) h []
    rw [hsweep] at hnone
    cases hnone
  · intro h
    obtain ⟨left, hrun⟩ := Sweep.run_of_panic h
    rw [deleteWhere, hrun]

theorem filter_or_perm {α : Type} (f g : α → Bool) (xs : List α) :
    (xs.filter f ++ (xs.filter fun x => !f x).filter g).Perm (xs.filter fun x => f x || g x) := by
  induction xs with
  | nil => exact .refl _
  | cons x xs ih =>
    cases hf : f x with
    | true => simpa [hf] using ih.cons x
    | false =>
      cases hg : g x with
      | true => simpa [hf, hg] using List.perm_middle.trans (ih.cons x)
      | false => simpa [hf, hg] using ih

@[simp] theorem withJobs_withJobs (q : Queue π) (xs ys : List (Job π)) :
    (q.withJobs xs).withJobs ys = q.withJobs ys := by
  obtain ⟨selection, line, closed⟩ := q
  cases selection <;> rfl

/-- Two sweeps by judges without memory leave what one sweep by both leaves. -/
theorem deleteWhere_twice (q : Queue π) (f g : View π → Bool) :
    ∃ xs ys zs q₁ q₂, q.deleteWhere (.ofPredicate f) = (some xs, q₁) ∧
      q₁.deleteWhere (.ofPredicate g) = (some ys, q₂) ∧
      q.deleteWhere (.ofPredicate fun v => f v || g v) = (some zs, q₂) ∧ (xs ++ ys).Perm zs := by
  refine ⟨_, _, q.jobs.filter fun j => f j.view || g j.view, _, _, q.deleteWhere_ofPredicate f,
    deleteWhere_ofPredicate _ g, ?_, ?_⟩
  · rw [deleteWhere_ofPredicate, jobs_withJobs, withJobs_withJobs, List.filter_filter]
    simp only [Bool.not_or, Bool.and_comm]
  · rw [jobs_withJobs]
    exact filter_or_perm (fun j : Job π => f j.view) (fun j => g j.view) q.jobs

end Queue

namespace Workbench

variable (b : Workbench π ω) {judge : Judge π}

theorem deleteWhere_of_not_panic (h : .panic ∉ judge.verdicts b.queue.jobs) :
    ∃ removed b', b.deleteWhere judge = (some removed, b') ∧
      Swept (judge.verdicts b.queue.jobs) b.queue b.tickets removed b'.queue b'.tickets ∧
      b' = { b with queue := b'.queue, tickets := b'.tickets } := by
  obtain ⟨removed, q', hsweep, hswept⟩ := Queue.deleteWhere_of_not_panic h b.tickets
  exact ⟨removed, _, by rw [deleteWhere, hsweep], hswept, rfl⟩

theorem deleteWhere_eq_none_iff :
    (b.deleteWhere judge).1 = none ↔ .panic ∈ judge.verdicts b.queue.jobs := by
  rw [← Queue.deleteWhere_eq_none_iff, deleteWhere]
  split
  next hsweep => simp [hsweep]
  next hsweep => simp [hsweep]

theorem deleteWhere_twice (f g : View π → Bool) :
    ∃ xs ys zs b₁ b₂, b.deleteWhere (.ofPredicate f) = (some xs, b₁) ∧
      b₁.deleteWhere (.ofPredicate g) = (some ys, b₂) ∧
      b.deleteWhere (.ofPredicate fun v => f v || g v) = (some zs, b₂) ∧ (xs ++ ys).Perm zs := by
  obtain ⟨xs, ys, zs, q₁, q₂, hfirst, hsecond, hboth, hperm⟩ := b.queue.deleteWhere_twice f g
  refine ⟨xs, ys, zs, { b with queue := q₁ }.drop xs, { b with queue := q₂ }.drop zs, ?_, ?_, ?_,
    hperm⟩
  · rw [deleteWhere, hfirst]
  · simp [deleteWhere, drop, hsecond, ← Tickets.dropAll_append, Tickets.dropAll_perm _ hperm]
  · rw [deleteWhere, hboth]

end Workbench

/-- Whether a job is work with a priority below the given one. -/
def Job.isBelow (priority : UInt16) : Job π → Bool
  | placeholder _ => false
  | work w => w.priority < priority

theorem Job.isBelow_eq (priority : UInt16) (j : Job π) :
    j.isBelow priority = (!j.view.isPlaceholder && decide (j.view.priority < priority)) := by
  cases j <;> rfl

theorem Job.isBelow_max (a b : UInt16) :
    (isBelow (max a b) : Job π → Bool) = fun j => j.isBelow a || j.isBelow b := by
  funext j
  cases j with
  | placeholder id => rfl
  | work w =>
    have hmax : max a b = if a ≤ b then b else a := rfl
    simp only [isBelow, hmax, ← Bool.decide_or, decide_eq_decide, UInt16.lt_iff_toNat_lt]
    split
    next hle =>
      rw [UInt16.le_iff_toNat_le] at hle
      omega
    next hnot =>
      rw [UInt16.le_iff_toNat_le] at hnot
      omega

namespace Pool

variable (p : Pool π ω)

theorem cancelWhere_of_not_panic {judge : Judge π} (h : .panic ∉ judge.verdicts p.queue.jobs) :
    ∃ removed p', p.cancelWhere judge = (removed, p') ∧
      Swept (judge.verdicts p.queue.jobs) p.queue p.tickets removed p'.queue p'.tickets ∧
      p' = { p with queue := p'.queue, tickets := p'.tickets }.record (.cancelled removed) := by
  obtain ⟨removed, q', hsweep, hswept⟩ := Queue.deleteWhere_of_not_panic h p.tickets
  exact ⟨removed, _, by rw [cancelWhere, hsweep], hswept, rfl⟩

theorem cancelBelow_eq (priority : UInt16) :
    p.cancelBelow priority = (p.queue.jobs.filter (Job.isBelow priority),
      ({ p with queue := p.queue.withJobs (p.queue.jobs.filter fun j => !j.isBelow priority) }.drop
        (p.queue.jobs.filter (Job.isBelow priority))).record
          (.cancelled (p.queue.jobs.filter (Job.isBelow priority)))) := by
  rw [cancelBelow, cancelWhere, Queue.deleteWhere_ofPredicate]
  simp only [← Job.isBelow_eq]

theorem cancelBelow_twice (a b : UInt16) :
    let once := p.cancelBelow (max a b)
    let first := p.cancelBelow a
    let second := first.2.cancelBelow b
    second.2.queue = once.2.queue ∧ second.2.tickets = once.2.tickets ∧
      (first.1 ++ second.1).Perm once.1 := by
  intro once first second
  have hperm : (first.1 ++ second.1).Perm once.1 := by
    have hor := Queue.filter_or_perm (Job.isBelow a) (Job.isBelow b) p.queue.jobs
    simpa [once, first, second, cancelBelow_eq, record, drop, Job.isBelow_max] using hor
  refine ⟨?_, ?_, hperm⟩
  · simp [once, first, second, cancelBelow_eq, record, drop, Job.isBelow_max, Bool.and_comm]
  · have htickets := Tickets.dropAll_perm p.tickets hperm
    rw [Tickets.dropAll_append] at htickets
    simpa [once, first, second, cancelBelow_eq, record, drop] using htickets

theorem cancelBelow_swept (priority : UInt16) :
    ∃ p', p.cancelBelow priority = (p.queue.jobs.filter (Job.isBelow priority), p') ∧
      Swept (p.queue.jobs.map fun j => Judge.ofAnswer (j.isBelow priority)) p.queue p.tickets
        (p.queue.jobs.filter (Job.isBelow priority)) p'.queue p'.tickets := by
  have hverdicts : (Judge.ofPredicate fun v => !v.isPlaceholder && v.priority < priority).verdicts
      p.queue.jobs = p.queue.jobs.map fun j => Judge.ofAnswer (j.isBelow priority) := by
    simp only [Job.isBelow_eq]
    exact Judge.verdictsAfter_ofPredicate _
  have hquiet := Judge.panic_not_mem_map_ofAnswer (fun j => j.isBelow priority) p.queue.jobs
  rw [← hverdicts] at hquiet
  obtain ⟨removed, p', hsweep, hswept, -⟩ := p.cancelWhere_of_not_panic hquiet
  have hremoved : removed = p.queue.jobs.filter (Job.isBelow priority) := by
    have hfirst := congrArg Prod.fst (p.cancelBelow_eq priority)
    rwa [cancelBelow, hsweep] at hfirst
  subst hremoved
  exact ⟨p', hsweep, hverdicts ▸ hswept⟩

end Pool

/-- What is promised of sweeps, whatever has been done before. -/
structure SweepsReport (π ω : Type) : Prop where
  /-- A sweep ends in a panic just if one of its calls does: those for the pending jobs, each with
  the job's own view after all jobs before it. -/
  panics : ∀ (b : Workbench π ω) (judge : Judge π),
    (b.deleteWhere judge).1 = none ↔ .panic ∈ judge.verdicts b.queue.jobs
  judged : ∀ (b : Workbench π ω) (judge : Judge π), .panic ∉ judge.verdicts b.queue.jobs →
    ∃ removed b', b.deleteWhere judge = (some removed, b') ∧
      Swept (judge.verdicts b.queue.jobs) b.queue b.tickets removed b'.queue b'.tickets ∧
      b' = { b with queue := b'.queue, tickets := b'.tickets }
  /-- A predicate that never panics answers once for every pending job. -/
  remembering : ∀ (σ : Type) (call : σ → View π → Bool × σ) (start : σ) (b : Workbench π ω),
    ∃ removed b', b.deleteWhere (.remembering call start) = (some removed, b') ∧
      Swept ((Judge.calls call start (b.queue.jobs.map Job.view)).map Judge.ofAnswer)
        b.queue b.tickets removed b'.queue b'.tickets
  twice : ∀ (b : Workbench π ω) (f g : View π → Bool),
    ∃ xs ys zs b₁ b₂, b.deleteWhere (.ofPredicate f) = (some xs, b₁) ∧
      b₁.deleteWhere (.ofPredicate g) = (some ys, b₂) ∧
      b.deleteWhere (.ofPredicate fun v => f v || g v) = (some zs, b₂) ∧ (xs ++ ys).Perm zs
  pools : ∀ (p : Pool π ω) (judge : Judge π), .panic ∉ judge.verdicts p.queue.jobs →
    ∃ removed p', p.cancelWhere judge = (removed, p') ∧
      Swept (judge.verdicts p.queue.jobs) p.queue p.tickets removed p'.queue p'.tickets ∧
      p' = { p with queue := p'.queue, tickets := p'.tickets }.record (.cancelled removed)
  below : ∀ (p : Pool π ω) (priority : UInt16),
    ∃ p', p.cancelBelow priority = (p.queue.jobs.filter (Job.isBelow priority), p') ∧
      Swept (p.queue.jobs.map fun j => Judge.ofAnswer (j.isBelow priority)) p.queue p.tickets
        (p.queue.jobs.filter (Job.isBelow priority)) p'.queue p'.tickets
  belowTwice : ∀ (p : Pool π ω) (a b : UInt16),
    let once := p.cancelBelow (max a b)
    let first := p.cancelBelow a
    let second := first.2.cancelBelow b
    second.2.queue = once.2.queue ∧ second.2.tickets = once.2.tickets ∧
      (first.1 ++ second.1).Perm once.1
  /-- The reply to an action of a session names what was taken out. -/
  replies : ∀ (s : Schedule Json ω) (between : Run Json ω → Run Json ω)
    (t : Session (Run Json ω)) (priority : UInt16),
    let jobs := t.desk.pool.queue.jobs
    ∃ p', t.act (s.desk between) (.cancelBelow priority) =
        (.cancelledBelow priority ((jobs.filter (Job.isBelow priority)).map Job.id),
          { t with desk := between (t.desk.update p') }) ∧
      p'.queue = t.desk.pool.queue.withJobs (jobs.filter fun j => !j.isBelow priority)

theorem sweeps_report (π ω : Type) : SweepsReport π ω := by
  constructor
  · exact fun b judge => b.deleteWhere_eq_none_iff
  · exact fun b judge h => b.deleteWhere_of_not_panic h
  · intro σ call start b
    have hverdicts : (Judge.remembering call start).verdicts b.queue.jobs =
        (Judge.calls call start (b.queue.jobs.map Job.view)).map Judge.ofAnswer :=
      Judge.verdictsAfter_remembering call start
    have hquiet : .panic ∉ (Judge.remembering call start).verdicts b.queue.jobs :=
      hverdicts ▸ Judge.panic_not_mem_map_ofAnswer (fun condemned => condemned) _
    obtain ⟨removed, b', hsweep, hswept, -⟩ := b.deleteWhere_of_not_panic hquiet
    exact ⟨removed, b', hsweep, hverdicts ▸ hswept⟩
  · exact Workbench.deleteWhere_twice
  · exact fun p judge h => p.cancelWhere_of_not_panic h
  · exact Pool.cancelBelow_swept
  · exact Pool.cancelBelow_twice
  · intro s between t priority jobs
    refine ⟨(t.desk.pool.cancelBelow priority).2, ?_, ?_⟩
    · simp only [Session.act, Schedule.desk, Pool.cancelBelow_eq, jobs]
    · rw [Pool.cancelBelow_eq]
      rfl

/-- Condemns the job of every second call. -/
def everySecond : Judge Unit :=
  .remembering (fun calls _ => (calls % 2 == 1, calls + 1)) 0

theorem sweeps_report_everySecond :
    .panic ∉ everySecond.verdicts Workbench.threeJobs.queue.jobs ∧
      ∃ b', Workbench.threeJobs.deleteWhere everySecond = (some [Workbench.laterJob 2], b') ∧
        Swept [.keep, .remove, .keep] Workbench.threeJobs.queue Workbench.threeJobs.tickets
          [Workbench.laterJob 2] b'.queue b'.tickets := by
  have hquiet : .panic ∉ everySecond.verdicts Workbench.threeJobs.queue.jobs := by decide
  obtain ⟨removed, b', hsweep, hswept, -⟩ := (sweeps_report Unit Unit).judged _ _ hquiet
  have hremoved : removed = [Workbench.laterJob 2] := by
    rw [hswept.removed_eq]
    decide
  subst hremoved
  exact ⟨hquiet, b', hsweep, hswept⟩

end PacedJobs
