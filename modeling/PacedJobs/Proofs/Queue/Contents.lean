import Mathlib.Data.List.Perm.Basic
import Mathlib.Tactic
import PacedJobs.Queue.Sweep

/-!
# What operations do to the contents of a queue

Up to the order, an operation on a queue adds or takes out exactly the jobs that it says. This needs
no order of urgency: also a queue that a panic has left in disorder loses no job and doubles none.
-/

namespace PacedJobs

namespace Sweep

variable {π : Type}

theorem judgeAll_append (judge : Judge π) (seen : Array (View π)) (judged : List (Job π × Bool))
    (jobs : List (Job π)) :
    (judgeAll judge seen judged jobs).1.map Prod.fst ++ (judgeAll judge seen judged jobs).2 =
      judged.reverse.map Prod.fst ++ jobs := by
  induction jobs generalizing seen judged with
  | nil => simp [judgeAll]
  | cons j js ih =>
    unfold judgeAll
    split
    · rfl
    · rw [ih]
      simp
    · rw [ih]
      simp

theorem shift_perm (kept gap : List (Job π)) (judged : List (Job π × Bool)) :
    (shift kept gap judged).Perm (kept ++ (gap ++ judged.map Prod.fst)) := by
  induction judged generalizing kept gap with
  | nil => simp [shift]
  | cons x judged ih =>
    obtain ⟨j, stays⟩ := x
    cases stays with
    | false => simpa [shift] using ih kept (gap ++ [j])
    | true =>
      cases gap with
      | nil => simpa [shift] using ih (kept ++ [j]) []
      | cons g gs =>
        have hswap : (kept ++ [j] ++ ((gs ++ [g]) ++ judged.map Prod.fst)).Perm
            (kept ++ (g :: gs ++ j :: judged.map Prod.fst)) := by
          simp only [List.append_assoc, List.cons_append]
          refine List.Perm.append_left kept ?_
          exact ((List.perm_middle.cons j).trans (List.Perm.swap g j _)).trans
            (List.perm_middle.symm.cons g)
        exact (ih (kept ++ [j]) (gs ++ [g])).trans hswap

theorem filter_append_filter_not_perm (judged : List (Job π × Bool)) :
    ((judged.filter fun x => !x.2).map Prod.fst ++ (judged.filter fun x => x.2).map Prod.fst).Perm
      (judged.map Prod.fst) := by
  rw [← List.map_append]
  refine (List.Perm.trans ?_ (List.filter_append_perm (fun x : Job π × Bool => x.2) judged)).map _
  exact List.perm_append_comm

/-- What a sweep keeps and takes out, or leaves behind in a panic, is what was there. -/
theorem run_perm (judge : Judge π) (jobs : List (Job π)) :
    match run judge jobs with
    | .finished kept removed => (removed ++ kept).Perm jobs
    | .panicked left => left.Perm jobs := by
  have hall := judgeAll_append judge #[] [] jobs
  unfold run
  cases hjudged : judgeAll judge #[] [] jobs with
  | mk judged rest =>
    rw [hjudged] at hall
    cases rest with
    | nil =>
      simp only [List.reverse_nil, List.map_nil, List.nil_append, List.append_nil] at hall
      exact hall ▸ filter_append_filter_not_perm judged
    | cons j rest =>
      have hshift := (shift_perm [] [] judged).append_right (j :: rest)
      simpa [hall] using hshift

end Sweep

namespace Queue

variable {π : Type} {q q' : Queue π}

theorem jobs_perm (q : Queue π) : q.jobs.Perm q.line := by
  unfold jobs
  split
  · exact .refl _
  · exact q.line.reverse_perm

theorem line_withJobs_perm (q : Queue π) (js : List (Job π)) : (q.withJobs js).line.Perm js := by
  have := (q.withJobs js).jobs_perm
  rw [jobs_withJobs] at this
  exact this.symm

theorem insertSorted_perm (j : Job π) (jobs : List (Job π)) :
    (insertSorted j jobs).Perm (j :: jobs) := by
  unfold insertSorted
  refine List.perm_middle.trans (List.Perm.cons j ?_)
  rw [List.take_append_drop]

theorem insertPlaceholders_perm (ids : List JobId) (jobs : List (Job π)) :
    (insertPlaceholders ids jobs).Perm (ids.map Job.placeholder ++ jobs) := by
  unfold insertPlaceholders
  refine List.perm_append_comm_assoc _ _ _ |>.trans (List.Perm.append_left _ ?_)
  rw [List.take_append_drop]

theorem line_insertSorted_perm (q : Queue π) (j : Job π) :
    (q.withJobs (insertSorted j q.jobs)).line.Perm (j :: q.line) :=
  (q.line_withJobs_perm _).trans ((insertSorted_perm j q.jobs).trans (q.jobs_perm.cons j))

theorem line_insertPlaceholders_perm (q : Queue π) (ids : List JobId) :
    (q.withJobs (insertPlaceholders ids q.jobs)).line.Perm
      (ids.map Job.placeholder ++ q.line) :=
  (q.line_withJobs_perm _).trans
    ((insertPlaceholders_perm ids q.jobs).trans (q.jobs_perm.append_left _))

theorem line_perm_of_delete {id : JobId} {j : Job π} (h : q.delete id = some (j, q')) :
    q.line.Perm (j :: q'.line) := by
  obtain ⟨i, hfind, hi⟩ := Option.map_eq_some_iff.mp h
  cases hi
  obtain ⟨hid, xs, ys, hjobs, hxs⟩ := List.find?_eq_some_iff_append.mp hfind
  have herase : q.jobs.eraseP (·.id == id) = xs ++ ys := by
    rw [hjobs, List.eraseP_append_right _ (fun x hx => by simpa using hxs x hx),
      List.eraseP_cons_of_pos]
    exact hid
  have hjobs_perm : q.jobs.Perm (j :: (xs ++ ys)) := hjobs ▸ List.perm_middle
  rw [herase]
  exact (q.jobs_perm.symm.trans hjobs_perm).trans ((q.line_withJobs_perm _).symm.cons j)

theorem id_of_delete {id : JobId} {j : Job π} (h : q.delete id = some (j, q')) : j.id = id := by
  obtain ⟨i, hfind, hi⟩ := Option.map_eq_some_iff.mp h
  cases hi
  simpa using List.find?_some hfind

theorem closed_of_delete {id : JobId} {j : Job π} (h : q.delete id = some (j, q')) :
    q'.closed = q.closed := by
  obtain ⟨i, -, hi⟩ := Option.map_eq_some_iff.mp h
  cases hi
  exact q.closed_withJobs _

theorem line_perm_of_deleteWhere {judge : Judge π} {js : List (Job π)}
    (h : q.deleteWhere judge = (some js, q')) : q.line.Perm (js ++ q'.line) := by
  have hrun := Sweep.run_perm judge q.jobs
  unfold deleteWhere at h
  split at h
  next kept removed hfinished =>
    cases h
    rw [hfinished] at hrun
    exact (hrun.trans q.jobs_perm).symm.trans ((q.line_withJobs_perm kept).symm.append_left _)
  next => cases h

theorem line_perm_of_deleteWhere_panic {judge : Judge π}
    (h : q.deleteWhere judge = (none, q')) : q'.line.Perm q.line := by
  have hrun := Sweep.run_perm judge q.jobs
  unfold deleteWhere at h
  split at h
  next => cases h
  next left hpanicked =>
    cases h
    rw [hpanicked] at hrun
    exact (q.line_withJobs_perm left).trans (hrun.trans q.jobs_perm)

theorem closed_of_deleteWhere {judge : Judge π} {removed : Option (List (Job π))}
    (h : q.deleteWhere judge = (removed, q')) : q'.closed = q.closed := by
  unfold deleteWhere at h
  split at h
  all_goals
    cases h
    exact q.closed_withJobs _

end Queue
end PacedJobs
