import PacedJobs.Queue.Basic

/-!
# Sweeping a queue

A sweep shows every pending job to a judge, in the order of the queue, and takes out those that the
judge condemns. It works in place: a job that stays moves forward by a swap with the first of the
places left behind, and these places are cut off at the end. A judge that panics ends the sweep at
once, and the jobs then stand as the swaps have left them.
-/

namespace PacedJobs

inductive Verdict where
  | keep
  | remove
  | panic
deriving DecidableEq, Repr

/-- A judge decides on a view and may remember those it has seen, given in the order in which it saw
them. -/
abbrev Judge (π : Type) := Array (View π) → View π → Verdict

/-- A judge without memory. -/
def Judge.ofPredicate {π : Type} (p : View π → Bool) : Judge π :=
  fun _ v => if p v then .remove else .keep

/-- How a sweep ends: with the jobs that stay and those taken out, both in the order of the queue,
or with all jobs in a panic. -/
inductive Sweep (π : Type) where
  | finished (kept removed : List (Job π))
  | panicked (jobs : List (Job π))
deriving DecidableEq, Repr

namespace Sweep

variable {π : Type}

/-- Judges jobs up to the first panic. This gives the judged jobs, each with whether it stays, and
the jobs from the one that brought the panic on. -/
def judgeAll (judge : Judge π) (seen : Array (View π)) (judged : List (Job π × Bool)) :
    List (Job π) → List (Job π × Bool) × List (Job π)
  | [] => (judged.reverse, [])
  | j :: rest =>
    match judge seen j.view with
    | .panic => (judged.reverse, j :: rest)
    | .remove => judgeAll judge (seen.push j.view) ((j, false) :: judged) rest
    | .keep => judgeAll judge (seen.push j.view) ((j, true) :: judged) rest

/-- Where the swaps leave judged jobs. The jobs kept so far stand in front of the places left
behind. -/
def shift (kept gap : List (Job π)) : List (Job π × Bool) → List (Job π)
  | [] => kept ++ gap
  | (j, false) :: rest => shift kept (gap ++ [j]) rest
  | (j, true) :: rest =>
    match gap with
    | [] => shift (kept ++ [j]) [] rest
    | g :: gs => shift (kept ++ [j]) (gs ++ [g]) rest

def run (judge : Judge π) (jobs : List (Job π)) : Sweep π :=
  match judgeAll judge #[] [] jobs with
  | (judged, []) =>
    .finished ((judged.filter fun x => x.2).map Prod.fst)
      ((judged.filter fun x => !x.2).map Prod.fst)
  | (judged, rest) => .panicked (shift [] [] judged ++ rest)

end Sweep

namespace Queue

variable {π : Type}

/-- Sweeps the queue. What was taken out is missing if the judge panicked. -/
def deleteWhere (q : Queue π) (judge : Judge π) : Option (List (Job π)) × Queue π :=
  match Sweep.run judge q.jobs with
  | .finished kept removed => (some removed, q.withJobs kept)
  | .panicked jobs => (none, q.withJobs jobs)

end Queue
end PacedJobs
