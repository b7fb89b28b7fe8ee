import PacedJobs.Config
import PacedJobs.Job.Basic
import PacedJobs.Queue.Bisection

/-!
# The queue of pending jobs

Jobs are ordered from the least to the most urgent, and jobs of equal urgency in the order in which
they came. They stand in line from the end that the selection says, so that the next job to be taken
is the first in line. A closed queue is empty and takes nothing more.
-/

namespace PacedJobs

structure Queue (π : Type) where
  selection : Selection
  /-- The pending jobs, the next to be taken first. -/
  line : List (Job π)
  closed : Bool
deriving DecidableEq, Repr

namespace Queue

variable {π : Type}

def empty (selection : Selection) : Queue π :=
  ⟨selection, [], false⟩

/-- The pending jobs from the least to the most urgent. -/
def jobs (q : Queue π) : List (Job π) :=
  match q.selection with
  | .leastUrgentFirst => q.line
  | .mostUrgentFirst => q.line.reverse

/-- The queue with other jobs, given from the least to the most urgent. -/
def withJobs (q : Queue π) (jobs : List (Job π)) : Queue π :=
  match q.selection with
  | .leastUrgentFirst => { q with line := jobs }
  | .mostUrgentFirst => { q with line := jobs.reverse }

@[simp] theorem jobs_withJobs (q : Queue π) (js : List (Job π)) : (q.withJobs js).jobs = js := by
  obtain ⟨selection, line, closed⟩ := q
  cases selection <;> simp [jobs, withJobs]

@[simp] theorem withJobs_jobs (q : Queue π) : q.withJobs q.jobs = q := by
  obtain ⟨selection, line, closed⟩ := q
  cases selection <;> simp [jobs, withJobs]

@[simp] theorem selection_withJobs (q : Queue π) (js : List (Job π)) :
    (q.withJobs js).selection = q.selection := by
  obtain ⟨selection, line, closed⟩ := q
  cases selection <;> rfl

@[simp] theorem closed_withJobs (q : Queue π) (js : List (Job π)) :
    (q.withJobs js).closed = q.closed := by
  obtain ⟨selection, line, closed⟩ := q
  cases selection <;> rfl

def isEmpty (q : Queue π) : Bool :=
  q.line.isEmpty

def size (q : Queue π) : Nat :=
  q.line.length

def placeholderCount (q : Queue π) : Nat :=
  q.line.countP Job.isPlaceholder

theorem size_eq (q : Queue π) : q.size = q.jobs.length := by
  obtain ⟨selection, line, closed⟩ := q
  cases selection <;> simp [size, jobs]

theorem placeholderCount_eq (q : Queue π) :
    q.placeholderCount = q.jobs.countP Job.isPlaceholder := by
  obtain ⟨selection, line, closed⟩ := q
  cases selection <;> simp [placeholderCount, jobs]

/-- Puts a job behind all jobs that are not more urgent. -/
def insertSorted (j : Job π) (jobs : List (Job π)) : List (Job π) :=
  let place := Bisection.partitionPoint (fun queued => queued.compareUrgency j != .gt) jobs
  jobs.take place ++ j :: jobs.drop place

theorem insertSorted_append {j : Job π} {ys zs : List (Job π)}
    (hy : ∀ x ∈ ys, x.compareUrgency j ≠ .gt) (hz : ∀ x ∈ zs, x.compareUrgency j = .gt) :
    insertSorted j (ys ++ zs) = ys ++ j :: zs := by
  have hplace : Bisection.partitionPoint (fun queued => queued.compareUrgency j != .gt)
      (ys ++ zs) = ys.length :=
    Bisection.partitionPoint_append (fun x hx => by simpa using hy x hx)
      (fun x hx => by simpa using hz x hx)
  simp [insertSorted, hplace]

/-- Puts placeholders with the given names behind all placeholders, in one move. -/
def insertPlaceholders (ids : List JobId) (jobs : List (Job π)) : List (Job π) :=
  let place := Bisection.partitionPoint Job.isPlaceholder jobs
  jobs.take place ++ (ids.map Job.placeholder ++ jobs.drop place)

/-- Where placeholders stand in front, they may as well come one after the other. -/
theorem insertPlaceholders_append {ps ws : List (Job π)} (hp : ∀ j ∈ ps, j.isPlaceholder)
    (hw : ∀ j ∈ ws, j.isPlaceholder = false) (ids : List JobId) :
    insertPlaceholders ids (ps ++ ws) =
      ids.foldl (fun jobs id => insertSorted (.placeholder id) jobs) (ps ++ ws) := by
  have hblock : insertPlaceholders ids (ps ++ ws) = ps ++ (ids.map Job.placeholder ++ ws) := by
    simp [insertPlaceholders, Bisection.partitionPoint_append hp hw]
  rw [hblock]
  clear hblock
  induction ids generalizing ps with
  | nil => simp
  | cons id ids ih =>
    have hone : insertSorted (.placeholder id) (ps ++ ws) = (ps ++ [.placeholder id]) ++ ws := by
      rw [insertSorted_append, List.append_cons]
      · intro x hx
        have := hp x hx
        cases x <;> simp_all [Job.compareUrgency, Job.isPlaceholder]
      · intro x hx
        have := hw x hx
        cases x <;> simp_all [Job.compareUrgency, Job.isPlaceholder]
    have hmore : ∀ j ∈ ps ++ [Job.placeholder id], j.isPlaceholder := by
      intro j hj
      rcases List.mem_append.mp hj with hj | hj
      · exact hp j hj
      · rw [List.mem_singleton.mp hj]
        rfl
    rw [List.foldl_cons, hone, ← ih hmore]
    simp

/-- Inserts a job, and tells whether the queue was open for it. -/
def push (q : Queue π) (j : Job π) : Bool × Queue π :=
  if q.closed then (false, q) else (true, q.withJobs (insertSorted j q.jobs))

/-- Inserts placeholders with the given names, and tells which were inserted. -/
def reserve (q : Queue π) (ids : List JobId) : List JobId × Queue π :=
  if q.closed then ([], q) else (ids, q.withJobs (insertPlaceholders ids q.jobs))

def pop (q : Queue π) : Option (Job π × Queue π) :=
  match q.line with
  | [] => none
  | j :: js => some (j, { q with line := js })

/-- The next job is the least or the most urgent one, as the selection says. -/
theorem pop_eq (q : Queue π) :
    q.pop =
      match q.selection with
      | .leastUrgentFirst => q.jobs.head?.map fun j => (j, q.withJobs q.jobs.tail)
      | .mostUrgentFirst => q.jobs.getLast?.map fun j => (j, q.withJobs q.jobs.dropLast) := by
  obtain ⟨selection, line, closed⟩ := q
  cases selection <;> cases line <;> simp [pop, jobs, withJobs]

def delete (q : Queue π) (id : JobId) : Option (Job π × Queue π) :=
  (q.jobs.find? (·.id == id)).map fun j => (j, q.withJobs (q.jobs.eraseP (·.id == id)))

def close (q : Queue π) : List (Job π) × Queue π :=
  (q.jobs, { q with line := [], closed := true })

end Queue
end PacedJobs
