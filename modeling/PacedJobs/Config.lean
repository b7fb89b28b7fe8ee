import PacedJobs.Choice

/-!
# Configuration of a pool

Times are counted in nanoseconds.
-/

namespace PacedJobs

/-- The end of the urgency order that is taken first. -/
inductive Selection where
  | leastUrgentFirst
  | mostUrgentFirst
deriving DecidableEq, Repr, Inhabited

/-- When the further time slices of a job with several tasks are reserved. -/
inductive Reservation where
  | onSubmit
  | onExecute
deriving DecidableEq, Repr, Inhabited

def Selection.choice : Choice Selection where
  values := [.leastUrgentFirst, .mostUrgentFirst]
  name
    | .leastUrgentFirst => "least-urgent-first"
    | .mostUrgentFirst => "most-urgent-first"
  help
    | .leastUrgentFirst =>
      "Default: take the least urgent job first. Placeholders drain first, then older before " ++
        "newer on equal priority, highest priority last"
    | .mostUrgentFirst =>
      "Take the most urgent job first. Placeholders only run when nothing else is pending"

def Reservation.choice : Choice Reservation where
  values := [.onSubmit, .onExecute]
  name
    | .onSubmit => "on-submit"
    | .onExecute => "on-execute"
  help
    | .onSubmit => "Default: push the placeholders together with the job"
    | .onExecute => "Let the worker push the placeholders right before it executes the job"

def nanosecondsPerMillisecond : Nat := 1000000

def nanosecondsPerSecond : Nat := 1000000000

structure Config where
  workers : Nat := 4
  /-- The least duration of one cycle of a worker. -/
  timeSlice : Nat := nanosecondsPerSecond
  selection : Selection := .leastUrgentFirst
  reservation : Reservation := .onSubmit
deriving DecidableEq, Repr

namespace Config

def withWorkers (c : Config) (n : Nat) : Config :=
  { c with workers := max n 1 }

def withTimeSlice (c : Config) (t : Nat) : Config :=
  { c with timeSlice := t }

def withSelection (c : Config) (s : Selection) : Config :=
  { c with selection := s }

def withReservation (c : Config) (r : Reservation) : Config :=
  { c with reservation := r }

end Config
end PacedJobs
