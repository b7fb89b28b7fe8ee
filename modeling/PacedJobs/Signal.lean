/-!
# The signal to stop

The signal fires once and for good. Who sleeps on it wakes when it fires and otherwise at the
deadline. Time is counted in nanoseconds and has a largest instant.
-/

namespace PacedJobs

/-- The first instant that cannot be represented: seconds are counted by 63 bits. -/
def endOfTime : Nat := Nat.pow 2 63 * 1000000000

/-- The end of a sleep that begins now, unless it lies beyond the largest instant. -/
def deadline? (now timeout : Nat) : Option Nat :=
  if now + timeout < endOfTime then some (now + timeout) else none

/-- What a sleeper finds when it looks at the signal and at the clock. -/
inductive Watch where
  | fired
  | expired
  | early
deriving DecidableEq, Repr

def watch (fired : Bool) (now deadline : Nat) : Watch :=
  if fired then .fired else if deadline ≤ now then .expired else .early

/-- A sleeper sleeps until a deadline, or has been told whether the signal has fired. -/
inductive Sleeper where
  | asleep (deadline : Nat)
  | awake (fired : Bool)
deriving DecidableEq, Repr

namespace Sleeper

def look (fired : Bool) (now : Nat) : Sleeper → Sleeper
  | awake b => awake b
  | asleep deadline =>
    match watch fired now deadline with
    | .fired => awake true
    | .expired => awake false
    | .early => asleep deadline

end Sleeper

/-- A signal with a clock and with those who sleep on it. -/
structure Signal where
  fired : Bool := false
  now : Nat := 0
  sleepers : List Sleeper := []
deriving DecidableEq, Repr

namespace Signal

def settle (s : Signal) : Signal :=
  { s with sleepers := s.sleepers.map (Sleeper.look s.fired s.now) }

def trigger (s : Signal) : Signal :=
  settle { s with fired := true }

def elapse (s : Signal) (time : Nat) : Signal :=
  settle { s with now := s.now + time }

/-- Sleeps for the time, unless the signal has fired. -/
def wait (s : Signal) (timeout : Nat) : Bool × Signal :=
  if s.fired then (true, s) else (false, s.elapse timeout)

def addSleeper (s : Signal) (timeout : Nat) : Signal :=
  settle { s with sleepers := s.sleepers ++ [.asleep (s.now + timeout)] }

/-- Waits for all who sleep, and takes what they were told. -/
def join (s : Signal) : List Bool × Signal :=
  let last := s.sleepers.foldl (fun t sleeper =>
    match sleeper with
    | .asleep deadline => max t deadline
    | .awake _ => t) s.now
  let s := settle { s with now := last }
  (s.sleepers.map fun sleeper => sleeper == .awake true, { s with sleepers := [] })

end Signal
end PacedJobs
