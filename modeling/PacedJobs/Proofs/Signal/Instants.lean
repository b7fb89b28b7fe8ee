import Mathlib.Tactic
import PacedJobs.Config
import PacedJobs.Signal

/-!
# Spans and instants as they are counted

A span of time is counted in whole seconds, in 64 bits, and in nanoseconds below a second. An
instant is counted in the same way, with a sign. A span without another and the span between two
instants are nothing rather than negative, so they never leave the range. The instant a span after
another may lie beyond the last one. In nanoseconds these are the operations on natural numbers that
a pause is reckoned by.
-/

namespace PacedJobs

structure Span where
  seconds : Nat
  nanoseconds : Nat
  seconds_lt : seconds < 2 ^ 64
  nanoseconds_lt : nanoseconds < nanosecondsPerSecond
deriving DecidableEq, Repr

structure Instant where
  seconds : Int
  nanoseconds : Nat
  le_seconds : -2 ^ 63 ≤ seconds
  seconds_lt : seconds < 2 ^ 63
  nanoseconds_lt : nanoseconds < nanosecondsPerSecond
deriving DecidableEq, Repr

theorem endOfTime_eq : endOfTime = 2 ^ 63 * nanosecondsPerSecond := by
  decide

namespace Span

def length (s : Span) : Nat :=
  s.seconds * nanosecondsPerSecond + s.nanoseconds

def zero : Span where
  seconds := 0
  nanoseconds := 0
  seconds_lt := by decide
  nanoseconds_lt := by decide

def second : Span where
  seconds := 1
  nanoseconds := 0
  seconds_lt := by decide
  nanoseconds_lt := by decide

def longest : Span where
  seconds := 2 ^ 64 - 1
  nanoseconds := nanosecondsPerSecond - 1
  seconds_lt := by decide
  nanoseconds_lt := by decide

/-- The span from one count to another, or nothing if that is the smaller one. For nanoseconds that
are missing a second is borrowed. -/
def between (a b : Int) (m n : Nat) (hseconds : b - a < 2 ^ 64)
    (hn : n < nanosecondsPerSecond) : Span :=
  if hmn : m ≤ n then
    if a ≤ b then ⟨(b - a).toNat, n - m, by omega, by omega⟩ else zero
  else
    if a < b then ⟨(b - a - 1).toNat, n + nanosecondsPerSecond - m, by omega, by omega⟩ else zero

theorem length_between {a b : Int} {m n : Nat} (hseconds : b - a < 2 ^ 64)
    (hm : m < nanosecondsPerSecond) (hn : n < nanosecondsPerSecond) :
    (between a b m n hseconds hn).length =
      ((b * nanosecondsPerSecond + n) - (a * nanosecondsPerSecond + m)).toNat := by
  unfold between length nanosecondsPerSecond at *
  split <;> split <;> simp only [zero] <;> omega

/-- What is left of a span without another. -/
def minus (s t : Span) : Span :=
  between t.seconds s.seconds t.nanoseconds s.nanoseconds
    (by have := s.seconds_lt; omega) s.nanoseconds_lt

theorem length_minus (s t : Span) : (s.minus t).length = s.length - t.length := by
  rw [minus, length_between _ t.nanoseconds_lt, length, length]
  omega

/-- Every number of nanoseconds up to the length of a span is the length of a span. -/
theorem exists_length_eq {s : Span} {n : Nat} (h : n ≤ s.length) : ∃ t : Span, t.length = n := by
  have hseconds := s.seconds_lt
  have hnanoseconds := s.nanoseconds_lt
  refine ⟨⟨n / nanosecondsPerSecond, n % nanosecondsPerSecond, ?_, Nat.mod_lt _ (by decide)⟩,
    Nat.div_add_mod' n _⟩
  unfold length nanosecondsPerSecond at *
  omega

end Span

namespace Instant

/-- The instant that counting begins at. -/
def origin : Instant where
  seconds := 0
  nanoseconds := 0
  le_seconds := by decide
  seconds_lt := by decide
  nanoseconds_lt := by decide

/-- How many nanoseconds an instant is after the origin. -/
def position (t : Instant) : Int :=
  t.seconds * nanosecondsPerSecond + t.nanoseconds

theorem position_lt (t : Instant) : t.position < endOfTime := by
  have hseconds := t.seconds_lt
  have hnanoseconds := t.nanoseconds_lt
  rw [endOfTime_eq]
  unfold position nanosecondsPerSecond at *
  omega

theorem exists_position_eq {n : Nat} (h : n < endOfTime) : ∃ t : Instant, t.position = n := by
  rw [endOfTime_eq] at h
  refine ⟨⟨n / nanosecondsPerSecond, n % nanosecondsPerSecond, ?_, ?_,
    Nat.mod_lt _ (by decide)⟩, ?_⟩
  · unfold nanosecondsPerSecond
    omega
  · unfold nanosecondsPerSecond at *
    omega
  · simp only [position, nanosecondsPerSecond]
    omega

/-- How long an instant is after another, or nothing if it is before it. -/
def since (t u : Instant) : Span :=
  Span.between u.seconds t.seconds u.nanoseconds t.nanoseconds
    (by have := t.seconds_lt; have := u.le_seconds; omega) t.nanoseconds_lt

theorem length_since (t u : Instant) : (t.since u).length = (t.position - u.position).toNat :=
  Span.length_between _ u.nanoseconds_lt _

/-- The instant a span later, unless it lies beyond the last one. Nanoseconds that make a second are
carried over. -/
def add? (t : Instant) (s : Span) : Option Instant :=
  if hnanoseconds : t.nanoseconds + s.nanoseconds < nanosecondsPerSecond then
    if hseconds : t.seconds + s.seconds < 2 ^ 63 then
      some ⟨t.seconds + s.seconds, t.nanoseconds + s.nanoseconds,
        by have := t.le_seconds; omega, hseconds, hnanoseconds⟩
    else none
  else
    if hseconds : t.seconds + s.seconds + 1 < 2 ^ 63 then
      some ⟨t.seconds + s.seconds + 1, t.nanoseconds + s.nanoseconds - nanosecondsPerSecond,
        by have := t.le_seconds; omega, hseconds,
        by have := t.nanoseconds_lt; have := s.nanoseconds_lt; omega⟩
    else none

theorem position_of_add? {t u : Instant} {s : Span} (h : t.add? s = some u) :
    u.position = t.position + s.length := by
  unfold add? at h
  split at h <;> split at h <;> cases h
  all_goals
    have hsecond : nanosecondsPerSecond = 1000000000 := rfl
    simp only [position, Span.length, hsecond]
    omega

theorem add?_eq_none_iff {t : Instant} {s : Span} :
    t.add? s = none ↔ endOfTime ≤ t.position + s.length := by
  have ht := t.nanoseconds_lt
  have hs := s.nanoseconds_lt
  rw [endOfTime_eq]
  unfold add? position Span.length nanosecondsPerSecond at *
  split <;> split <;> simp only [reduceCtorEq, false_iff, true_iff] <;> omega

/-- The end of a sleep is the instant a span after its beginning. -/
theorem deadline?_eq {t : Instant} {now : Nat} (ht : t.position = now) (s : Span) :
    deadline? now s.length = (t.add? s).map fun u => u.position.toNat := by
  have hnone := add?_eq_none_iff (t := t) (s := s)
  rw [ht] at hnone
  cases hu : t.add? s with
  | none =>
    have hlate := hnone.mp hu
    rw [deadline?, if_neg (by omega)]
    rfl
  | some u =>
    have hearly : ¬ (endOfTime : Int) ≤ now + s.length := fun h => by
      rw [hnone.mpr h] at hu
      cases hu
    rw [deadline?, if_pos (by omega), Option.map_some, position_of_add? hu, ht]
    congr 1

theorem length_rest {t u : Instant} {now began : Nat} (ht : t.position = now)
    (hu : u.position = began) (s : Span) :
    (s.minus (t.since u)).length = s.length - (now - began) := by
  rw [Span.length_minus, length_since, ht, hu]
  omega

end Instant
end PacedJobs
