/-!
# Binary numbers of 64 bits

A finite double is a sign and a magnitude. The magnitude is kept as its bit pattern without the
sign, so the order of magnitudes is the order of patterns. Rounding takes an exact quotient of
naturals to the nearest pattern, a tie going to the even one; the patterns run on across powers of
two, so a significand that is rounded up to the next power needs no case of its own.
-/

namespace PacedJobs

/-- The pattern of a finite magnitude: eleven bits of exponent above fifty-two of fraction, the
largest exponent excepted. -/
abbrev Magnitude := Fin (2047 * Nat.pow 2 52)

structure Double where
  negative : Bool
  magnitude : Magnitude
deriving DecidableEq, Repr

namespace Magnitude

def zero : Magnitude := ⟨0, by decide⟩

/-- A pattern stands for `significand * 2 ^ scale`. Patterns below `2 ^ 52` have no hidden bit. -/
def significand (b : Magnitude) : Nat :=
  if b.val < Nat.pow 2 52 then b.val else Nat.pow 2 52 + b.val % Nat.pow 2 52

def scale (b : Magnitude) : Int :=
  if b.val < Nat.pow 2 52 then -1074 else (b.val / Nat.pow 2 52 : Nat) - 1075

def ratio (b : Magnitude) : Nat × Nat :=
  (b.significand * Nat.pow 2 b.scale.toNat, Nat.pow 2 (-b.scale).toNat)

/-- The quotient rounded to an integer, a tie to the even one. -/
def roundQuotient (num den : Nat) : Nat :=
  let q := num / den
  match compare (2 * (num % den)) den with
  | .lt => q
  | .gt => q + 1
  | .eq => if q % 2 = 0 then q else q + 1

/-- The scale at which the quotient has fifty-three significant bits, or the least scale of all. -/
def scaleOf (num den : Nat) : Int :=
  let estimate : Int := (num.log2 : Int) - den.log2 - 53
  let fits := num * Nat.pow 2 (-(estimate + 53)).toNat < den * Nat.pow 2 (estimate + 53).toNat
  max (-1074) (if fits then estimate else estimate + 1)

/-- The pattern nearest to the quotient, which may be too large for a finite magnitude. -/
def nearestPattern (num den : Nat) : Nat :=
  if num = 0 then 0
  else
    let q := scaleOf num den
    (q + 1074).toNat * Nat.pow 2 52 +
      roundQuotient (num * Nat.pow 2 (-q).toNat) (den * Nat.pow 2 q.toNat)

/-- The magnitude nearest to the quotient, or `none` if that is infinite. -/
def nearest? (num den : Nat) : Option Magnitude :=
  let b := nearestPattern num den
  if h : b < 2047 * Nat.pow 2 52 then some ⟨b, h⟩ else none

def times? (a b : Magnitude) : Option Magnitude :=
  nearest? (a.ratio.1 * b.ratio.1) (a.ratio.2 * b.ratio.2)

def over? (a b : Magnitude) : Option Magnitude :=
  nearest? (a.ratio.1 * b.ratio.2) (a.ratio.2 * b.ratio.1)

def powerOfTen? (k : Nat) : Option Magnitude :=
  nearest? (Nat.pow 10 k) 1

/-- A decimal `digits * 10 ^ exponent`, rounded as its digits first and again with each power of
ten that scales it. No power above the 308th is a finite double, so smaller decimals are divided
twice, and a third time would leave nothing. -/
def ofDecimal? (digits : Nat) (exponent : Int) : Option Magnitude := do
  if digits = 0 then return zero
  let d ← nearest? digits 1
  let k := exponent.natAbs
  if 0 ≤ exponent then
    if k ≤ 308 then d.times? (← powerOfTen? k) else none
  else if k ≤ 308 then d.over? (← powerOfTen? k)
  else if k ≤ 616 then (← d.over? (← powerOfTen? 308)).over? (← powerOfTen? (k - 308))
  else return zero

example : ofDecimal? 1 308 = some ⟨0x7FE1CCF385EBC8A0, by decide⟩ := by decide +kernel
example : ofDecimal? 5 (-324) = some ⟨1, by decide⟩ := by decide +kernel
example : ofDecimal? 1 309 = none := by decide +kernel

end Magnitude

namespace Double

/-- Equality of values: the two zeros are equal. -/
def same (a b : Double) : Bool :=
  a.magnitude == b.magnitude && (a.negative == b.negative || a.magnitude == Magnitude.zero)

end Double
end PacedJobs
