import PacedJobs.Decimal.Double

/-!
# The fewest digits that read back

The reals that round to a magnitude form an interval, its ends included exactly when the
significand is even. For one digit, two digits and so on the two neighbours of the value on that
decimal grid are tested against the interval. The first grid with a hit wins, of two hits the
nearer, and a tie goes to the even one.
-/

namespace PacedJobs

/-- The number `0.d₁d₂… * 10 ^ point`, its digits given as a natural without trailing zeros. -/
structure Shortest where
  digits : Nat
  point : Int
deriving DecidableEq, Repr

namespace Shortest

def compareScaled (a : Nat) (i : Int) (n : Nat) (j : Int) : Ordering :=
  compare (a * Nat.pow 10 i.toNat * Nat.pow 2 (-j).toNat)
    (n * Nat.pow 2 j.toNat * Nat.pow 10 (-i).toNat)

/-- The gap below a power of two is half the gap above it. -/
def narrowBelow (b : Magnitude) : Bool :=
  b.val % Nat.pow 2 52 == 0 && 2 * Nat.pow 2 52 ≤ b.val

/-- Whether `digits * 10 ^ exponent` lies among the reals that round to the magnitude. -/
def readsBack (b : Magnitude) (digits : Nat) (exponent : Int) : Bool :=
  let low := 4 * b.significand - (if narrowBelow b then 1 else 2)
  let high := 4 * b.significand + 2
  let closed := b.significand % 2 == 0
  let atLow := compareScaled digits exponent low (b.scale - 2)
  let atHigh := compareScaled digits exponent high (b.scale - 2)
  (atLow == .gt || (closed && atLow == .eq)) && (atHigh == .lt || (closed && atHigh == .eq))

/-- The least `k` with value below `10 ^ k`, for a positive value. -/
def pointOf (b : Magnitude) : Int :=
  let width (n : Nat) : Int := (Nat.toDigits 10 n).length
  let k := width b.ratio.1 - width b.ratio.2
  if compareScaled 1 k b.significand b.scale == .gt then k else k + 1

/-- The digits of the value cut off at a multiple of `10 ^ exponent`. -/
def cutAt (b : Magnitude) (exponent : Int) : Nat :=
  (b.ratio.1 * Nat.pow 10 (-exponent).toNat) / (b.ratio.2 * Nat.pow 10 exponent.toNat)

/-- The neighbour of the value on the grid of `10 ^ exponent` that reads back, if one does. -/
def onGrid? (b : Magnitude) (exponent : Int) : Option Nat :=
  let t := cutAt b exponent
  match readsBack b t exponent, readsBack b (t + 1) exponent with
  | true, true =>
    match compareScaled (2 * t + 1) exponent (2 * b.significand) b.scale with
    | .gt => some t
    | .lt => some (t + 1)
    | .eq => some (if t % 2 = 0 then t else t + 1)
  | true, false => some t
  | false, true => some (t + 1)
  | false, false => none

/-- Moves zeros at the end of the digits into the exponent. Seventeen steps are enough for all
that is selected here. -/
def stripZeros : Nat → Nat → Nat
  | 0, n => n
  | k + 1, n => if n % 10 = 0 && n != 0 then stripZeros k (n / 10) else n

def ofMagnitude (b : Magnitude) : Shortest :=
  let point := pointOf b
  match (List.range' 1 17).findSome? fun (count : Nat) =>
      (onGrid? b (point - (count : Int))).map fun digits => (count, digits) with
  | some (count, digits) =>
    let length := (Nat.toDigits 10 digits).length
    ⟨stripZeros 17 digits, point + (length : Int) - (count : Int)⟩
  | none => ⟨cutAt b (point - 17), point⟩

end Shortest
end PacedJobs
