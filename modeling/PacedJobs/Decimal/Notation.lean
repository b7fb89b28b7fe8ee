import PacedJobs.Decimal.Shortest

/-!
# How numbers are written

Integers are written in base ten. A double is written with its shortest digits, laid out by a
record of decisions.
-/

namespace PacedJobs

/-- The text of an integer: a minus sign if it is negative, no leading zeros. -/
def integerText (n : Int) : List Char :=
  if n < 0 then '-' :: Nat.toDigits 10 n.natAbs else Nat.toDigits 10 n.natAbs

/-- The layout of a double. With the value `0.d₁d₂… * 10 ^ point`, the plain forms are used while
`plainAbove < point ≤ plainUpTo`; a plain integer and a zero end in a point and a zero. The exponent
has a sign always and no leading zeros. -/
structure Layout where
  plainAbove : Int
  plainUpTo : Int

namespace Layout

def exponentText (e : Int) : List Char :=
  'e' :: (if e < 0 then '-' else '+') :: Nat.toDigits 10 e.natAbs

/-- Lays out digits with the point before the first of them moved `point` places to the right. -/
def place (l : Layout) (digits : List Char) (point : Int) : List Char :=
  let n : Int := digits.length
  if n ≤ point ∧ point ≤ l.plainUpTo then
    digits ++ List.replicate (point - n).toNat '0' ++ ['.', '0']
  else if 0 < point ∧ point ≤ l.plainUpTo then
    digits.take point.toNat ++ '.' :: digits.drop point.toNat
  else if l.plainAbove < point ∧ point ≤ 0 then
    '0' :: '.' :: List.replicate (-point).toNat '0' ++ digits
  else
    match digits with
    | [] => []
    | [d] => d :: exponentText (point - 1)
    | d :: ds => d :: '.' :: ds ++ exponentText (point - 1)

def write (l : Layout) (x : Double) : List Char :=
  let sign := if x.negative then ['-'] else []
  if x.magnitude = Magnitude.zero then sign ++ ['0', '.', '0']
  else
    let s := Shortest.ofMagnitude x.magnitude
    sign ++ l.place (Nat.toDigits 10 s.digits) s.point

end Layout

/-- Doubles in documents and in messages: plain from `0.00001` below `10 ^ 16`. -/
def Double.layout : Layout := ⟨-5, 16⟩

def Double.text (x : Double) : List Char :=
  Double.layout.write x

end PacedJobs
