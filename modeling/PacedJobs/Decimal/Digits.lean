/-!
# Decimal digits

A run of digits, its value, and the part of a run whose value still fits a limit.
-/

namespace PacedJobs
namespace Digits

def isDigit (c : Char) : Bool :=
  '0' ≤ c && c ≤ '9'

def digit (c : Char) : Nat :=
  (c.val - 48).toNat

def valueFrom (n : Nat) : List Char → Nat
  | [] => n
  | c :: ds => valueFrom (10 * n + digit c) ds

def value (ds : List Char) : Nat :=
  valueFrom 0 ds

theorem le_valueFrom (n : Nat) (ds : List Char) : n ≤ valueFrom n ds := by
  induction ds generalizing n with
  | nil => exact Nat.le_refl n
  | cons c ds ih => exact Nat.le_trans (by omega) (ih _)

/-- Takes in digits while the value stays below the limit. The rest starts with the first digit
that would reach it. -/
def absorb (limit n : Nat) : List Char → Nat × List Char
  | [] => (n, [])
  | c :: ds =>
    if 10 * n + digit c < limit then absorb limit (10 * n + digit c) ds else (n, c :: ds)

/-- Nothing is left over exactly when the whole value is below the limit. -/
theorem absorb_snd_eq_nil_iff {limit n : Nat} {ds : List Char} (h : n < limit) :
    (absorb limit n ds).2 = [] ↔ valueFrom n ds < limit := by
  induction ds generalizing n with
  | nil => simpa [absorb, valueFrom] using h
  | cons c ds ih =>
    by_cases hc : 10 * n + digit c < limit
    · simp [absorb, valueFrom, hc, ih hc]
    · have := le_valueFrom (10 * n + digit c) ds
      simp [absorb, valueFrom, hc]
      omega

theorem absorb_of_lt {limit n : Nat} {ds : List Char} (h : valueFrom n ds < limit) :
    absorb limit n ds = (valueFrom n ds, []) := by
  induction ds generalizing n with
  | nil => rfl
  | cons c ds ih =>
    have := le_valueFrom (10 * n + digit c) ds
    have hc : 10 * n + digit c < limit := by
      simp only [valueFrom] at h
      omega
    simp only [absorb, hc, if_true, valueFrom]
    exact ih h

end Digits
end PacedJobs
