import Mathlib.Tactic.Linarith
import PacedJobs.Decimal.Shortest

/-!
# The digits of a double are not zero

No grid shows a zero as the digits of a magnitude other than zero, since zero does not read back as
that. Cutting off at the seventeenth digit leaves something, since the first of them is in it.
-/

namespace PacedJobs
namespace Shortest

variable {b : Magnitude}

theorem significand_pos (h : b ≠ Magnitude.zero) : 0 < b.significand := by
  unfold Magnitude.significand
  split_ifs
  · exact Nat.pos_of_ne_zero fun hzero => h (Fin.ext hzero)
  · exact Nat.add_pos_left (by decide) _

theorem readsBack_zero (h : b ≠ Magnitude.zero) (e : Int) : readsBack b 0 e = false := by
  have hpos := significand_pos h
  have hlow : 0 < 4 * b.significand - (if narrowBelow b then 1 else 2) := by split_ifs <;> omega
  have hless : ∀ {n : Nat} (j : Int), 0 < n → compareScaled 0 e n j = .lt := fun {n} j hn => by
    simp only [compareScaled, Nat.zero_mul, Nat.pow_eq, Nat.compare_eq_lt]
    positivity
  simp [readsBack, hless _ hlow]

theorem onGrid?_ne_zero (h : b ≠ Magnitude.zero) {e : Int} {n : Nat} (hn : onGrid? b e = some n) :
    n ≠ 0 := by
  have hcut : readsBack b (cutAt b e) e = true → cutAt b e ≠ 0 := fun hback hzero => by
    rw [hzero, readsBack_zero h] at hback
    cases hback
  unfold onGrid? at hn
  dsimp only at hn
  split at hn
  next hback _ =>
    have hcut := hcut hback
    split at hn
    · cases hn
      exact hcut
    · cases hn
      exact Nat.succ_ne_zero _
    · cases hn
      split_ifs
      · exact hcut
      · exact Nat.succ_ne_zero _
  next hback _ =>
    cases hn
    exact hcut hback
  · cases hn
    exact Nat.succ_ne_zero _
  · cases hn

theorem stripZeros_ne_zero {k n : Nat} (h : n ≠ 0) : stripZeros k n ≠ 0 := by
  induction k generalizing n with
  | zero => exact h
  | succ k ih =>
    unfold stripZeros
    split_ifs with hstrip
    · simp only [Bool.and_eq_true, decide_eq_true_eq] at hstrip
      exact ih (by omega)
    · exact h

theorem lt_ten_pow_length (n : Nat) : n < 10 ^ (Nat.toDigits 10 n).length :=
  (Nat.length_toDigits_le_iff (by decide) Nat.length_toDigits_pos).mp le_rfl

theorem ten_pow_le {n k : Nat} (hn : n ≠ 0) (hk : k < (Nat.toDigits 10 n).length) : 10 ^ k ≤ n := by
  rcases Nat.eq_zero_or_pos k with rfl | hpos
  · exact Nat.pos_of_ne_zero hn
  · exact Nat.not_lt.mp ((Nat.length_toDigits_le_iff (by decide) hpos).not.mp (by omega))

theorem cutAt_ne_zero (h : b ≠ Magnitude.zero) : cutAt b (pointOf b - 17) ≠ 0 := by
  have hnum : b.ratio.1 ≠ 0 :=
    mul_ne_zero (significand_pos h).ne' (pow_ne_zero _ (by decide))
  have hden : 0 < b.ratio.2 * Nat.pow 10 (pointOf b - 17).toNat := by
    refine Nat.mul_pos (Nat.pow_pos (by decide)) (Nat.pow_pos (by decide))
  have hpoint : pointOf b ≤ (Nat.toDigits 10 b.ratio.1).length -
      (Nat.toDigits 10 b.ratio.2).length + 1 := by
    unfold pointOf
    dsimp only
    split_ifs <;> omega
  have hlength : 0 < (Nat.toDigits 10 b.ratio.1).length := Nat.length_toDigits_pos
  refine (Nat.div_pos ?_ hden).ne'
  calc b.ratio.2 * Nat.pow 10 (pointOf b - 17).toNat
      ≤ 10 ^ (Nat.toDigits 10 b.ratio.2).length * 10 ^ (pointOf b - 17).toNat :=
        Nat.mul_le_mul_right _ (lt_ten_pow_length _).le
    _ = 10 ^ ((Nat.toDigits 10 b.ratio.2).length + (pointOf b - 17).toNat) := (Nat.pow_add ..).symm
    _ ≤ 10 ^ ((Nat.toDigits 10 b.ratio.1).length - 1 + (-(pointOf b - 17)).toNat) :=
        Nat.pow_le_pow_right (by decide) (by omega)
    _ = 10 ^ ((Nat.toDigits 10 b.ratio.1).length - 1) * 10 ^ (-(pointOf b - 17)).toNat :=
        Nat.pow_add ..
    _ ≤ b.ratio.1 * Nat.pow 10 (-(pointOf b - 17)).toNat :=
        Nat.mul_le_mul_right _ (ten_pow_le hnum (by omega))

theorem digits_ne_zero (h : b ≠ Magnitude.zero) : (ofMagnitude b).digits ≠ 0 := by
  unfold ofMagnitude
  dsimp only
  split
  next count digits hfound =>
    obtain ⟨count', -, hgrid⟩ := List.exists_of_findSome?_eq_some hfound
    obtain ⟨n, hn, heq⟩ := Option.map_eq_some_iff.mp hgrid
    cases heq
    exact stripZeros_ne_zero (onGrid?_ne_zero h hn)
  · exact cutAt_ne_zero h

end Shortest
end PacedJobs
