import Mathlib.Algebra.Order.Field.Basic
import Mathlib.Data.Rat.Lemmas
import Mathlib.Order.Monotone.Basic
import PacedJobs.Proofs.Decimal.Range

/-!
# The nearest double

Patterns stand for rational numbers, and their order is that of the numbers. Rounding takes a
number to the nearest pattern, as if there were no largest one, and a tie goes to the even one. The
result is finite if the number is less than half a step above the largest finite one.
-/

namespace PacedJobs
namespace Magnitude

/-- The value of a pattern. The patterns run on beyond the largest finite one. -/
def valueOf (b : ℕ) : ℚ :=
  if b < Nat.pow 2 52 then b * 2 ^ (-1074 : ℤ)
  else (Nat.pow 2 52 + b % Nat.pow 2 52 : ℕ) * 2 ^ ((b / Nat.pow 2 52 : ℕ) - 1075 : ℤ)

/-- The pattern is nearest to the number. -/
structure Nearest (x : ℚ) (b : ℕ) : Prop where
  le : ∀ b', |x - valueOf b| ≤ |x - valueOf b'|
  even : ∀ b', b' ≠ b → |x - valueOf b| = |x - valueOf b'| → b % 2 = 0

theorem rational_eq_valueOf (m : Magnitude) : m.rational = valueOf m := by
  unfold rational significand scale valueOf
  split_ifs <;> rfl

/-! ### Steps between patterns -/

section

variable {k r b : ℕ}

theorem valueOf_add (hr : r ≤ Nat.pow 2 53) (hk : k = 0 ∨ Nat.pow 2 52 ≤ r) :
    valueOf (k * Nat.pow 2 52 + r) = r * 2 ^ (k - 1074 : ℤ) := by
  have hbits : Nat.pow 2 52 = 4503599627370496 := rfl
  have hbits' : Nat.pow 2 53 = 9007199254740992 := rfl
  rw [hbits] at hk ⊢
  rw [hbits'] at hr
  unfold valueOf
  rw [hbits]
  rcases Nat.lt_or_ge r 4503599627370496 with hlt | hge
  · obtain rfl : k = 0 := hk.resolve_right (by omega)
    rw [if_pos (by omega)]
    simp
  rw [if_neg (by omega)]
  rcases Nat.lt_or_ge r 9007199254740992 with hlt | hge'
  · have hdiv : (k * 4503599627370496 + r) / 4503599627370496 = k + 1 := by omega
    have hmod : 4503599627370496 + (k * 4503599627370496 + r) % 4503599627370496 = r := by omega
    rw [hdiv, hmod]
    congr 2
    omega
  · have hdiv : (k * 4503599627370496 + r) / 4503599627370496 = k + 2 := by omega
    have hmod : (k * 4503599627370496 + r) % 4503599627370496 = 0 := by omega
    obtain rfl : r = 9007199254740992 := by omega
    have hexponent : ((k + 2 : ℕ) - 1075 : ℤ) = (k - 1074 : ℤ) + 1 := by omega
    rw [hdiv, hmod, hexponent, zpow_add_one₀ two_ne_zero]
    push_cast
    ring

theorem exists_steps (b : ℕ) : ∃ k r, b = k * Nat.pow 2 52 + r ∧ r < Nat.pow 2 53 ∧
    (k = 0 ∨ Nat.pow 2 52 ≤ r) := by
  have hbits : Nat.pow 2 52 = 4503599627370496 := rfl
  have hbits' : Nat.pow 2 53 = 9007199254740992 := rfl
  rw [hbits, hbits']
  rcases Nat.lt_or_ge b 4503599627370496 with hlt | hge
  · exact ⟨0, b, by omega, by omega, .inl rfl⟩
  · exact ⟨b / 4503599627370496 - 1, 4503599627370496 + b % 4503599627370496, by omega, by omega,
      .inr (by omega)⟩

theorem strictMono_valueOf : StrictMono valueOf := by
  refine strictMono_nat_of_lt_succ fun b => ?_
  obtain ⟨k, r, rfl, hr, hk⟩ := exists_steps b
  rw [add_assoc, valueOf_add hr.le hk, valueOf_add hr (hk.imp_right fun h => h.trans r.le_succ)]
  push_cast
  gcongr
  exact lt_add_one _

/-- Every other pattern is a step away, or it is on the other side of a power of two. -/
theorem valueOf_of_ne (hr : r ≤ Nat.pow 2 53) (hk : k = 0 ∨ Nat.pow 2 52 ≤ r)
    (hb : b ≠ k * Nat.pow 2 52 + r) :
    (r + 1 : ℚ) * 2 ^ (k - 1074 : ℤ) ≤ valueOf b ∨
      valueOf b ≤ (r - 1 : ℚ) * 2 ^ (k - 1074 : ℤ) ∨
      r = Nat.pow 2 52 ∧ k ≠ 0 ∧ valueOf b < r * 2 ^ (k - 1074 : ℤ) := by
  have hvalue := valueOf_add hr hk
  rcases hb.lt_or_gt with hlt | hgt
  · right
    by_cases hpower : r = Nat.pow 2 52 ∧ k ≠ 0
    · exact .inr ⟨hpower.1, hpower.2, hvalue ▸ strictMono_valueOf hlt⟩
    · left
      have hpos : 0 < r := by
        rcases hk with rfl | hk
        · omega
        · exact (Nat.pow_pos (by decide)).trans_le hk
      obtain ⟨r, rfl⟩ := Nat.exists_eq_add_one_of_ne_zero hpos.ne'
      have hbelow : valueOf (k * Nat.pow 2 52 + r) = r * 2 ^ (k - 1074 : ℤ) :=
        valueOf_add (by omega) (by omega)
      push_cast
      rw [add_sub_cancel_right, ← hbelow]
      exact strictMono_valueOf.monotone (by omega)
  · left
    have habove : (r + 1 : ℚ) * 2 ^ (k - 1074 : ℤ) ≤ valueOf (k * Nat.pow 2 52 + (r + 1)) := by
      rcases hr.lt_or_eq with hr | rfl
      · rw [valueOf_add hr (by omega)]
        push_cast
        exact le_rfl
      · have hpower : k * Nat.pow 2 52 + (Nat.pow 2 53 + 1) =
            (k + 1) * Nat.pow 2 52 + (Nat.pow 2 52 + 1) := by norm_num; ring
        have hexponent : ((k + 1 : ℕ) - 1074 : ℤ) = (k - 1074 : ℤ) + 1 := by omega
        rw [hpower, valueOf_add (by norm_num) (.inr (by omega)), hexponent,
          zpow_add_one₀ two_ne_zero]
        have hpos : (0 : ℚ) < 2 ^ (k - 1074 : ℤ) := by positivity
        norm_num
        linarith
    exact habove.trans (strictMono_valueOf.monotone (by omega))

/-- A number within half a step of a pattern is nearest to it, if a tie finds an even number of
steps. -/
theorem nearest_of_steps {x : ℚ} (hr : r ≤ Nat.pow 2 53)
    (hk : k = 0 ∨ Nat.pow 2 52 ≤ r ∧ (Nat.pow 2 52 : ℕ) * 2 ^ (k - 1074 : ℤ) ≤ x)
    (hhalf : 2 * |x - r * 2 ^ (k - 1074 : ℤ)| ≤ 2 ^ (k - 1074 : ℤ))
    (heven : 2 * |x - r * 2 ^ (k - 1074 : ℤ)| = 2 ^ (k - 1074 : ℤ) → r % 2 = 0) :
    Nearest x (k * Nat.pow 2 52 + r) := by
  have hk' : k = 0 ∨ Nat.pow 2 52 ≤ r := hk.imp_right And.left
  have hvalue := valueOf_add hr hk'
  have hfar : ∀ b', b' ≠ k * Nat.pow 2 52 + r →
      |x - r * 2 ^ (k - 1074 : ℤ)| ≤ |x - valueOf b'| ∧
        (|x - r * 2 ^ (k - 1074 : ℤ)| = |x - valueOf b'| →
          2 * |x - r * 2 ^ (k - 1074 : ℤ)| = 2 ^ (k - 1074 : ℤ)) := by
    intro b' hb'
    have hleft := le_abs_self (x - valueOf b')
    have hright := neg_le_abs (x - valueOf b')
    rcases valueOf_of_ne hr hk' hb' with habove | hbelow | ⟨rfl, hne, hbelow⟩
    · rcases abs_cases (x - r * 2 ^ (k - 1074 : ℤ)) with ⟨heq, -⟩ | ⟨heq, -⟩
      all_goals
        rw [heq] at hhalf ⊢
        exact ⟨by linarith, fun htie => by linarith⟩
    · rcases abs_cases (x - r * 2 ^ (k - 1074 : ℤ)) with ⟨heq, -⟩ | ⟨heq, -⟩
      all_goals
        rw [heq] at hhalf ⊢
        exact ⟨by linarith, fun htie => by linarith⟩
    · have hx := (hk.resolve_left hne).2
      rw [abs_of_nonneg (by linarith)]
      exact ⟨by linarith, fun htie => by linarith⟩
  constructor
  · intro b'
    rw [hvalue]
    rcases eq_or_ne b' (k * Nat.pow 2 52 + r) with rfl | hb'
    · rw [hvalue]
    · exact (hfar b' hb').1
  · intro b' hb' htie
    rw [hvalue] at htie
    have hbits : Nat.pow 2 52 = 4503599627370496 := rfl
    have hreven := heven ((hfar b' hb').2 htie)
    rw [hbits]
    omega

end

/-! ### Rounding -/

section

variable {den : ℕ}

theorem roundQuotient_half (num : ℕ) (hden : den ≠ 0) :
    2 * |(num : ℚ) / den - roundQuotient num den| ≤ 1 ∧
      (2 * |(num : ℚ) / den - roundQuotient num den| = 1 → roundQuotient num den % 2 = 0) := by
  have hpos : (0 : ℚ) < den := by positivity
  have hlt : num % den < den := Nat.mod_lt _ (Nat.pos_of_ne_zero hden)
  have hquotient : (num : ℚ) / den = (num / den : ℕ) + (num % den : ℕ) / (den : ℚ) := by
    have hnum : (num : ℚ) = den * (num / den : ℕ) + (num % den : ℕ) := by
      exact_mod_cast (Nat.div_add_mod num den).symm
    field_simp
    linarith
  set part : ℚ := (num % den : ℕ) / (den : ℚ) with hpart
  have hpart_nonneg : 0 ≤ part := by positivity
  have hpart_lt : part < 1 := (div_lt_one hpos).mpr (by exact_mod_cast hlt)
  have hdown : |(num : ℚ) / den - (num / den : ℕ)| = part := by
    rw [hquotient, add_sub_cancel_left, abs_of_nonneg hpart_nonneg]
  have hup : |(num : ℚ) / den - (num / den + 1 : ℕ)| = 1 - part := by
    rw [hquotient, abs_of_nonpos (by push_cast; linarith)]
    push_cast
    ring
  have htwice : 2 * part = (2 * (num % den) : ℕ) / (den : ℚ) := by
    rw [hpart]
    push_cast
    ring
  unfold roundQuotient
  dsimp only
  split
  next hless =>
    have hless : 2 * part < 1 := by
      rw [htwice, div_lt_one hpos]
      exact_mod_cast Nat.compare_eq_lt.mp hless
    rw [hdown]
    exact ⟨hless.le, fun heq => absurd heq hless.ne⟩
  next hmore =>
    have hmore : 1 < 2 * part := by
      rw [htwice, one_lt_div hpos]
      exact_mod_cast Nat.compare_eq_gt.mp hmore
    rw [hup]
    exact ⟨by linarith, fun heq => by linarith⟩
  next hequal =>
    have hequal : 2 * part = 1 := by
      rw [htwice, Nat.compare_eq_eq.mp hequal, div_self hpos.ne']
    split
    next heven =>
      rw [hdown]
      exact ⟨hequal.le, fun _ => heven⟩
    next hodd =>
      rw [hup]
      exact ⟨by linarith, fun _ => by omega⟩

theorem scaled_div (num den : ℕ) (z : ℤ) :
    (num : ℚ) / den = ((num * Nat.pow 2 (-z).toNat : ℕ) : ℚ) / (den * Nat.pow 2 z.toNat : ℕ) *
      2 ^ z := by
  have hpos : (0 : ℚ) < 2 ^ (-z).toNat := by positivity
  have hstep : (0 : ℚ) < 2 ^ z := by positivity
  simp only [Nat.pow_eq, Nat.cast_mul, Nat.cast_pow, Nat.cast_ofNat]
  rw [← two_zpow_mul z]
  field_simp

/-- Rounding takes so many steps of a size that is small for the number, or the least of all. -/
theorem nearestPattern_steps (num : ℕ) (hden : den ≠ 0) : ∃ k r : ℕ,
    nearestPattern num den = k * Nat.pow 2 52 + r ∧ r ≤ Nat.pow 2 53 ∧
      (k = 0 ∨ Nat.pow 2 52 ≤ r ∧ (Nat.pow 2 52 : ℕ) * 2 ^ (k - 1074 : ℤ) ≤ (num : ℚ) / den) ∧
      2 * |(num : ℚ) / den - r * 2 ^ (k - 1074 : ℤ)| ≤ 2 ^ (k - 1074 : ℤ) ∧
      (2 * |(num : ℚ) / den - r * 2 ^ (k - 1074 : ℤ)| = 2 ^ (k - 1074 : ℤ) → r % 2 = 0) := by
  unfold nearestPattern
  split
  next hzero =>
    subst hzero
    exact ⟨0, 0, rfl, Nat.zero_le _, .inl rfl, by simp, fun _ => rfl⟩
  next hnum =>
    obtain ⟨hbelow, habove⟩ := scaleOf_spec hnum hden
    have hleast : -1074 ≤ scaleOf num den := le_max_left _ _
    generalize scaleOf num den = q at hbelow habove hleast ⊢
    obtain ⟨k, rfl⟩ : ∃ k : ℕ, q = k - 1074 := ⟨(q + 1074).toNat, by omega⟩
    have hstep : (0 : ℚ) < 2 ^ (k - 1074 : ℤ) := by positivity
    have hscaled : den * Nat.pow 2 (k - 1074 : ℤ).toNat ≠ 0 :=
      mul_ne_zero hden (pow_ne_zero _ two_ne_zero)
    dsimp only
    refine ⟨k, _, by rw [sub_add_cancel, Int.toNat_natCast], ?_⟩
    have hround := roundQuotient_le (scaled_lt_iff.mpr hbelow)
    have hdiv := scaled_div num den (k - 1074)
    obtain ⟨hhalf, heven⟩ := roundQuotient_half (num * Nat.pow 2 (-(k - 1074 : ℤ)).toNat) hscaled
    have hdistance : ∀ y n : ℚ, 2 * |y * 2 ^ (k - 1074 : ℤ) - n * 2 ^ (k - 1074 : ℤ)| =
        2 ^ (k - 1074 : ℤ) * (2 * |y - n|) := fun y n => by
      rw [← sub_mul, abs_mul, abs_of_pos hstep]
      ring
    rw [hdiv, hdistance]
    refine ⟨hround, ?_, mul_le_of_le_one_right hstep.le hhalf, fun htie => ?_⟩
    · refine habove.imp (fun h => by omega) fun habove => ?_
      have hmore : Nat.pow 2 52 ≤ roundQuotient (num * Nat.pow 2 (-(k - 1074 : ℤ)).toNat)
          (den * Nat.pow 2 (k - 1074 : ℤ).toNat) :=
        le_roundQuotient hscaled (not_lt.mp (scaled_lt_iff.not.mpr (not_lt.mpr habove)))
      refine ⟨hmore, ?_⟩
      rw [← hdiv, le_div_iff₀ (by positivity)]
      rw [zpow_add₀ two_ne_zero] at habove
      calc ((Nat.pow 2 52 : ℕ) : ℚ) * 2 ^ (k - 1074 : ℤ) * den
          = den * (2 ^ (k - 1074 : ℤ) * 2 ^ (52 : ℤ)) := by norm_num; ring
        _ ≤ num := habove
    · exact heven (by simpa using (mul_eq_left₀ hstep.ne').mp htie)

theorem nearest_nearestPattern (num : ℕ) (hden : den ≠ 0) :
    Nearest ((num : ℚ) / den) (nearestPattern num den) := by
  obtain ⟨k, r, heq, hr, hk, hhalf, heven⟩ := nearestPattern_steps num hden
  exact heq ▸ nearest_of_steps hr hk hhalf heven

end

section

variable {x : ℚ} {b b' : ℕ}

theorem exists_div (hx : 0 ≤ x) : ∃ num den : ℕ, den ≠ 0 ∧ x = num / den := by
  refine ⟨x.num.toNat, x.den, x.den_nz, ?_⟩
  have hnum : ((x.num.toNat : ℕ) : ℚ) = x.num := by
    exact_mod_cast Int.toNat_of_nonneg (Rat.num_nonneg.mpr hx)
  rw [hnum, Rat.num_div_den]

theorem exists_nearest (hx : 0 ≤ x) : ∃ b, Nearest x b := by
  obtain ⟨num, den, hden, rfl⟩ := exists_div hx
  exact ⟨_, nearest_nearestPattern num hden⟩

/-- Between two even patterns there is another one, which would be nearer. -/
theorem Nearest.unique (h : Nearest x b) (h' : Nearest x b') : b = b' := by
  by_contra hne
  wlog hlt : b < b' generalizing b b'
  · exact this h' h (Ne.symm hne) (by omega)
  have htie : |x - valueOf b| = |x - valueOf b'| := le_antisymm (h.le b') (h'.le b)
  have heven := h.even b' (Ne.symm hne) htie
  have heven' := h'.even b hne htie.symm
  have hleft := strictMono_valueOf (Nat.lt_add_one b)
  have hright := strictMono_valueOf (show b + 1 < b' by omega)
  have hnear := h.le (b + 1)
  rcases abs_eq_abs.mp htie with heq | heq
  · linarith
  · rw [show x - valueOf b = (valueOf b' - valueOf b) / 2 by linarith,
      abs_of_pos (by linarith)] at hnear
    rcases abs_cases (x - valueOf (b + 1)) with ⟨habs, -⟩ | ⟨habs, -⟩ <;> linarith

/-- What rounding changes is small for the number, or it is half of the least step of all. -/
theorem Nearest.abs_sub_le (h : Nearest x b) (hx : 0 ≤ x) :
    |valueOf b - x| ≤ x * 2 ^ (-53 : ℤ) ∨
      x < 2 ^ (-1022 : ℤ) ∧ |valueOf b - x| ≤ 2 ^ (-1075 : ℤ) := by
  obtain ⟨num, den, hden, rfl⟩ := exists_div hx
  obtain ⟨k, r, heq, hr, hk, hhalf, heven⟩ := nearestPattern_steps num hden
  cases h.unique (nearest_nearestPattern num hden)
  rw [heq, valueOf_add hr (hk.imp_right And.left), abs_sub_comm]
  have hhalves : (2 : ℚ) ^ (-1074 : ℤ) = 2 ^ (-1075 : ℤ) * 2 := zpow_add_one₀ two_ne_zero (-1075)
  have hnormal : (2 : ℚ) ^ (-1074 : ℤ) = 2 ^ (-1022 : ℤ) * 2 ^ (-52 : ℤ) :=
    zpow_add₀ two_ne_zero (-1022) (-52)
  have hsteps : (2 : ℚ) ^ (-52 : ℤ) = 2 ^ (-53 : ℤ) * 2 := zpow_add_one₀ two_ne_zero (-53)
  have hinverse : ((Nat.pow 2 52 : ℕ) : ℚ) * 2 ^ (-52 : ℤ) = 1 := by norm_num
  have hpos : (0 : ℚ) < 2 ^ (-52 : ℤ) := by positivity
  rcases hk with rfl | ⟨-, hk⟩
  · rw [Nat.cast_zero, zero_sub] at hhalf ⊢
    rcases lt_or_ge ((num : ℚ) / den) (2 ^ (-1022 : ℤ)) with hless | hmore
    · exact .inr ⟨hless, by linarith⟩
    · left
      have hscaled := mul_le_mul_of_nonneg_right hmore hpos.le
      rw [← hnormal, hsteps] at hscaled
      linarith
  · left
    have hscaled := mul_le_mul_of_nonneg_right hk hpos.le
    rw [mul_right_comm, hinverse, one_mul, hsteps] at hscaled
    linarith

theorem valueOf_overflow : valueOf (2047 * Nat.pow 2 52) = 2 ^ 1024 := by
  have h := valueOf_add (k := 2046) (r := Nat.pow 2 52) (by decide) (.inr le_rfl)
  rw [show 2047 * Nat.pow 2 52 = 2046 * Nat.pow 2 52 + Nat.pow 2 52 by decide, h,
    show ((2046 : ℕ) - 1074 : ℤ) = (972 : ℕ) by decide, zpow_natCast, Nat.pow_eq, Nat.cast_pow,
    Nat.cast_ofNat, ← pow_add]

theorem valueOf_largest : valueOf (2047 * Nat.pow 2 52 - 1) = 2 ^ 1024 - 2 ^ 971 := by
  have h := valueOf_add (k := 2045) (r := Nat.pow 2 53 - 1) (by decide) (.inr (by decide))
  rw [show 2047 * Nat.pow 2 52 - 1 = 2045 * Nat.pow 2 52 + (Nat.pow 2 53 - 1) by decide, h,
    show ((2045 : ℕ) - 1074 : ℤ) = (971 : ℕ) by decide, zpow_natCast, Nat.pow_eq,
    Nat.cast_sub (by decide), Nat.cast_pow, Nat.cast_ofNat, Nat.cast_one, sub_mul, ← pow_add,
    one_mul]

/-- What is nearest to a number is finite exactly if the number is less than half a step above the
largest finite double. -/
theorem Nearest.finite_iff (h : Nearest x b) :
    b < 2047 * Nat.pow 2 52 ↔ x < 2 ^ 1024 - 2 ^ 970 := by
  have hpower : (2 : ℚ) ^ 971 = 2 * 2 ^ 970 := pow_succ' 2 970
  have hpos : (0 : ℚ) < 2 ^ 970 := by positivity
  have hover := valueOf_overflow
  have hlargest := valueOf_largest
  generalize (2 : ℚ) ^ 1024 = top at hover hlargest ⊢
  generalize (2 : ℚ) ^ 970 = half at hpower hpos ⊢
  rw [hpower] at hlargest
  clear hpower
  constructor
  · intro hfinite
    by_contra hge
    have hbelow : valueOf b ≤ top - 2 * half := hlargest ▸ strictMono_valueOf.monotone (by omega)
    have hnear := (le_abs_self _).trans (h.le (2047 * Nat.pow 2 52))
    rw [hover] at hnear
    rcases abs_cases (x - top) with ⟨habs, -⟩ | ⟨habs, -⟩ <;> rw [habs] at hnear
    · linarith
    · have hsame : valueOf b = valueOf (2047 * Nat.pow 2 52 - 1) := by linarith
      have htie : |x - valueOf b| = |x - valueOf (2047 * Nat.pow 2 52)| := by
        rw [hover, habs, abs_of_nonneg (by linarith)]
        linarith
      have heven := h.even _ (by omega) htie
      rw [strictMono_valueOf.injective hsame] at heven
      exact absurd heven (by decide)
  · intro hless
    by_contra hinfinite
    have habove : top ≤ valueOf b := hover ▸ strictMono_valueOf.monotone (by omega)
    have hnear := (neg_le_abs _).trans (h.le (2047 * Nat.pow 2 52 - 1))
    rw [hlargest] at hnear
    rcases abs_cases (x - (top - 2 * half)) with ⟨habs, -⟩ | ⟨habs, -⟩ <;>
      rw [habs] at hnear <;> linarith

theorem nearest?_eq_some_iff {num den : ℕ} {m : Magnitude} (hden : den ≠ 0) :
    nearest? num den = some m ↔ Nearest ((num : ℚ) / den) m := by
  have h := nearest_nearestPattern num hden
  unfold nearest?
  dsimp only
  constructor
  · intro hm
    split_ifs at hm
    cases hm
    exact h
  · intro hm
    have heq := hm.unique h
    rw [dif_pos (heq ▸ m.isLt)]
    exact congrArg some (Fin.ext heq.symm)

end

end Magnitude
end PacedJobs
