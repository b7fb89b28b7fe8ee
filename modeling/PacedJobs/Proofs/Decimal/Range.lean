import Mathlib.Algebra.Order.Field.Power
import Mathlib.Data.Nat.Log
import Mathlib.Data.Rat.Cast.Order
import Mathlib.Tactic.FieldSimp
import Mathlib.Tactic.Linarith
import Mathlib.Tactic.NormNum
import Mathlib.Tactic.Positivity
import Mathlib.Tactic.Ring
import PacedJobs.Decimal.Double

/-!
# Decimals that are not too large

Rounding overflows at about `2 ^ 1024`. A decimal whose digits fit 64 bits is finite if its exponent
is not positive, and stays finite when its exponent is made smaller.
-/

namespace PacedJobs
namespace Magnitude

/-! ### Scales -/

section

variable {num den k : Nat} {z : Int}

theorem two_zpow_mul (z : Int) : (2 : ℚ) ^ z * 2 ^ (-z).toNat = 2 ^ z.toNat := by
  obtain ⟨n, rfl | rfl⟩ := z.eq_nat_or_neg
  · simp
  · simp

/-- A quotient is compared with a power of two by scaling the one side or the other. -/
theorem scaled_lt_iff : num * Nat.pow 2 (-z).toNat < den * Nat.pow 2 z.toNat * Nat.pow 2 k ↔
    (num : ℚ) < den * 2 ^ (z + k) := by
  have hpos : (0 : ℚ) < 2 ^ (-z).toNat := by positivity
  have hright : (den : ℚ) * 2 ^ z.toNat * 2 ^ k = den * 2 ^ (z + k) * 2 ^ (-z).toNat := by
    rw [zpow_add₀ two_ne_zero, zpow_natCast, ← two_zpow_mul z]
    ring
  rw [← mul_lt_mul_iff_left₀ hpos, ← hright]
  exact_mod_cast Iff.rfl

theorem two_zpow_log2_le (h : num ≠ 0) : (2 : ℚ) ^ (num.log2 : Int) ≤ num := by
  rw [zpow_natCast]
  exact_mod_cast Nat.log2_self_le h

theorem lt_two_zpow_log2 (num : Nat) : (num : ℚ) < 2 ^ ((num.log2 : Int) + 1) := by
  have h : num < 2 ^ (num.log2 + 1) := Nat.lt_log2_self
  exact_mod_cast h

/-- The scale leaves fifty-three bits of the quotient before the point, or fewer at the least
scale. -/
theorem scaleOf_spec (hnum : num ≠ 0) (hden : den ≠ 0) :
    (num : ℚ) < den * 2 ^ (scaleOf num den + 53) ∧
      (scaleOf num den = -1074 ∨ (den : ℚ) * 2 ^ (scaleOf num den + 52) ≤ num) := by
  have hpos : (0 : ℚ) < den := by positivity
  set e : Int := (num.log2 : Int) - den.log2 - 53 with he
  have hupper : (num : ℚ) < den * 2 ^ (e + 54) :=
    calc (num : ℚ) < 2 ^ ((num.log2 : Int) + 1) := lt_two_zpow_log2 num
      _ = 2 ^ (den.log2 : Int) * 2 ^ (e + 54) := by
        rw [← zpow_add₀ two_ne_zero]
        congr 1
        omega
      _ ≤ den * 2 ^ (e + 54) := by gcongr; exact two_zpow_log2_le hden
  have hlower : (den : ℚ) * 2 ^ (e + 52) ≤ num :=
    calc (den : ℚ) * 2 ^ (e + 52) ≤ 2 ^ ((den.log2 : Int) + 1) * 2 ^ (e + 52) := by
          gcongr
          exact (lt_two_zpow_log2 den).le
      _ = 2 ^ (num.log2 : Int) := by
        rw [← zpow_add₀ two_ne_zero]
        congr 1
        omega
      _ ≤ num := two_zpow_log2_le hnum
  have hfits : num * Nat.pow 2 (-(e + 53)).toNat < den * Nat.pow 2 (e + 53).toNat ↔
      (num : ℚ) < den * 2 ^ (e + 53) := by
    simpa using scaled_lt_iff (k := 0) (z := e + 53)
  obtain ⟨q, hq, hbelow, habove⟩ : ∃ q, scaleOf num den = max (-1074) q ∧
      (num : ℚ) < den * 2 ^ (q + 53) ∧ (den : ℚ) * 2 ^ (q + 52) ≤ num := by
    by_cases h : (num : ℚ) < den * 2 ^ (e + 53)
    · exact ⟨e, by simp only [scaleOf, ← he, if_pos (hfits.mpr h)], h, hlower⟩
    · refine ⟨e + 1, by simp only [scaleOf, ← he, if_neg (hfits.not.mpr h)], ?_, ?_⟩
      · rwa [add_assoc]
      · rw [add_assoc]
        exact not_lt.mp h
  rw [hq]
  constructor
  · refine hbelow.trans_le ?_
    gcongr
    · exact one_le_two
    · exact le_max_right _ _
  · rcases le_total q (-1074) with hle | hle
    · exact .inl (max_eq_left hle)
    · rw [max_eq_right hle]
      exact .inr habove

theorem roundQuotient_le {n : Nat} (h : num < den * n) : roundQuotient num den ≤ n := by
  have hq : num / den < n := Nat.div_lt_of_lt_mul h
  unfold roundQuotient
  dsimp only
  split
  · omega
  · omega
  · split <;> omega

theorem le_roundQuotient {n : Nat} (hden : den ≠ 0) (h : den * n ≤ num) :
    n ≤ roundQuotient num den := by
  rw [mul_comm] at h
  have hq : n ≤ num / den := (Nat.le_div_iff_mul_le (Nat.pos_of_ne_zero hden)).mpr h
  unfold roundQuotient
  dsimp only
  split
  · omega
  · omega
  · split <;> omega

theorem nearestPattern_le {j : Nat} (hden : den ≠ 0) (h : (num : ℚ) < den * 2 ^ (j : Int)) :
    nearestPattern num den ≤ (j + 1023) * Nat.pow 2 52 := by
  unfold nearestPattern
  split
  · exact Nat.zero_le _
  next hnum =>
    obtain ⟨hbelow, habove⟩ := scaleOf_spec hnum hden
    have hround := roundQuotient_le (scaled_lt_iff.mpr hbelow)
    have hpos : (0 : ℚ) < den := by positivity
    have hscale : (scaleOf num den + 1074).toNat ≤ j + 1021 := by
      rcases habove with hleast | habove
      · rw [hleast]
        exact Nat.zero_le _
      · have hlt := (zpow_lt_zpow_iff_right₀ one_lt_two).mp
          (lt_of_mul_lt_mul_left (habove.trans_lt h) hpos.le)
        omega
    calc (scaleOf num den + 1074).toNat * Nat.pow 2 52 + _
        ≤ (j + 1021) * Nat.pow 2 52 + Nat.pow 2 53 := by gcongr
      _ = (j + 1023) * Nat.pow 2 52 := by norm_num; ring

theorem le_nearestPattern {j : Nat} (hden : den ≠ 0) (h : (den : ℚ) * 2 ^ (j : Int) ≤ num) :
    (j + 1023) * Nat.pow 2 52 ≤ nearestPattern num den := by
  have hpos : (0 : ℚ) < den := by positivity
  have hnum : num ≠ 0 := by
    rintro rfl
    have : (0 : ℚ) < den * 2 ^ (j : Int) := by positivity
    exact absurd h (not_le.mpr (by simpa using this))
  obtain ⟨hbelow, habove⟩ := scaleOf_spec hnum hden
  have hlt := (zpow_lt_zpow_iff_right₀ one_lt_two).mp
    (lt_of_mul_lt_mul_left (h.trans_lt hbelow) hpos.le)
  have hscale : j + 1022 ≤ (scaleOf num den + 1074).toNat := by omega
  have habove := habove.resolve_left (by omega)
  have hround : Nat.pow 2 52 ≤ roundQuotient (num * Nat.pow 2 (-scaleOf num den).toNat)
      (den * Nat.pow 2 (scaleOf num den).toNat) := by
    refine le_roundQuotient (mul_ne_zero hden (pow_ne_zero _ two_ne_zero)) ?_
    exact not_lt.mp (scaled_lt_iff.not.mpr (not_lt.mpr habove))
  unfold nearestPattern
  rw [if_neg hnum]
  calc (j + 1023) * Nat.pow 2 52 = (j + 1022) * Nat.pow 2 52 + Nat.pow 2 52 := by ring
    _ ≤ _ := Nat.add_le_add (Nat.mul_le_mul_right _ hscale) hround

theorem isSome_nearest? (hden : den ≠ 0) (h : (num : ℚ) < den * 2 ^ (1023 : Int)) :
    (nearest? num den).isSome := by
  have hpattern := nearestPattern_le (j := 1023) hden h
  rw [nearest?, dif_pos (hpattern.trans_lt (by decide))]
  rfl

theorem lt_of_isSome_nearest? (hden : den ≠ 0) (h : (nearest? num den).isSome) :
    (num : ℚ) < den * 2 ^ (1024 : Int) := by
  by_contra hle
  have hpattern := le_nearestPattern (j := 1024) hden (not_lt.mp hle)
  rw [nearest?, dif_neg (not_lt.mpr (le_trans (by decide) hpattern))] at h
  cases h

end

/-! ### Values -/

/-- The value that a pattern stands for. -/
def rational (b : Magnitude) : ℚ :=
  b.significand * 2 ^ b.scale

variable {a b : Magnitude}

theorem ratio_snd_ne_zero (b : Magnitude) : b.ratio.2 ≠ 0 :=
  pow_ne_zero _ two_ne_zero

theorem rational_eq (b : Magnitude) : b.rational = b.ratio.1 / b.ratio.2 := by
  have hden : (2 : ℚ) ^ (-b.scale).toNat ≠ 0 := by positivity
  simp only [rational, ratio, Nat.pow_eq, Nat.cast_mul, Nat.cast_pow, Nat.cast_ofNat]
  rw [eq_div_iff hden, mul_assoc, two_zpow_mul]

theorem rational_nonneg (b : Magnitude) : 0 ≤ b.rational := by
  unfold rational
  positivity

theorem rational_lt {k : Nat} (hk : 2 ≤ k) (h : b.val < k * Nat.pow 2 52) :
    b.rational < 2 ^ ((k : Int) - 1023) := by
  have hbits : Nat.pow 2 52 = 4503599627370496 := rfl
  have h : b.val < k * 4503599627370496 := h
  have hscale : b.scale ≤ k - 1076 := by
    simp only [scale, hbits]
    split_ifs <;> omega
  have hsignificand : (b.significand : ℚ) < 2 ^ (53 : Int) := by
    have hlt : b.significand < 2 ^ 53 := by
      simp only [significand, hbits]
      split_ifs <;> omega
    exact_mod_cast hlt
  calc b.rational < 2 ^ (53 : Int) * 2 ^ b.scale := by
        unfold rational
        gcongr
    _ ≤ 2 ^ (53 : Int) * 2 ^ ((k : Int) - 1076) := by
      gcongr
      exact one_le_two
    _ = 2 ^ ((k : Int) - 1023) := by
      rw [← zpow_add₀ two_ne_zero]
      congr 1
      omega

theorem rational_lt_max (b : Magnitude) : b.rational < 2 ^ (1024 : Int) :=
  rational_lt (k := 2047) (by decide) b.isLt

theorem times?_ratio : ((a.ratio.1 * b.ratio.1 : Nat) : ℚ) =
    (a.ratio.2 * b.ratio.2 : Nat) * (a.rational * b.rational) := by
  have ha : (a.ratio.2 : ℚ) ≠ 0 := Nat.cast_ne_zero.mpr a.ratio_snd_ne_zero
  have hb : (b.ratio.2 : ℚ) ≠ 0 := Nat.cast_ne_zero.mpr b.ratio_snd_ne_zero
  rw [rational_eq, rational_eq]
  push_cast
  field_simp

theorem times?_ratio_pos (a b : Magnitude) : (0 : ℚ) < (a.ratio.2 * b.ratio.2 : Nat) :=
  Nat.cast_pos.mpr (Nat.pos_of_ne_zero (mul_ne_zero a.ratio_snd_ne_zero b.ratio_snd_ne_zero))

theorem isSome_times? (h : a.rational * b.rational < 2 ^ (1023 : Int)) : (a.times? b).isSome := by
  have hpos := times?_ratio_pos a b
  refine isSome_nearest? (mul_ne_zero a.ratio_snd_ne_zero b.ratio_snd_ne_zero) ?_
  rw [times?_ratio]
  exact mul_lt_mul_of_pos_left h hpos

theorem lt_of_isSome_times? (h : (a.times? b).isSome) :
    a.rational * b.rational < 2 ^ (1024 : Int) := by
  have hlt := lt_of_isSome_nearest? (mul_ne_zero a.ratio_snd_ne_zero b.ratio_snd_ne_zero) h
  rw [times?_ratio] at hlt
  exact lt_of_mul_lt_mul_left hlt (times?_ratio_pos a b).le

theorem isSome_over? (h : 2 ≤ b.rational) : (a.over? b).isSome := by
  have ha : (0 : ℚ) < a.ratio.2 := Nat.cast_pos.mpr (Nat.pos_of_ne_zero a.ratio_snd_ne_zero)
  have hb : (0 : ℚ) < b.ratio.2 := Nat.cast_pos.mpr (Nat.pos_of_ne_zero b.ratio_snd_ne_zero)
  have hmax := a.rational_lt_max
  rw [rational_eq, le_div_iff₀ hb] at h
  rw [rational_eq, div_lt_iff₀ ha] at hmax
  have hden : b.ratio.1 ≠ 0 := by
    intro hzero
    simp only [hzero, Nat.cast_zero] at h
    linarith
  refine isSome_nearest? (mul_ne_zero a.ratio_snd_ne_zero hden) ?_
  have hpow : (2 : ℚ) ^ (1024 : Int) = 2 ^ (1023 : Int) * 2 := zpow_add_one₀ two_ne_zero 1023
  rw [hpow] at hmax
  rw [Nat.cast_mul, Nat.cast_mul]
  calc (a.ratio.1 : ℚ) * b.ratio.2 < 2 ^ (1023 : Int) * 2 * a.ratio.2 * b.ratio.2 := by gcongr
    _ = a.ratio.2 * (2 * b.ratio.2) * 2 ^ (1023 : Int) := by ring
    _ ≤ a.ratio.2 * b.ratio.1 * 2 ^ (1023 : Int) := by gcongr

/-! ### Powers of ten -/

/-- The next power of ten is finite and at least twice as large. -/
def doubles (k : Nat) : Bool :=
  match powerOfTen? k, powerOfTen? (k + 1) with
  | some p, some p' => 2 * (p.ratio.1 * p'.ratio.2) ≤ p'.ratio.1 * p.ratio.2
  | _, _ => false

theorem doubles_of_lt : ∀ k < 308, doubles k = true := by
  decide +kernel

theorem powerOfTen?_succ {k : Nat} (h : k < 308) : ∃ p p', powerOfTen? k = some p ∧
    powerOfTen? (k + 1) = some p' ∧ 2 * p.rational ≤ p'.rational := by
  have hdoubles := doubles_of_lt k h
  unfold doubles at hdoubles
  split at hdoubles
  next p p' hp hp' =>
    refine ⟨p, p', hp, hp', ?_⟩
    have hpos : (0 : ℚ) < p.ratio.2 := Nat.cast_pos.mpr (Nat.pos_of_ne_zero p.ratio_snd_ne_zero)
    have hpos' : (0 : ℚ) < p'.ratio.2 := Nat.cast_pos.mpr (Nat.pos_of_ne_zero p'.ratio_snd_ne_zero)
    have hle : (2 : ℚ) * (p.ratio.1 * p'.ratio.2) ≤ p'.ratio.1 * p.ratio.2 := by
      exact_mod_cast of_decide_eq_true hdoubles
    rw [rational_eq, rational_eq, ← mul_div_assoc, div_le_div_iff₀ hpos hpos', mul_assoc]
    exact hle
  next => cases hdoubles

theorem powerOfTen?_zero : ∃ p, powerOfTen? 0 = some p ∧ p.rational = 1 := by
  have hratio : ratio ⟨1023 * Nat.pow 2 52, by decide⟩ = (Nat.pow 2 52, Nat.pow 2 52) := by
    decide +kernel
  refine ⟨⟨1023 * Nat.pow 2 52, by decide⟩, by decide +kernel, ?_⟩
  rw [rational_eq, hratio]
  norm_num

theorem powerOfTen?_lt {j k : Nat} (hjk : j < k) (hk : k ≤ 308) : ∃ p p', powerOfTen? j = some p ∧
    powerOfTen? k = some p' ∧ 2 * p.rational ≤ p'.rational := by
  induction k with
  | zero => exact absurd hjk (Nat.not_lt_zero j)
  | succ k ih =>
    obtain ⟨q, p', hq, hp', hle⟩ := powerOfTen?_succ hk
    rcases Nat.lt_succ_iff_lt_or_eq.mp hjk with hlt | rfl
    · obtain ⟨p, q', hp, hq', hle'⟩ := ih hlt (Nat.le_of_succ_le hk)
      cases hq.symm.trans hq'
      have hnonneg := q.rational_nonneg
      exact ⟨p, p', hp, hp', by linarith⟩
    · exact ⟨q, p', hq, hp', hle⟩

theorem powerOfTen?_pos {k : Nat} (hpos : 0 < k) (hk : k ≤ 308) :
    ∃ p, powerOfTen? k = some p ∧ 2 ≤ p.rational := by
  obtain ⟨p, p', hp, hp', hle⟩ := powerOfTen?_lt hpos hk
  obtain ⟨one, hone, hrational⟩ := powerOfTen?_zero
  cases hp.symm.trans hone
  exact ⟨p', hp', by linarith⟩

/-! ### Decimals -/

section

variable {m : Nat} {e e' : Int}

theorem exists_nearest? (h : m < Nat.pow 2 64) :
    ∃ d, nearest? m 1 = some d ∧ d.rational < 2 ^ (65 : Int) := by
  have hlt : (m : ℚ) < (1 : Nat) * 2 ^ ((64 : Nat) : Int) := by
    rw [Nat.cast_one, one_mul, zpow_natCast]
    exact_mod_cast h
  have hpattern := nearestPattern_le one_ne_zero hlt
  have hbound : nearestPattern m 1 < 2047 * Nat.pow 2 52 := hpattern.trans_lt (by decide)
  refine ⟨⟨nearestPattern m 1, hbound⟩, dif_pos hbound, ?_⟩
  exact rational_lt (k := 1088) (by decide) (hpattern.trans_lt (by decide))

theorem isSome_ofDecimal?_of_neg (hm : m < Nat.pow 2 64) (he : e < 0) :
    (ofDecimal? m e).isSome := by
  obtain ⟨d, hd, -⟩ := exists_nearest? hm
  have hover : ∀ (a : Magnitude) {k : Nat}, 0 < k → k ≤ 308 →
      ∃ p b, powerOfTen? k = some p ∧ a.over? p = some b := fun a k hpos hk => by
    obtain ⟨p, hp, hle⟩ := powerOfTen?_pos hpos hk
    exact ⟨p, _, hp, (Option.some_get (isSome_over? hle)).symm⟩
  unfold ofDecimal?
  split
  · rfl
  simp only [hd, Option.bind_eq_bind, Option.bind_some, if_neg (not_le.mpr he)]
  split_ifs with hsmall hlarge
  · obtain ⟨p, b, hp, hb⟩ := hover d (by omega) hsmall
    simp [hp, hb]
  · obtain ⟨p, b, hp, hb⟩ := hover d (k := 308) (by decide) le_rfl
    obtain ⟨p', b', hp', hb'⟩ := hover b (k := e.natAbs - 308) (by omega) (by omega)
    simp [hp, hb, hp', hb']
  · rfl

theorem ofDecimal?_eq_times? {d p : Magnitude} {k : Nat} (hm : m ≠ 0) (hd : nearest? m 1 = some d)
    (hk : k ≤ 308) (hp : powerOfTen? k = some p) : ofDecimal? m k = d.times? p := by
  simp [ofDecimal?, hm, hd, hk, hp]

theorem le_of_isSome_ofDecimal? {k : Nat} (hm : m ≠ 0) (h : (ofDecimal? m k).isSome) : k ≤ 308 := by
  by_contra hk
  simp [ofDecimal?, hm, hk] at h

theorem isSome_ofDecimal?_of_nonpos (hm : m < Nat.pow 2 64) (he : e ≤ 0) :
    (ofDecimal? m e).isSome := by
  rcases he.lt_or_eq with he | rfl
  · exact isSome_ofDecimal?_of_neg hm he
  by_cases hzero : m = 0
  · simp [ofDecimal?, hzero]
  obtain ⟨d, hd, hlt⟩ := exists_nearest? hm
  obtain ⟨p, hp, hone⟩ := powerOfTen?_zero
  have heq : ofDecimal? m (0 : Nat) = d.times? p := ofDecimal?_eq_times? hzero hd (by decide) hp
  refine heq ▸ isSome_times? ?_
  rw [hone, mul_one]
  exact hlt.trans (zpow_lt_zpow_right₀ one_lt_two (by decide))

theorem isSome_ofDecimal?_of_lt (hm : m < Nat.pow 2 64) (h : (ofDecimal? m e).isSome)
    (hlt : e' < e) : (ofDecimal? m e').isSome := by
  rcases lt_or_ge e' 0 with hneg | hnonneg
  · exact isSome_ofDecimal?_of_neg hm hneg
  by_cases hzero : m = 0
  · simp [ofDecimal?, hzero]
  lift e' to Nat using hnonneg
  lift e to Nat using by omega
  have hle := le_of_isSome_ofDecimal? hzero h
  obtain ⟨d, hd, -⟩ := exists_nearest? hm
  obtain ⟨p, p', hp, hp', hdouble⟩ := powerOfTen?_lt (Int.ofNat_lt.mp hlt) hle
  rw [ofDecimal?_eq_times? hzero hd hle hp'] at h
  rw [ofDecimal?_eq_times? hzero hd (by omega) hp]
  have hmax := lt_of_isSome_times? h
  have hpow : (2 : ℚ) ^ (1024 : Int) = 2 ^ (1023 : Int) * 2 := zpow_add_one₀ two_ne_zero 1023
  have hproduct : d.rational * p.rational * 2 < 2 ^ (1023 : Int) * 2 :=
    calc d.rational * p.rational * 2 = d.rational * (2 * p.rational) := by ring
      _ ≤ d.rational * p'.rational := mul_le_mul_of_nonneg_left hdouble d.rational_nonneg
      _ < 2 ^ (1023 : Int) * 2 := hpow ▸ hmax
  exact isSome_times? (lt_of_mul_lt_mul_right hproduct zero_le_two)

end

end Magnitude
end PacedJobs
