import PacedJobs.Proofs.Decimal.Nearest

/-!
# Decimals rounded in steps

The digits of a decimal are rounded first, and then the product with a rounded power of ten, or the
quotient. Each step adds an error that is small for the number, or of the size of the least double.
-/

namespace PacedJobs
namespace Magnitude

/-- The double that a decimal is rounded to by steps. A small decimal is divided twice, and one that
is smaller still leaves nothing. -/
inductive Scaled (n : ℕ) : ℤ → Magnitude → Prop
  | zero {e : ℤ} : n = 0 → Scaled n e Magnitude.zero
  | up {k : ℕ} {a p m : Magnitude} : n ≠ 0 → Nearest n a → k ≤ 308 → Nearest (10 ^ k) p →
      Nearest (valueOf a * valueOf p) m → Scaled n k m
  | down {k : ℕ} {a p m : Magnitude} : n ≠ 0 → Nearest n a → 0 < k → k ≤ 308 →
      Nearest (10 ^ k) p → Nearest (valueOf a / valueOf p) m → Scaled n (-k) m
  | twice {k : ℕ} {a p b p' m : Magnitude} : n ≠ 0 → Nearest n a → 0 < k → k ≤ 308 →
      Nearest (10 ^ 308) p → Nearest (valueOf a / valueOf p) b → Nearest (10 ^ k) p' →
      Nearest (valueOf b / valueOf p') m → Scaled n (-(308 + k : ℕ)) m
  | vanished {k : ℕ} {a : Magnitude} : n ≠ 0 → Nearest n a → 616 < k →
      Scaled n (-k) Magnitude.zero

section

variable {n k : ℕ} {e : ℤ} {a b m p : Magnitude}

theorem nearest?_one_eq_some_iff : nearest? n 1 = some m ↔ Nearest n m := by
  rw [nearest?_eq_some_iff one_ne_zero, Nat.cast_one, div_one]

theorem powerOfTen?_eq_some_iff : powerOfTen? k = some p ↔ Nearest (10 ^ k) p := by
  rw [powerOfTen?, nearest?_one_eq_some_iff, Nat.pow_eq, Nat.cast_pow, Nat.cast_ofNat]

theorem times?_eq_some_iff : a.times? b = some m ↔ Nearest (valueOf a * valueOf b) m := by
  have hden := mul_ne_zero a.ratio_snd_ne_zero b.ratio_snd_ne_zero
  have hvalue : ((a.ratio.1 * b.ratio.1 : ℕ) : ℚ) / (a.ratio.2 * b.ratio.2 : ℕ) =
      valueOf a * valueOf b := by
    rw [times?_ratio, mul_div_cancel_left₀ _ (Nat.cast_ne_zero.mpr hden), rational_eq_valueOf,
      rational_eq_valueOf]
  rw [times?, nearest?_eq_some_iff hden, hvalue]

theorem over?_eq_some_iff (hb : valueOf b ≠ 0) :
    a.over? b = some m ↔ Nearest (valueOf a / valueOf b) m := by
  have hnum : b.ratio.1 ≠ 0 := by
    intro hzero
    rw [← rational_eq_valueOf, rational_eq, hzero, Nat.cast_zero, zero_div] at hb
    exact hb rfl
  have hvalue : ((a.ratio.1 * b.ratio.2 : ℕ) : ℚ) / (a.ratio.2 * b.ratio.1 : ℕ) =
      valueOf a / valueOf b := by
    rw [← rational_eq_valueOf, ← rational_eq_valueOf, rational_eq, rational_eq, div_div_div_eq,
      Nat.cast_mul, Nat.cast_mul]
  rw [over?, nearest?_eq_some_iff (mul_ne_zero a.ratio_snd_ne_zero hnum), hvalue]

theorem valueOf_powerOfTen_ne_zero (hp : Nearest (10 ^ k) p) (hk : k ≤ 308) : valueOf p ≠ 0 := by
  have hp := powerOfTen?_eq_some_iff.mpr hp
  rw [← rational_eq_valueOf]
  rcases k.eq_zero_or_pos with rfl | hpos
  · obtain ⟨q, hq, hone⟩ := powerOfTen?_zero
    cases hp.symm.trans hq
    exact hone ▸ one_ne_zero
  · obtain ⟨q, hq, htwo⟩ := powerOfTen?_pos hpos hk
    cases hp.symm.trans hq
    exact (two_pos.trans_le htwo).ne'

theorem Scaled.ofDecimal?_eq (h : Scaled n e m) : ofDecimal? n e = some m := by
  cases h with
  | zero hn => simp [ofDecimal?, hn]
  | up hn ha hk hp hm =>
    simp [ofDecimal?, hn, hk, nearest?_one_eq_some_iff.mpr ha, powerOfTen?_eq_some_iff.mpr hp,
      times?_eq_some_iff.mpr hm]
  | down hn ha hpos hk hp hm =>
    simp [ofDecimal?, hn, hk, hpos.ne', nearest?_one_eq_some_iff.mpr ha,
      powerOfTen?_eq_some_iff.mpr hp, (over?_eq_some_iff (valueOf_powerOfTen_ne_zero hp hk)).mpr hm]
  | @twice k a p b p' m hn ha hpos hk hp hb hp' hm =>
    have hneg : ¬ (0 : ℤ) ≤ -(308 + k : ℕ) := by omega
    have habs : (-(308 + k : ℕ) : ℤ).natAbs = 308 + k := by omega
    simp only [ofDecimal?, if_neg hn, if_neg hneg, habs, if_neg (show ¬ 308 + k ≤ 308 by omega),
      if_pos (show 308 + k ≤ 616 by omega), Nat.add_sub_cancel_left,
      nearest?_one_eq_some_iff.mpr ha, powerOfTen?_eq_some_iff.mpr hp,
      powerOfTen?_eq_some_iff.mpr hp', Option.bind_eq_bind, Option.bind_some,
      (over?_eq_some_iff (valueOf_powerOfTen_ne_zero hp le_rfl)).mpr hb,
      (over?_eq_some_iff (valueOf_powerOfTen_ne_zero hp' hk)).mpr hm]
  | @vanished k a hn ha hk =>
    have hneg : ¬ (0 : ℤ) ≤ -k := by omega
    have habs : (-k : ℤ).natAbs = k := by omega
    simp only [ofDecimal?, if_neg hn, if_neg hneg, habs, if_neg (show ¬ k ≤ 308 by omega),
      if_neg (show ¬ k ≤ 616 by omega), nearest?_one_eq_some_iff.mpr ha, Option.bind_eq_bind,
      Option.bind_some]
    rfl

theorem scaled_of_ofDecimal? (h : ofDecimal? n e = some m) : Scaled n e m := by
  unfold ofDecimal? at h
  split at h
  next hn =>
    cases h
    exact .zero hn
  next hn =>
    obtain ⟨a, ha, h⟩ := Option.bind_eq_some_iff.mp h
    rw [nearest?_one_eq_some_iff] at ha
    dsimp only at h
    split_ifs at h with hsign hk hk hk'
    · obtain ⟨p, hp, h⟩ := Option.bind_eq_some_iff.mp h
      rw [← Int.natAbs_of_nonneg hsign]
      exact .up hn ha hk (powerOfTen?_eq_some_iff.mp hp) (times?_eq_some_iff.mp h)
    · obtain ⟨p, hp, h⟩ := Option.bind_eq_some_iff.mp h
      rw [powerOfTen?_eq_some_iff] at hp
      rw [over?_eq_some_iff (valueOf_powerOfTen_ne_zero hp hk)] at h
      rw [show e = -(e.natAbs : ℤ) by omega]
      exact .down hn ha (by omega) hk hp h
    · obtain ⟨p, hp, h⟩ := Option.bind_eq_some_iff.mp h
      obtain ⟨b, hb, h⟩ := Option.bind_eq_some_iff.mp h
      obtain ⟨p', hp', h⟩ := Option.bind_eq_some_iff.mp h
      rw [powerOfTen?_eq_some_iff] at hp hp'
      rw [over?_eq_some_iff (valueOf_powerOfTen_ne_zero hp le_rfl)] at hb
      rw [over?_eq_some_iff (valueOf_powerOfTen_ne_zero hp' (by omega))] at h
      rw [show e = -(308 + (e.natAbs - 308) : ℕ) by omega]
      exact .twice hn ha (by omega) (by omega) hp hb hp' h
    · cases h
      rw [show e = -(e.natAbs : ℤ) by omega]
      exact .vanished hn ha (by omega)

/-- Rounding by steps gives the double that is read off a decimal. -/
theorem ofDecimal?_eq_some_iff : ofDecimal? n e = some m ↔ Scaled n e m :=
  ⟨scaled_of_ofDecimal?, Scaled.ofDecimal?_eq⟩

end

/-! ### Accuracy -/

/-- The numbers differ by a factor of at most so many roundings. -/
def Within (c : ℕ) (x y : ℚ) : Prop :=
  x ≤ y * (1 + 2 ^ (-52 : ℤ)) ^ c ∧ y ≤ x * (1 + 2 ^ (-52 : ℤ)) ^ c

namespace Within

variable {c c' : ℕ} {x x' y y' z : ℚ}

theorem refl (x : ℚ) : Within 0 x x := by
  simp [Within]

theorem trans (h : Within c x y) (h' : Within c' y z) : Within (c + c') x z := by
  have hpos : ∀ n : ℕ, (0 : ℚ) ≤ (1 + 2 ^ (-52 : ℤ)) ^ n := fun n => by positivity
  constructor
  · calc x ≤ y * (1 + 2 ^ (-52 : ℤ)) ^ c := h.1
      _ ≤ z * (1 + 2 ^ (-52 : ℤ)) ^ c' * (1 + 2 ^ (-52 : ℤ)) ^ c :=
        mul_le_mul_of_nonneg_right h'.1 (hpos c)
      _ = z * (1 + 2 ^ (-52 : ℤ)) ^ (c + c') := by ring
  · calc z ≤ y * (1 + 2 ^ (-52 : ℤ)) ^ c' := h'.2
      _ ≤ x * (1 + 2 ^ (-52 : ℤ)) ^ c * (1 + 2 ^ (-52 : ℤ)) ^ c' :=
        mul_le_mul_of_nonneg_right h.2 (hpos c')
      _ = x * (1 + 2 ^ (-52 : ℤ)) ^ (c + c') := by ring

theorem mul (h : Within c x y) (h' : Within c' x' y') (hx : 0 ≤ x) (hy : 0 ≤ y) (hx' : 0 ≤ x')
    (hy' : 0 ≤ y') : Within (c + c') (x * x') (y * y') := by
  constructor
  · calc x * x' ≤ y * (1 + 2 ^ (-52 : ℤ)) ^ c * (y' * (1 + 2 ^ (-52 : ℤ)) ^ c') :=
        mul_le_mul h.1 h'.1 hx' (by positivity)
      _ = y * y' * (1 + 2 ^ (-52 : ℤ)) ^ (c + c') := by ring
  · calc y * y' ≤ x * (1 + 2 ^ (-52 : ℤ)) ^ c * (x' * (1 + 2 ^ (-52 : ℤ)) ^ c') :=
        mul_le_mul h.2 h'.2 hy' (by positivity)
      _ = x * x' * (1 + 2 ^ (-52 : ℤ)) ^ (c + c') := by ring

theorem inv (h : Within c x y) (hx : 0 < x) (hy : 0 < y) : Within c x⁻¹ y⁻¹ := by
  constructor
  · rw [inv_eq_one_div, div_le_iff₀ hx, mul_right_comm, mul_assoc, ← div_eq_inv_mul,
      le_div_iff₀ hy, one_mul]
    exact h.2
  · rw [inv_eq_one_div, div_le_iff₀ hy, mul_right_comm, mul_assoc, ← div_eq_inv_mul,
      le_div_iff₀ hx, one_mul]
    exact h.1

theorem div (h : Within c x y) (h' : Within c' x' y') (hx : 0 ≤ x) (hy : 0 ≤ y) (hx' : 0 < x')
    (hy' : 0 < y') : Within (c + c') (x / x') (y / y') := by
  rw [div_eq_mul_inv, div_eq_mul_inv]
  exact h.mul (h'.inv hx' hy') hx hy (inv_nonneg.mpr hx'.le) (inv_nonneg.mpr hy'.le)

theorem pos (h : Within c x y) (hx : 0 < x) : 0 < y := by
  have hpos : (0 : ℚ) < (1 + 2 ^ (-52 : ℤ)) ^ c := by positivity
  exact (mul_pos_iff_of_pos_right hpos).mp (hx.trans_le h.1)

theorem of_bounds {a s : ℚ} (ha : 2 ^ 52 ≤ a) (hs : 0 ≤ s) (hx : a * s ≤ x)
    (hx' : x ≤ (a + 1) * s) (hy : a * s ≤ y) (hy' : y ≤ (a + 1) * s) : Within 1 x y := by
  have hstep : (a + 1) * s ≤ a * s * (1 + 2 ^ (-52 : ℤ)) := by
    have hone : 1 ≤ a * 2 ^ (-52 : ℤ) := by
      norm_num at ha ⊢
      linarith
    calc (a + 1) * s ≤ (a + a * 2 ^ (-52 : ℤ)) * s := by gcongr
      _ = a * s * (1 + 2 ^ (-52 : ℤ)) := by ring
  have hpos : (0 : ℚ) ≤ 1 + 2 ^ (-52 : ℤ) := by positivity
  unfold Within
  rw [pow_one]
  exact ⟨hx'.trans (hstep.trans (mul_le_mul_of_nonneg_right hy hpos)),
    hy'.trans (hstep.trans (mul_le_mul_of_nonneg_right hx hpos))⟩

theorem mono (h : Within c x y) (hc : c ≤ c') (hx : 0 ≤ x) (hy : 0 ≤ y) : Within c' x y := by
  have hpower : (1 + 2 ^ (-52 : ℤ) : ℚ) ^ c ≤ (1 + 2 ^ (-52 : ℤ)) ^ c' :=
    pow_le_pow_right₀ (le_add_of_nonneg_right (by positivity)) hc
  exact ⟨h.1.trans (mul_le_mul_of_nonneg_left hpower hy),
    h.2.trans (mul_le_mul_of_nonneg_left hpower hx)⟩

end Within

section

variable {n k b : ℕ} {e : ℤ} {x y : ℚ} {m : Magnitude}

theorem valueOf_zero : valueOf 0 = 0 := by
  simp [valueOf]

theorem valueOf_nonneg (b : ℕ) : 0 ≤ valueOf b :=
  valueOf_zero ▸ strictMono_valueOf.monotone (Nat.zero_le b)

/-- A number that is not too small is changed little by rounding. -/
theorem Nearest.within (h : Nearest x b) (hx : 2 ^ (-1022 : ℤ) ≤ x) : Within 1 x (valueOf b) := by
  have hnonneg : 0 ≤ x := (by positivity : (0 : ℚ) ≤ 2 ^ (-1022 : ℤ)).trans hx
  have hchange := (h.abs_sub_le hnonneg).resolve_right fun hsmall => absurd hx hsmall.1.not_ge
  obtain ⟨hbelow, habove⟩ := abs_le.mp hchange
  unfold Within
  rw [pow_one]
  norm_num at hbelow habove ⊢
  constructor <;> linarith

theorem Nearest.within_of_one_le (h : Nearest x b) (hx : 1 ≤ x) : Within 1 x (valueOf b) :=
  h.within (hx.trans' (zpow_le_one_of_nonpos₀ one_le_two (by decide)))

/-- A number that is a little too small for that is still changed little. -/
theorem Nearest.within_of_small (h : Nearest x b) (hx : 2 ^ (-1024 : ℤ) ≤ x) :
    Within 3 x (valueOf b) := by
  have hnonneg : 0 ≤ x := (by positivity : (0 : ℚ) ≤ 2 ^ (-1024 : ℤ)).trans hx
  have hchange : |valueOf b - x| ≤ x * 2 ^ (-51 : ℤ) := by
    rcases h.abs_sub_le hnonneg with hsmall | ⟨-, hleast⟩
    · refine hsmall.trans (mul_le_mul_of_nonneg_left ?_ hnonneg)
      exact zpow_le_zpow_right₀ one_le_two (by decide)
    · have hsplit : (2 : ℚ) ^ (-1075 : ℤ) = 2 ^ (-1024 : ℤ) * 2 ^ (-51 : ℤ) :=
        zpow_add₀ two_ne_zero (-1024) (-51)
      rw [hsplit] at hleast
      exact hleast.trans (mul_le_mul_of_nonneg_right hx (by positivity))
  obtain ⟨hbelow, habove⟩ := abs_le.mp hchange
  unfold Within
  norm_num at hbelow habove ⊢
  constructor <;> linarith

theorem nearest_zero (hx : 0 ≤ x) (hless : x < 2 ^ (-1075 : ℤ)) : Nearest x 0 := by
  have hhalves : (2 : ℚ) ^ (-1074 : ℤ) = 2 ^ (-1075 : ℤ) * 2 := zpow_add_one₀ two_ne_zero (-1075)
  have hhalf : 2 * |x - (0 : ℕ) * 2 ^ ((0 : ℕ) - 1074 : ℤ)| < 2 ^ ((0 : ℕ) - 1074 : ℤ) := by
    rw [Nat.cast_zero, Nat.cast_zero, zero_mul, sub_zero, abs_of_nonneg hx, zero_sub, hhalves]
    linarith
  simpa using nearest_of_steps (Nat.zero_le _) (.inl rfl) hhalf.le fun htie => absurd htie hhalf.ne

theorem two_zpow_mul_ten_pow_le : (2 : ℚ) ^ (-1024 : ℤ) * 10 ^ 308 ≤ 2 / 3 := by
  have hquarter : (9 * 10 ^ 77 : ℚ) * 2 ^ (-256 : ℤ) ≤ 8 := by norm_num
  have hfour := pow_le_pow_left₀ (by positivity) hquarter 4
  have hpower : ((2 : ℚ) ^ (-256 : ℤ)) ^ 4 = 2 ^ (-1024 : ℤ) := by
    rw [← zpow_natCast, ← zpow_mul]
    rfl
  rw [mul_pow, mul_pow, ← pow_mul, hpower] at hfour
  generalize (10 : ℚ) ^ (77 * 4) = power at hfour ⊢
  linarith

theorem ten_zpow_lt : (2 : ℚ) ^ 64 * 10 ^ (-617 : ℤ) < 2 ^ (-1075 : ℤ) := by
  have htenth : ((10 : ℚ) ^ (-1 : ℤ)) ^ 617 ≤ (2 ^ (-3 : ℤ)) ^ 617 :=
    pow_le_pow_left₀ (by positivity) (by norm_num) 617
  rw [← zpow_natCast, ← zpow_natCast, ← zpow_mul, ← zpow_mul] at htenth
  calc (2 : ℚ) ^ 64 * 10 ^ (-617 : ℤ) ≤ 2 ^ (64 : ℤ) * 2 ^ (-1851 : ℤ) :=
        mul_le_mul_of_nonneg_left htenth (by positivity)
    _ = 2 ^ (-1787 : ℤ) := (zpow_add₀ two_ne_zero _ _).symm
    _ < 2 ^ (-1075 : ℤ) := zpow_lt_zpow_right₀ one_lt_two (by decide)

theorem mul_ten_zpow_lt (hn : n < 2 ^ 64) (hk : 616 < k) :
    (n : ℚ) * 10 ^ (-k : ℤ) < 2 ^ (-1075 : ℤ) := by
  have hn : (n : ℚ) < 2 ^ 64 := by exact_mod_cast hn
  have hk : (10 : ℚ) ^ (-k : ℤ) ≤ 10 ^ (-617 : ℤ) :=
    zpow_le_zpow_right₀ (by norm_num) (by omega)
  calc (n : ℚ) * 10 ^ (-k : ℤ) < 2 ^ 64 * 10 ^ (-617 : ℤ) :=
        mul_lt_mul hn hk (by positivity) (by positivity)
    _ < 2 ^ (-1075 : ℤ) := ten_zpow_lt

/-- Where a small decimal is divided twice, the first quotient is rounded with little change. -/
theorem Within.two_zpow_le_div (ha : Within 1 n x) (hp : Within 1 (10 ^ 308) y) (hn : n ≠ 0)
    (hpos : 0 < y) : 2 ^ (-1024 : ℤ) ≤ x / y := by
  have hone : (1 : ℚ) ≤ n := by exact_mod_cast Nat.one_le_iff_ne_zero.mpr hn
  have hbelow := hone.trans ha.1
  have habove := hp.2
  have hless := two_zpow_mul_ten_pow_le
  have hstep : (0 : ℚ) < 2 ^ (-1024 : ℤ) := by positivity
  rw [le_div_iff₀ hpos]
  generalize (2 : ℚ) ^ (-1024 : ℤ) = step at hless hstep ⊢
  generalize (10 : ℚ) ^ 308 = power at habove hless
  norm_num at hbelow habove
  have hproduct := mul_le_mul_of_nonneg_left habove hstep.le
  linarith

/-- The last step rounds a number that the earlier ones leave close to the decimal. -/
theorem Scaled.near (h : Scaled n e m) (hn : n < 2 ^ 64) :
    ∃ y, 0 ≤ y ∧ Within 6 (n * 10 ^ e) y ∧ Nearest y m := by
  have hdigits : ∀ {a : Magnitude}, n ≠ 0 → Nearest n a → Within 1 n (valueOf a) := fun hn ha =>
    ha.within_of_one_le (by exact_mod_cast Nat.one_le_iff_ne_zero.mpr hn)
  have hpower : ∀ {k : ℕ} {p : Magnitude}, Nearest (10 ^ k) p →
      Within 1 (10 ^ k) (valueOf p) ∧ 0 < valueOf p := fun hp => by
    have hwithin := hp.within_of_one_le (one_le_pow₀ (by norm_num))
    exact ⟨hwithin, hwithin.pos (by positivity)⟩
  have hnonneg : (0 : ℚ) ≤ n := n.cast_nonneg
  cases h with
  | zero hn =>
    refine ⟨0, le_rfl, ?_, nearest_zero le_rfl (by positivity)⟩
    rw [hn, Nat.cast_zero, zero_mul]
    exact (Within.refl 0).mono (by decide) le_rfl le_rfl
  | @up k a p m hn ha hk hp hm =>
    obtain ⟨hp', hpos⟩ := hpower hp
    refine ⟨_, mul_nonneg (valueOf_nonneg a) hpos.le, ?_, hm⟩
    rw [zpow_natCast]
    have hproduct := (hdigits hn ha).mul hp' hnonneg (valueOf_nonneg a) (by positivity) hpos.le
    exact hproduct.mono (by decide) (by positivity) (mul_nonneg (valueOf_nonneg a) hpos.le)
  | @down k a p m hn ha hpos hk hp hm =>
    obtain ⟨hp', hpos⟩ := hpower hp
    refine ⟨_, div_nonneg (valueOf_nonneg a) hpos.le, ?_, hm⟩
    rw [zpow_neg, zpow_natCast, ← div_eq_mul_inv]
    have hquotient := (hdigits hn ha).div hp' hnonneg (valueOf_nonneg a) (by positivity) hpos
    exact hquotient.mono (by decide) (by positivity) (div_nonneg (valueOf_nonneg a) hpos.le)
  | @twice k a p b p' m hn ha hpos hk hp hb hp' hm =>
    have ha := hdigits hn ha
    obtain ⟨hp, hpos⟩ := hpower hp
    obtain ⟨hp', hpos'⟩ := hpower hp'
    have hquotient := (ha.div hp hnonneg (valueOf_nonneg a) (by positivity) hpos).trans
      (hb.within_of_small (ha.two_zpow_le_div hp hn hpos))
    have hwithin := hquotient.div hp' (by positivity) (valueOf_nonneg b) (by positivity) hpos'
    refine ⟨_, div_nonneg (valueOf_nonneg b) hpos'.le, ?_, hm⟩
    rwa [zpow_neg, zpow_natCast, pow_add, ← div_eq_mul_inv, ← div_div]
  | @vanished k a hn' ha hk =>
    refine ⟨_, by positivity, ?_, nearest_zero (by positivity) (mul_ten_zpow_lt hn hk)⟩
    exact (Within.refl _).mono (by decide) (by positivity) (by positivity)

theorem Within.abs_valueOf_sub_le (h : Within 7 x y) (hb : Nearest y b) (hx : 0 ≤ x)
    (hy : 0 ≤ y) : |valueOf b - x| ≤ x * 2 ^ (-49 : ℤ) + 2 ^ (-1075 : ℤ) := by
  have hstep : (0 : ℚ) < 2 ^ (-1075 : ℤ) := by positivity
  have hround : |valueOf b - y| ≤ y * 2 ^ (-53 : ℤ) + 2 ^ (-1075 : ℤ) := by
    rcases hb.abs_sub_le hy with hrelative | ⟨-, hleast⟩
    · exact hrelative.trans (le_add_of_nonneg_right hstep.le)
    · exact hleast.trans (le_add_of_nonneg_left (by positivity))
  obtain ⟨hbelow, habove⟩ := h
  obtain ⟨hbelow', habove'⟩ := abs_le.mp hround
  generalize (2 : ℚ) ^ (-1075 : ℤ) = step at hbelow' habove' ⊢
  norm_num at hbelow habove hbelow' habove' ⊢
  exact abs_le.mpr ⟨by linarith, by linarith⟩

theorem pow_overflow : (2 : ℚ) ^ 1024 = 2 ^ 54 * 2 ^ 970 ∧ (2 : ℚ) ^ 974 = 2 ^ 4 * 2 ^ 970 ∧
    (2 : ℚ) ^ 975 = 2 ^ 5 * 2 ^ 970 :=
  ⟨pow_add 2 54 970, pow_add 2 4 970, pow_add 2 5 970⟩

theorem Within.lt_of_nearest (h : Within 7 x y) (hm : Nearest y m) : x < 2 ^ 1024 + 2 ^ 975 := by
  have hfinite := hm.finite_iff.mp m.isLt
  have hpos : (0 : ℚ) < 2 ^ 970 := by positivity
  have hbelow := h.1
  rw [pow_overflow.1] at hfinite ⊢
  rw [pow_overflow.2.2]
  generalize (2 : ℚ) ^ 970 = half at hfinite hpos ⊢
  norm_num at hbelow hfinite ⊢
  linarith

theorem exists_nearest_magnitude (hx : 0 ≤ x) (hless : x < 2 ^ 1024 - 2 ^ 970) :
    ∃ m : Magnitude, Nearest x m := by
  obtain ⟨b, hb⟩ := exists_nearest hx
  exact ⟨⟨b, hb.finite_iff.mpr hless⟩, hb⟩

theorem le_of_ten_pow_lt (h : (10 : ℚ) ^ k < 2 ^ 1024) : k ≤ 308 := by
  by_contra hk
  have hquarter : (5 * 2 ^ 256 : ℚ) ≤ 6 * 10 ^ 77 := by norm_num
  have hfour := pow_le_pow_left₀ (by positivity) hquarter 4
  have hpower : (10 : ℚ) ^ 309 ≤ 10 ^ k := pow_le_pow_right₀ (by norm_num) (by omega)
  have hpos : (0 : ℚ) < 10 ^ 308 := by positivity
  rw [mul_pow, mul_pow, ← pow_mul, ← pow_mul] at hfour
  rw [pow_succ (10 : ℚ) 308] at hpower
  have hmore := hpower.trans_lt h
  clear hpower h hquarter
  generalize (2 : ℚ) ^ 1024 = top at hfour hmore
  generalize (10 : ℚ) ^ 308 = power at hfour hmore hpos
  linarith

/-- A decimal that is clearly below the overflow is rounded to a double. -/
theorem exists_scaled (hn : n < 2 ^ 64) (hless : n * 10 ^ e < (2 ^ 1024 - 2 ^ 974 : ℚ)) :
    ∃ m, Scaled n e m := by
  rcases lt_or_ge e 0 with hneg | hnonneg
  · obtain ⟨m, hm⟩ := Option.isSome_iff_exists.mp (isSome_ofDecimal?_of_neg hn hneg)
    exact ⟨m, ofDecimal?_eq_some_iff.mp hm⟩
  rcases eq_or_ne n 0 with rfl | hzero
  · exact ⟨_, .zero rfl⟩
  lift e to ℕ using hnonneg
  rw [zpow_natCast] at hless
  have hone : (1 : ℚ) ≤ n := by exact_mod_cast Nat.one_le_iff_ne_zero.mpr hzero
  have hpower : (1 : ℚ) ≤ 10 ^ e := one_le_pow₀ (by norm_num)
  have hdigits : (n : ℚ) ≤ n * 10 ^ e := le_mul_of_one_le_right n.cast_nonneg hpower
  have hplaces : (10 : ℚ) ^ e ≤ n * 10 ^ e := le_mul_of_one_le_left (by positivity) hone
  have hhalf : (0 : ℚ) < 2 ^ 970 := by positivity
  have htop : (n : ℚ) * 10 ^ e < 2 ^ 1024 := hless.trans (sub_lt_self _ (by positivity))
  rw [pow_overflow.1, pow_overflow.2.1] at hless
  have hfinite : (n : ℚ) * 10 ^ e < 2 ^ 1024 - 2 ^ 970 := by
    rw [pow_overflow.1]
    generalize (2 : ℚ) ^ 970 = half at hless hhalf ⊢
    linarith
  obtain ⟨a, ha⟩ := exists_nearest_magnitude n.cast_nonneg (hdigits.trans_lt hfinite)
  obtain ⟨p, hp⟩ := exists_nearest_magnitude (by positivity) (hplaces.trans_lt hfinite)
  have hproduct := ((ha.within_of_one_le hone).mul (hp.within_of_one_le hpower) n.cast_nonneg
    (valueOf_nonneg a) (by positivity) (valueOf_nonneg p)).2
  have hround : valueOf a * valueOf p < 2 ^ 1024 - 2 ^ 970 := by
    rw [pow_overflow.1]
    generalize (2 : ℚ) ^ 970 = half at hless hhalf ⊢
    norm_num at hproduct hless ⊢
    linarith
  obtain ⟨m, hm⟩ :=
    exists_nearest_magnitude (mul_nonneg (valueOf_nonneg a) (valueOf_nonneg p)) hround
  exact ⟨m, .up hzero ha (le_of_ten_pow_lt (hplaces.trans_lt htop)) hp hm⟩

/-! ### Short decimals -/

theorem nearest_valueOf (b : ℕ) : Nearest (valueOf b) b := by
  constructor
  · intro b'
    rw [sub_self, abs_zero]
    exact abs_nonneg _
  · intro b' hb' htie
    rw [sub_self, abs_zero, eq_comm, abs_eq_zero, sub_eq_zero] at htie
    exact absurd (strictMono_valueOf.injective htie.symm) hb'

theorem exists_valueOf_eq (hn : n < 2 ^ 53) (hn' : n ≠ 0) :
    ∃ b, valueOf b = n * 2 ^ k := by
  have hlog : n.log2 ≤ 52 := by
    have := (Nat.log2_lt hn').mpr hn
    omega
  have hbits : 2 ^ 52 = 2 ^ n.log2 * 2 ^ (52 - n.log2) := by
    rw [← pow_add, Nat.add_sub_cancel' hlog]
  refine ⟨(1022 + n.log2 + k) * Nat.pow 2 52 + n * 2 ^ (52 - n.log2), ?_⟩
  rw [valueOf_add]
  · rw [Nat.cast_mul, Nat.cast_pow, Nat.cast_ofNat, mul_assoc, ← zpow_natCast, ← zpow_natCast,
      ← zpow_add₀ two_ne_zero]
    congr 2
    omega
  · calc n * 2 ^ (52 - n.log2) ≤ 2 ^ (n.log2 + 1) * 2 ^ (52 - n.log2) :=
          Nat.mul_le_mul_right _ Nat.lt_log2_self.le
      _ = Nat.pow 2 53 := by rw [pow_succ, mul_right_comm, ← hbits]; rfl
  · right
    rw [Nat.pow_eq, hbits]
    exact Nat.mul_le_mul_right _ (Nat.log2_self_le hn')

theorem valueOf_eq_of_nearest (hb : Nearest (n * 2 ^ k) b) (hn : n < 2 ^ 53)
    (hn' : n ≠ 0) : valueOf b = n * 2 ^ k := by
  obtain ⟨b', hb'⟩ := exists_valueOf_eq (k := k) hn hn'
  rw [← hb'] at hb ⊢
  rw [hb.unique (nearest_valueOf b')]

theorem valueOf_eq_ten_pow (hb : Nearest (10 ^ k) b) (hk : k ≤ 22) :
    valueOf b = 10 ^ k := by
  have hsplit : (10 : ℚ) ^ k = (5 ^ k : ℕ) * 2 ^ k := by
    rw [Nat.cast_pow, ← mul_pow]
    norm_num
  rw [hsplit] at hb ⊢
  refine valueOf_eq_of_nearest hb ?_ (by positivity)
  calc 5 ^ k ≤ 5 ^ 22 := Nat.pow_le_pow_right (by decide) hk
    _ < 2 ^ 53 := by decide

/-- A decimal of few digits and few places is rounded once, so it goes to the nearest double. -/
theorem Scaled.nearest (h : Scaled n e m) (hn : n < 2 ^ 53) (he : e.natAbs ≤ 22) :
    Nearest (n * 10 ^ e) m := by
  have hdigits : ∀ {a : Magnitude}, n ≠ 0 → Nearest n a → valueOf a = n := fun hn' ha => by
    simpa using valueOf_eq_of_nearest (k := 0) (by simpa using ha) hn hn'
  cases h with
  | zero hn' =>
    rw [hn', Nat.cast_zero, zero_mul]
    exact nearest_zero le_rfl (by positivity)
  | up hn' ha hk hp hm =>
    rwa [hdigits hn' ha, valueOf_eq_ten_pow hp (by omega), ← zpow_natCast] at hm
  | down hn' ha hpos hk hp hm =>
    rwa [hdigits hn' ha, valueOf_eq_ten_pow hp (by omega), div_eq_mul_inv, ← zpow_natCast,
      ← zpow_neg] at hm
  | twice hn' ha hpos hk hp hb hp' hm => omega
  | vanished hn' ha hk => omega

end

end Magnitude
end PacedJobs
