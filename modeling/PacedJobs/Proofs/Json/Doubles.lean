import PacedJobs.Proofs.Json.Numbers

/-!
# Doubles that are not the nearest

Rounding in steps misses the nearest double by little, and it takes numbers for finite or infinite
that are not so only where they are close to the overflow.
-/

namespace PacedJobs
namespace Json
namespace Literal

open Magnitude

variable {l : Literal} {m : Magnitude} {t : List Char}

theorem Written.forall_isDigit (h : l.Written t) :
    ∀ c ∈ l.whole ++ l.fraction, Digits.isDigit c = true := by
  obtain ⟨hwhole, hfraction, -⟩ := h
  refine List.forall_mem_append.mpr ⟨hwhole.1.2, ?_⟩
  generalize l.fraction = ds at hfraction
  cases hfraction with
  | absent => simp
  | present hrun => exact hrun.2

theorem Fills.le {kept rest : List Char} (h : Fills kept rest) (hne : rest ≠ [])
    (hrest : ∀ c ∈ rest, Digits.isDigit c = true) : 2 ^ 52 ≤ Digits.value kept := by
  obtain ⟨c, rest, rfl⟩ := List.exists_cons_of_ne_nil hne
  have hnext := h.2 c rfl
  have hdigit := Digits.digit_lt (hrest c List.mem_cons_self)
  rw [Digits.value_append_singleton, Nat.pow_eq] at hnext
  omega

theorem bounds_of_append (ds : List Char) {us : List Char}
    (h : ∀ c ∈ us, Digits.isDigit c = true) (e : ℤ) :
    (Digits.value ds * 10 ^ (e + us.length) : ℚ) ≤ Digits.value (ds ++ us) * 10 ^ e ∧
      (Digits.value (ds ++ us) * 10 ^ e : ℚ) ≤ (Digits.value ds + 1) * 10 ^ (e + us.length) := by
  have hlt : (Digits.value us : ℚ) ≤ 10 ^ us.length := by exact_mod_cast (Digits.value_lt h).le
  have hpos : (0 : ℚ) < 10 ^ e := by positivity
  have hvalue : (Digits.value (ds ++ us) : ℚ) = Digits.value ds * 10 ^ us.length + Digits.value us := by
    exact_mod_cast Digits.value_append ds us
  rw [hvalue, zpow_add₀ (by norm_num), zpow_natCast]
  constructor
  · calc (Digits.value ds * (10 ^ e * 10 ^ us.length) : ℚ)
        = Digits.value ds * 10 ^ us.length * 10 ^ e := by ring
      _ ≤ _ := by
        gcongr
        exact le_add_of_nonneg_right (Nat.cast_nonneg _)
  · calc ((Digits.value ds * 10 ^ us.length + Digits.value us) * 10 ^ e : ℚ)
        ≤ (Digits.value ds * 10 ^ us.length + 10 ^ us.length) * 10 ^ e := by gcongr
      _ = _ := by ring

theorem exact_nonneg (l : Literal) : 0 ≤ l.exact := by
  unfold exact
  positivity

theorem Written.within_decimal (h : l.Written t) :
    Within 1 l.exact (l.decimal.1 * 10 ^ l.decimal.2) := by
  obtain ⟨kept, excess, taken, dropped, hwhole, hkept, hfraction, htaken⟩ := l.exists_fills
  have hdigits := h.forall_isDigit
  rw [decimal_eq hwhole hkept hfraction htaken]
  unfold exact
  rw [hwhole, hfraction] at hdigits ⊢
  by_cases hexcess : excess = []
  · subst hexcess
    rw [List.append_nil, ← List.append_assoc] at hdigits ⊢
    by_cases hdropped : dropped = []
    · subst hdropped
      rw [List.append_nil, List.append_nil, List.length_nil, Nat.cast_zero, add_zero]
      exact (Within.refl _).mono (by decide) (by positivity) (by positivity)
    · have hrest := (List.forall_mem_append.mp hdigits).2
      have hscale : (l.stated + ([] : List Char).length - taken.length : ℤ) =
          l.stated - (taken ++ dropped).length + dropped.length := by
        simp only [List.length_nil, List.length_append]
        omega
      obtain ⟨hbelow, habove⟩ :=
        bounds_of_append (kept ++ taken) hrest (l.stated - (taken ++ dropped).length)
      rw [hscale]
      exact .of_bounds (by exact_mod_cast htaken.le hdropped hrest) (by positivity) hbelow habove
        le_rfl (by gcongr; exact le_add_of_nonneg_right zero_le_one)
  · rw [List.append_assoc] at hdigits ⊢
    have hrest := (List.forall_mem_append.mp hdigits).2
    have hexcess' := (List.forall_mem_append.mp hrest).1
    have htaken' := (List.forall_mem_append.mp (List.forall_mem_append.mp hrest).2).1
    have hscale : (l.stated - (taken ++ dropped).length + (excess ++ (taken ++ dropped)).length : ℤ) =
        l.stated + excess.length - taken.length + taken.length := by
      simp only [List.length_append]
      omega
    obtain ⟨hbelow, habove⟩ := bounds_of_append kept hrest (l.stated - (taken ++ dropped).length)
    obtain ⟨hbelow', habove'⟩ :=
      bounds_of_append kept htaken' (l.stated + excess.length - taken.length)
    rw [hscale] at hbelow habove
    exact .of_bounds (by exact_mod_cast hkept.le hexcess hexcess') (by positivity) hbelow habove
      hbelow' habove'

theorem Rounded.near (hm : l.Rounded m) (h : l.Written t) :
    ∃ y, 0 ≤ y ∧ Within 7 l.exact y ∧ Magnitude.Nearest y m := by
  have hfits : l.decimal.1 < 2 ^ 64 := Digits.absorb_fst_lt (Digits.absorb_fst_lt (by decide))
  obtain ⟨y, hy, hnear, hm⟩ := (rounded_iff.mp hm).near hfits
  have hwithin := h.within_decimal.trans hnear
  exact ⟨y, hy, hwithin, hm⟩

/-- The double differs from the number by little, beside what the least double leaves out. -/
theorem Rounded.abs_valueOf_sub_le (hm : l.Rounded m) (h : l.Written t) :
    |valueOf m - l.exact| ≤ l.exact * 2 ^ (-49 : ℤ) + 2 ^ (-1075 : ℤ) := by
  obtain ⟨y, hy, hnear, hm⟩ := hm.near h
  exact hnear.abs_valueOf_sub_le hm l.exact_nonneg hy

theorem Rounded.exact_lt (hm : l.Rounded m) (h : l.Written t) : l.exact < 2 ^ 1024 + 2 ^ 975 := by
  obtain ⟨y, -, hnear, hm⟩ := hm.near h
  exact hnear.lt_of_nearest hm

theorem Written.exists_rounded (h : l.Written t) (hless : l.exact < 2 ^ 1024 - 2 ^ 975) :
    ∃ m, l.Rounded m := by
  have hfits : l.decimal.1 < 2 ^ 64 := Digits.absorb_fst_lt (Digits.absorb_fst_lt (by decide))
  have hnear := h.within_decimal.2
  have hhalf : (0 : ℚ) < 2 ^ 970 := by positivity
  simp only [rounded_iff]
  refine exists_scaled hfits ?_
  rw [pow_overflow.1, pow_overflow.2.2] at hless
  rw [pow_overflow.1, pow_overflow.2.1]
  generalize (2 : ℚ) ^ 970 = half at hless hhalf ⊢
  norm_num at hnear hless ⊢
  linarith

/-- A number of few digits and few places goes to the nearest double. -/
theorem Rounded.nearest (hm : l.Rounded m) (hdigits : Digits.value (l.whole ++ l.fraction) < 2 ^ 53)
    (hplaces : (l.stated - l.fraction.length).natAbs ≤ 22) : l.Nearest m := by
  have hfits : Digits.value (l.whole ++ l.fraction) < Nat.pow 2 64 := hdigits.trans (by decide)
  have hwhole : Digits.value l.whole < Nat.pow 2 64 :=
    (Digits.value_le_of_isPrefix (List.prefix_append _ _)).trans_lt hfits
  have hdecimal := decimal_eq (l := l) (List.append_nil l.whole).symm ⟨hwhole, by simp⟩
    (List.append_nil l.fraction).symm ⟨hfits, by simp⟩
  rw [rounded_iff, hdecimal, List.length_nil, Nat.cast_zero, add_zero] at hm
  exact hm.nearest hdigits hplaces

/-- Doubles that stand for literals nearly as the nearest ones do. -/
structure Approximate (D : Literal → Magnitude → Prop) : Prop where
  close : ∀ {l t m}, l.Written t → D l m →
    |valueOf m - l.exact| ≤ l.exact * 2 ^ (-49 : ℤ) + 2 ^ (-1075 : ℤ)
  finite : ∀ {l t}, l.Written t → l.exact < 2 ^ 1024 - 2 ^ 975 → ∃ m, D l m
  infinite : ∀ {l t m}, l.Written t → D l m → l.exact < 2 ^ 1024 + 2 ^ 975
  short : ∀ {l m}, Digits.value (l.whole ++ l.fraction) < 2 ^ 53 →
    (l.stated - l.fraction.length).natAbs ≤ 22 → D l m → l.Nearest m

theorem approximate_rounded : Approximate Rounded where
  close := fun h hm => hm.abs_valueOf_sub_le h
  finite := fun h hless => h.exists_rounded hless
  infinite := fun h hm => hm.exact_lt h
  short := fun hdigits hplaces hm => hm.nearest hdigits hplaces

theorem written_of_exponent {ds es : List Char} (h : Whole ds) (h' : Run es) :
    Written ⟨false, ds, [], some (false, es)⟩ (ds ++ 'e' :: es) := by
  have hwritten : Written ⟨false, ds, [], some (false, es)⟩ _ :=
    .mk h .absent (.present (.inl rfl) .absent h')
  simpa using hwritten

theorem nearest_iff_of_exponent {ds : List Char} (hfraction : l.fraction = [])
    (hexponent : l.exponent = some (false, ds)) : l.Nearest m ↔
      nearest? (Digits.value l.whole * Nat.pow 10 (Digits.value ds)) 1 = some m := by
  have hexact : l.exact = (Digits.value l.whole * Nat.pow 10 (Digits.value ds) : ℕ) := by
    simp [exact, stated, hfraction, hexponent]
  rw [nearest?_one_eq_some_iff, Literal.Nearest, hexact]

/-- A number below the overflow. The power of ten is rounded up, and so is the product. -/
def belowOverflow : Literal :=
  ⟨false, "17976931348623158".toList, [], some (false, "292".toList)⟩

/-- A number above the overflow. The power of ten is rounded down, and so is the product. -/
def aboveOverflow : Literal :=
  ⟨false, "179769313486231581".toList, [], some (false, "291".toList)⟩

theorem written_belowOverflow : belowOverflow.Written "17976931348623158e292".toList :=
  written_of_exponent ⟨⟨by decide, List.all_eq_true.mp rfl⟩, by decide⟩
    ⟨by decide, List.all_eq_true.mp rfl⟩

theorem written_aboveOverflow : aboveOverflow.Written "179769313486231581e291".toList :=
  written_of_exponent ⟨⟨by decide, List.all_eq_true.mp rfl⟩, by decide⟩
    ⟨by decide, List.all_eq_true.mp rfl⟩

theorem nearest_belowOverflow : belowOverflow.Nearest ⟨2047 * Nat.pow 2 52 - 1, by decide⟩ :=
  (nearest_iff_of_exponent rfl rfl).mpr (by decide +kernel)

theorem not_nearest_aboveOverflow (m : Magnitude) : ¬ aboveOverflow.Nearest m := fun h => by
  have hnone : nearest? (Digits.value aboveOverflow.whole *
      Nat.pow 10 (Digits.value "291".toList)) 1 = none := by decide +kernel
  rw [nearest_iff_of_exponent rfl rfl, hnone] at h
  cases h

end Literal
end Json
end PacedJobs
