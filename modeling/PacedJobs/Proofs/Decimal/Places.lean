import Mathlib.Data.List.Induction
import Mathlib.Tactic.Ring
import Mathlib.Tactic.SplitIfs
import PacedJobs.Decimal.Digits

/-!
# Digits and their places

The value of a run of digits is less than the power of ten that has as many places. Of a run behind
another, the first one counts by the places of the second.
-/

namespace PacedJobs
namespace Digits

variable {limit n : Nat} {c : Char} {ds us kept rest : List Char}

/-! ### Values -/

theorem digit_lt (h : isDigit c = true) : digit c < 10 := by
  simp only [isDigit, Bool.and_eq_true, decide_eq_true_eq] at h
  have hlower : (48 : UInt32) ≤ c.val := h.1
  have hupper : c.val.toNat ≤ 57 := h.2
  rw [digit, UInt32.toNat_sub_of_le _ _ hlower]
  change c.val.toNat - 48 < 10
  omega

theorem valueFrom_append (n : Nat) (ds us : List Char) :
    valueFrom n (ds ++ us) = valueFrom (valueFrom n ds) us := by
  induction ds generalizing n with
  | nil => rfl
  | cons c ds ih => exact ih _

theorem valueFrom_eq_add (n : Nat) (ds : List Char) :
    valueFrom n ds = n * 10 ^ ds.length + value ds := by
  induction ds generalizing n with
  | nil => simp [valueFrom, value]
  | cons c ds ih =>
    rw [value, valueFrom, valueFrom, ih, ih (10 * 0 + digit c), List.length_cons, Nat.pow_succ]
    ring

theorem value_append (ds us : List Char) :
    value (ds ++ us) = value ds * 10 ^ us.length + value us := by
  rw [value, valueFrom_append, valueFrom_eq_add]
  rfl

theorem value_append_singleton (ds : List Char) (c : Char) :
    value (ds ++ [c]) = 10 * value ds + digit c := by
  rw [value, valueFrom_append]
  rfl

theorem value_lt (h : ∀ c ∈ ds, isDigit c = true) : value ds < 10 ^ ds.length := by
  induction ds using List.reverseRecOn with
  | nil => decide
  | append_singleton ds c ih =>
    obtain ⟨hds, hc⟩ := List.forall_mem_append.mp h
    have hlt := ih hds
    have hdigit := digit_lt (hc c (List.mem_singleton_self c))
    rw [value_append_singleton, List.length_append, List.length_singleton, Nat.pow_succ]
    omega

theorem value_le_of_isPrefix (h : ds <+: us) : value ds ≤ value us := by
  obtain ⟨vs, rfl⟩ := h
  rw [value, value, valueFrom_append]
  exact le_valueFrom _ _

/-! ### Digits that fit -/

theorem absorb_fst_lt (h : n < limit) : (absorb limit n ds).1 < limit := by
  induction ds generalizing n with
  | nil => exact h
  | cons c ds ih =>
    unfold absorb
    split_ifs with hc
    · exact ih hc
    · exact h

/-- Digits behind the first that does not fit are left over with it. -/
theorem absorb_append (h : (absorb limit n ds).2 ≠ []) :
    absorb limit n (ds ++ us) = ((absorb limit n ds).1, (absorb limit n ds).2 ++ us) := by
  induction ds generalizing n with
  | nil => exact absurd rfl h
  | cons c ds ih =>
    rw [List.cons_append]
    unfold absorb at h ⊢
    split_ifs at h ⊢ with hc
    · exact ih h
    · rfl

theorem exists_absorb (h : n < limit) (ds : List Char) : ∃ kept rest, ds = kept ++ rest ∧
    absorb limit n ds = (valueFrom n kept, rest) ∧ valueFrom n kept < limit ∧
      ∀ c ∈ rest.head?, limit ≤ valueFrom n (kept ++ [c]) := by
  induction ds generalizing n with
  | nil => exact ⟨[], [], rfl, rfl, h, by simp⟩
  | cons c ds ih =>
    unfold absorb
    split_ifs with hc
    · obtain ⟨kept, rest, rfl, habsorb, hlt, hrest⟩ := ih hc
      exact ⟨c :: kept, rest, rfl, habsorb, hlt, hrest⟩
    · refine ⟨[], c :: ds, rfl, rfl, h, fun d hd => ?_⟩
      obtain rfl : c = d := by simpa using hd
      exact not_lt.mp hc

theorem absorb_eq_of_fits (h : valueFrom n kept < limit)
    (hrest : ∀ c ∈ rest.head?, limit ≤ valueFrom n (kept ++ [c])) :
    absorb limit n (kept ++ rest) = (valueFrom n kept, rest) := by
  induction kept generalizing n with
  | nil =>
    cases rest with
    | nil => rfl
    | cons c rest => exact if_neg (not_lt.mpr (hrest c rfl))
  | cons c kept ih =>
    have hc : 10 * n + digit c < limit := (le_valueFrom _ kept).trans_lt h
    rw [List.cons_append, absorb, if_pos hc]
    exact ih h hrest

end Digits
end PacedJobs
