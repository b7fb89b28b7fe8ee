import PacedJobs.Proofs.Decimal.Shortest
import PacedJobs.Proofs.Json.Compact
import PacedJobs.Proofs.Json.NumberFronts

/-!
# How numbers in documents are cut off

The text of an integer or a double is a literal, and the digits before the point of a double are
sixteen at most. So every front of the text of a number that can be read can be read as well, unless
more has to follow.
-/

namespace PacedJobs
namespace Json
namespace Literal

variable {ds : List Char} {d : Char} {n : Nat}

theorem value_lt_of_length_le (h : Run ds) (hlength : ds.length ≤ 16) :
    Digits.value ds < Nat.pow 2 64 := by
  have hmono : 10 ^ ds.length ≤ 10 ^ 16 := Nat.pow_le_pow_right (by decide) hlength
  have hlimit : 10 ^ 16 < Nat.pow 2 64 := by decide
  exact (Digits.value_lt h.2).trans (hmono.trans_lt hlimit)

theorem exponentText_exponent (e : Int) : ExponentText
    (some (decide (e < 0), Nat.toDigits 10 e.natAbs)) (Layout.exponentText e) := by
  have hrun : Run (Nat.toDigits 10 e.natAbs) := (whole_toDigits _).1
  unfold Layout.exponentText
  by_cases he : e < 0
  · simpa [he] using ExponentText.present (.inl rfl) .minus hrun
  · simpa [he] using ExponentText.present (.inl rfl) .plus hrun

theorem run_zeros (n : Nat) : ∀ c ∈ List.replicate n '0', Digits.isDigit c = true := by
  intro c hc
  rw [List.eq_of_mem_replicate hc]
  rfl

theorem whole_singleton (h : Digits.isDigit d = true) : Whole [d] := by
  refine ⟨⟨by simp, List.forall_mem_singleton.mpr h⟩, fun hhead => ?_⟩
  cases hhead
  rfl

/-- A literal without a sign, which has at most sixteen digits before its point. -/
inductive Unsigned : List Char → Prop
  | mk {whole fraction fractionText exponentText : List Char}
      {exponent : Option (Bool × List Char)} : Whole whole → FractionText fraction fractionText →
      ExponentText exponent exponentText → whole.length ≤ 16 →
      Unsigned (whole ++ fractionText ++ exponentText)

theorem unsigned_place {layout : Layout} (hlayout : layout.plainUpTo ≤ 16) (hn : n ≠ 0)
    (point : Int) : Unsigned (layout.place (Nat.toDigits 10 n) point) := by
  have hwhole := whole_toDigits n
  have hhead : (Nat.toDigits 10 n).head? ≠ some '0' := fun hhead =>
    hn (eq_zero_of_head?_toDigits hhead)
  generalize Nat.toDigits 10 n = ds at hwhole hhead
  obtain ⟨hne, hds⟩ := hwhole.1
  unfold Layout.place
  dsimp only
  split_ifs with hinteger hpoint hsmall
  · have hplaces : Whole (ds ++ List.replicate (point - ds.length).toNat '0') := by
      refine ⟨⟨by simp [hne], List.forall_mem_append.mpr ⟨hds, run_zeros _⟩⟩, fun hzero => ?_⟩
      rw [List.head?_append_of_ne_nil _ hne] at hzero
      exact absurd hzero hhead
    have hlength : (ds ++ List.replicate (point - ds.length).toNat '0').length ≤ 16 := by
      simp only [List.length_append, List.length_replicate]
      omega
    simpa using Unsigned.mk hplaces (.present (whole_singleton (d := '0') rfl).1) .absent hlength
  · have hlength : 0 < point.toNat ∧ point.toNat < ds.length := by omega
    have hplaces : Whole (ds.take point.toNat) :=
      hwhole.of_isPrefix (List.take_prefix _ _) (by simp [hne]; omega)
    have hfraction : Run (ds.drop point.toNat) :=
      ⟨by simpa using hlength.2, fun c hc => hds c (List.mem_of_mem_drop hc)⟩
    have hlength' : (ds.take point.toNat).length ≤ 16 := by
      rw [List.length_take]
      omega
    simpa using Unsigned.mk hplaces (.present hfraction) .absent hlength'
  · have hfraction : Run (List.replicate (-point).toNat '0' ++ ds) :=
      ⟨by simp [hne], List.forall_mem_append.mpr ⟨run_zeros _, hds⟩⟩
    have hzero := whole_singleton (d := '0') rfl
    simpa using Unsigned.mk hzero (.present hfraction) .absent (by decide)
  · have hexponent := exponentText_exponent (point - 1)
    cases ds with
    | nil => exact absurd rfl hne
    | cons d ds =>
      obtain ⟨hd, hds⟩ := List.forall_mem_cons.mp hds
      cases ds with
      | nil => simpa using Unsigned.mk (whole_singleton hd) .absent hexponent (by simp)
      | cons c cs =>
        have hfraction : Run (c :: cs) := ⟨by simp, hds⟩
        simpa using Unsigned.mk (whole_singleton hd) (.present hfraction) hexponent (by simp)

theorem exists_written_text (x : Double) : ∃ l : Literal, l.Written x.text ∧ l.Plain := by
  obtain ⟨t, htext, ht⟩ : ∃ t, x.text = (if x.negative then ['-'] else []) ++ t ∧ Unsigned t := by
    unfold Double.text Layout.write
    dsimp only
    by_cases hzero : x.magnitude = Magnitude.zero
    · have hdigit := whole_singleton (d := '0') rfl
      exact ⟨['0', '.', '0'], if_pos hzero, .mk hdigit (.present hdigit.1) .absent (by decide)⟩
    · have hlayout : Double.layout.plainUpTo ≤ 16 := le_rfl
      exact ⟨_, if_neg hzero, unsigned_place hlayout (Shortest.digits_ne_zero hzero) _⟩
  obtain @⟨whole, fraction, _, _, exponent, hwhole, hfraction, hexponent, hlength⟩ := ht
  have hfits := value_lt_of_length_le hwhole.1 hlength
  refine ⟨⟨x.negative, whole, fraction, exponent⟩, ?_, .inl hfits⟩
  rw [htext, ← List.append_assoc, ← List.append_assoc]
  exact .mk hwhole hfraction hexponent

theorem plain_ofInt (n : Int) : (ofInt n).Plain :=
  .inr ⟨rfl, rfl⟩

end Literal
end Json
end PacedJobs
