import Mathlib.Data.List.Forall2
import PacedJobs.Json.Printer
import PacedJobs.Proofs.Json.Members

/-!
# What compact documents denote

The compact form of a value whose numbers are integers is a text of that value: strings are spelled
as they are to be read, integers are written as literals that denote them, and the brackets and
commas stand where the grammar has them.
-/

namespace PacedJobs
namespace Json

/-! ### Strings -/

namespace Escaped

theorem hexValue?_control {n : Nat} (h : n < 0x20) :
    hexValue? ['0', '0', Nat.digitChar (n / 16), Nat.digitChar (n % 16)] = some n := by
  revert n
  decide

theorem spelled_escapeChar (c : Char) : Spelled (escapeChar c) c := by
  unfold escapeChar
  split
  case h_8 hquote hslash _ _ _ _ _ =>
    split
    next hlow =>
      have hcode : Spelled ('\\' :: 'u' ::
          ['0', '0', Nat.digitChar (c.toNat / 16), Nat.digitChar (c.toNat % 16)])
          (Char.ofNat c.toNat) := by
        refine .code (hexValue?_control hlow) ?_ ?_
        · simp [isLeading]
          omega
        · simp [isTrailing]
          omega
      rwa [Char.ofNat_toNat] at hcode
    next hlow => exact .plain (Nat.le_of_not_lt hlow) hquote hslash
  all_goals exact .short (by simp [shortEscapes])

theorem quoted_write (s : String) : Quoted (write s) s := by
  have hspelled : List.Forall₂ Spelled (s.toList.map escapeChar) s.toList :=
    List.forall₂_map_left_iff.mpr (List.forall₂_same.mpr fun c _ => spelled_escapeChar c)
  have hquoted := Quoted.mk hspelled
  rwa [String.ofList_toList, ← List.flatMap_def] at hquoted

end Escaped

/-! ### Integers -/

namespace Literal

theorem isDigit_of_mem_toDigits {n : Nat} {c : Char} (h : c ∈ Nat.toDigits 10 n) :
    Digits.isDigit c = true :=
  Nat.isDigit_of_mem_toDigits (by decide) (by decide) h

theorem digit_eq {c : Char} (h : Digits.isDigit c = true) :
    Digits.digit c = c.toNat - '0'.toNat := by
  have hle : (48 : UInt32) ≤ c.val := by
    simp only [Digits.isDigit, Bool.and_eq_true, decide_eq_true_eq] at h
    exact h.1
  exact UInt32.toNat_sub_of_le c.val 48 hle

theorem valueFrom_eq {ds : List Char} (h : ∀ c ∈ ds, Digits.isDigit c = true) (n : Nat) :
    Digits.valueFrom n ds = Nat.ofDigitChars 10 ds n := by
  induction ds generalizing n with
  | nil => rfl
  | cons c ds ih =>
    obtain ⟨hc, hds⟩ := List.forall_mem_cons.mp h
    rw [Digits.valueFrom, Nat.ofDigitChars_cons, digit_eq hc, ih hds]

theorem value_toDigits (n : Nat) : Digits.value (Nat.toDigits 10 n) = n := by
  rw [Digits.value, valueFrom_eq fun _ => isDigit_of_mem_toDigits, Nat.ofDigitChars_ten_toDigits]

theorem eq_zero_of_head?_toDigits {n : Nat} (h : (Nat.toDigits 10 n).head? = some '0') : n = 0 := by
  induction n using Nat.strongRecOn with
  | ind n ih =>
    by_cases hn : n < 10
    · have hdigit : ∀ m < 10, some (Nat.digitChar m) = some '0' → m = 0 := by decide
      rw [Nat.toDigits_of_lt_base hn] at h
      exact hdigit n hn h
    · rw [Nat.toDigits_of_base_le (by decide) (by omega),
        List.head?_append_of_ne_nil _ Nat.toDigits_ne_nil] at h
      have := ih (n / 10) (by omega) h
      omega

theorem whole_toDigits (n : Nat) : Whole (Nat.toDigits 10 n) := by
  refine ⟨⟨Nat.toDigits_ne_nil, fun _ => isDigit_of_mem_toDigits⟩, fun h => ?_⟩
  rw [eq_zero_of_head?_toDigits h]
  rfl

def ofInt (n : Int) : Literal :=
  ⟨decide (n < 0), Nat.toDigits 10 n.natAbs, [], none⟩

theorem written_integerText (n : Int) : (ofInt n).Written (integerText n) := by
  have hwritten : (ofInt n).Written _ := .mk (whole_toDigits n.natAbs) .absent .absent
  unfold integerText
  by_cases hn : n < 0 <;> simpa [ofInt, hn] using hwritten

theorem integral_ofInt {n : Int} (h : Fits n) : (ofInt n).Integral n where
  fraction_eq := rfl
  exponent_eq := rfl
  value_eq := by
    simp only [ofInt, value_toDigits, decide_eq_true_eq]
    split <;> omega
  signed := of_decide_eq_true
  fits := h

end Literal

/-! ### Values -/

def FitsInteger : Json → Prop
  | .integer n => Fits n
  | .double _ => False
  | _ => True

/-- The numbers in the value are integers that documents hold. -/
def Integral (v : Json) : Prop :=
  v.All FitsInteger

theorem compactItems_eq (vs : List Json) :
    compactItems vs = (vs.map compact).flatMap (',' :: ·) ++ [']'] := by
  induction vs with
  | nil => rfl
  | cons v vs ih => simp [compactItems, ih]

def compactMember (m : String × Json) : List Char :=
  Escaped.write m.1 ++ ':' :: m.2.compact

theorem compactMembers_eq (ms : List (String × Json)) :
    compactMembers ms = (ms.map compactMember).flatMap (',' :: ·) ++ ['\x7d'] := by
  induction ms with
  | nil => rfl
  | cons m ms ih => simp [compactMembers, compactMember, ih]

theorem Padded.bare {α : Type} {R : List Char → α → Prop} {t : List Char} {x : α} (h : R t x) :
    Padded R t x := by
  have hpadded : Padded R ([] ++ t ++ []) x := .mk white_nil h white_nil
  simpa using hpadded

theorem paired_compactMember {m : String × Json} (h : Denotes m.2.compact m.2) :
    Paired Denotes (compactMember m) m := by
  have hpaired : Paired Denotes (Escaped.write m.1 ++ [] ++ ':' :: [] ++ m.2.compact) m :=
    .mk (Escaped.quoted_write m.1) white_nil white_nil h
  simpa [compactMember] using hpaired

mutual

/-- The compact form of a value whose numbers are integers is a text of it. -/
theorem denotes_compact : ∀ v : Json, v.Integral → Denotes v.compact v
  | .null, _ => .null
  | .bool true, _ => .bool true
  | .bool false, _ => .bool false
  | .integer n, h => .number (Literal.written_integerText n) (.integer (Literal.integral_ofInt h))
  | .double _, h => h.elim
  | .string s, _ => .string (Escaped.quoted_write s)
  | .array [], _ => DenotesBy.array (t := []) (.none white_nil)
  | .array (v :: vs), h => by
    have hseries : Series Denotes (v.compact ++ (vs.map compact).flatMap (',' :: ·)) (v :: vs) :=
      .some (.bare (denotes_compact v h.2.1)) (forall₂_compact vs h.2.2)
    simpa [compact, compactItems_eq] using DenotesBy.array hseries
  | .object [], _ => DenotesBy.object (t := []) (.none white_nil)
  | .object ((k, v) :: ms), h => by
    have hseries : Series (Paired Denotes)
        (compactMember (k, v) ++ (ms.map compactMember).flatMap (',' :: ·)) ((k, v) :: ms) :=
      .some (.bare (paired_compactMember (denotes_compact v h.2.1)))
        (forall₂_compactMember ms h.2.2)
    simpa [compact, compactMember, compactMembers_eq] using DenotesBy.object hseries

theorem forall₂_compact : ∀ vs : List Json, AllItems FitsInteger vs →
    List.Forall₂ (Padded Denotes) (vs.map compact) vs
  | [], _ => .nil
  | v :: vs, h => .cons (.bare (denotes_compact v h.1)) (forall₂_compact vs h.2)

theorem forall₂_compactMember : ∀ ms : List (String × Json), AllMembers FitsInteger ms →
    List.Forall₂ (Padded (Paired Denotes)) (ms.map compactMember) ms
  | [], _ => .nil
  | (_, v) :: ms, h =>
    .cons (.bare (paired_compactMember (denotes_compact v h.1))) (forall₂_compactMember ms h.2)

end

theorem isText_compact {v : Json} (h : v.Integral) : IsText v.compact v :=
  .bare (denotes_compact v h)

end Json
end PacedJobs
