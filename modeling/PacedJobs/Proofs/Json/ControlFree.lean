import Mathlib.Tactic
import PacedJobs.Reply

/-!
# Written documents stay on one line

A compact document holds no control character: those of its strings and keys are escaped, and
numbers, brackets and words have none.
-/

namespace PacedJobs

def ControlFree (cs : List Char) : Prop :=
  ∀ c ∈ cs, 0x20 ≤ c.toNat

instance (cs : List Char) : Decidable (ControlFree cs) :=
  List.decidableBAll _ cs

namespace ControlFree

variable {cs ds : List Char} {c : Char}

@[simp] theorem nil : ControlFree [] := by simp [ControlFree]

@[simp] theorem cons_iff : ControlFree (c :: cs) ↔ 0x20 ≤ c.toNat ∧ ControlFree cs := by
  simp [ControlFree]

@[simp] theorem append_iff : ControlFree (cs ++ ds) ↔ ControlFree cs ∧ ControlFree ds := by
  simp [ControlFree, or_imp, forall_and]

@[simp] theorem replicate (n : Nat) (hc : 0x20 ≤ c.toNat) : ControlFree (List.replicate n c) := by
  intro d hd
  rwa [List.eq_of_mem_replicate hd]

theorem newline_not_mem (h : ControlFree cs) : '\n' ∉ cs := fun hmem => by
  have := h '\n' hmem
  simp at this

end ControlFree

theorem le_toNat_of_isDigit {c : Char} (h : c.isDigit = true) : 0x20 ≤ c.toNat := by
  simp only [Char.isDigit, Bool.and_eq_true, decide_eq_true_eq] at h
  have := UInt32.le_iff_toNat_le.mp h.1
  simp only [Char.toNat] at this ⊢
  change 48 ≤ _ at this
  omega

theorem controlFree_toDigits (n : Nat) : ControlFree (Nat.toDigits 10 n) := fun _ hc =>
  le_toNat_of_isDigit (Nat.isDigit_of_mem_toDigits (by decide) (by decide) hc)

theorem controlFree_integerText (n : Int) : ControlFree (integerText n) := by
  unfold integerText
  split
  · exact ControlFree.cons_iff.mpr ⟨by decide, controlFree_toDigits _⟩
  · exact controlFree_toDigits _

namespace Layout

theorem controlFree_exponentText (e : Int) : ControlFree (exponentText e) := by
  unfold exponentText
  refine ControlFree.cons_iff.mpr ⟨by decide, ControlFree.cons_iff.mpr ⟨?_, controlFree_toDigits _⟩⟩
  split <;> decide

theorem controlFree_place (l : Layout) {digits : List Char} (h : ControlFree digits)
    (point : Int) : ControlFree (l.place digits point) := by
  have htake : ∀ n, ControlFree (digits.take n) := fun n c hc => h c (List.mem_of_mem_take hc)
  have hdrop : ∀ n, ControlFree (digits.drop n) := fun n c hc => h c (List.mem_of_mem_drop hc)
  have hzeros : ∀ n, ControlFree (List.replicate n '0') := fun n =>
    ControlFree.replicate n (by decide)
  unfold place
  dsimp only
  split_ifs
  · simp [h, hzeros]
  · simp [htake, hdrop]
  · simp [h, hzeros]
  · cases digits with
    | nil => simp
    | cons d ds =>
      have hds := ControlFree.cons_iff.mp h
      cases ds <;> simp_all [controlFree_exponentText]

theorem controlFree_write (l : Layout) (x : Double) : ControlFree (l.write x) := by
  have hsign : ControlFree (if x.negative then ['-'] else []) := by split <;> simp
  unfold write
  split_ifs <;> simp_all [controlFree_place, controlFree_toDigits]

end Layout

namespace Json

theorem controlFree_escapeChar (c : Char) : ControlFree (Escaped.escapeChar c) := by
  have hdigit : ∀ n, n < 16 → 0x20 ≤ (Nat.digitChar n).toNat := by decide
  unfold Escaped.escapeChar
  split
  any_goals decide
  split
  next hsmall =>
    have hlt : c.toNat / 16 < 16 := by omega
    simp [hdigit _ hlt, hdigit _ (Nat.mod_lt c.toNat (by decide : 0 < 16))]
  next hlarge => simpa using hlarge

theorem controlFree_writeString (s : String) : ControlFree (Escaped.write s) := by
  have hchars : ControlFree (s.toList.flatMap Escaped.escapeChar) := by
    intro c hc
    obtain ⟨d, -, hd⟩ := List.mem_flatMap.mp hc
    exact controlFree_escapeChar d c hd
  simp [Escaped.write, hchars]

mutual

theorem controlFree_compact : ∀ v : Json, ControlFree v.compact
  | .null | .bool true | .bool false => by
    unfold compact
    decide
  | .integer n => controlFree_integerText n
  | .double x => Double.layout.controlFree_write x
  | .string s => controlFree_writeString s
  | .array [] => by simp [compact]
  | .array (v :: vs) => by
    simp [compact, controlFree_compact v, controlFree_compactItems vs]
  | .object [] => by simp [compact]
  | .object ((k, v) :: ms) => by
    simp [compact, controlFree_writeString k, controlFree_compact v,
      controlFree_compactMembers ms]

theorem controlFree_compactItems : ∀ vs : List Json, ControlFree (compactItems vs)
  | [] => by simp [compactItems]
  | v :: vs => by simp [compactItems, controlFree_compact v, controlFree_compactItems vs]

theorem controlFree_compactMembers : ∀ ms : List (String × Json), ControlFree (compactMembers ms)
  | [] => by simp [compactMembers]
  | (k, v) :: ms => by
    simp [compactMembers, controlFree_writeString k, controlFree_compact v,
      controlFree_compactMembers ms]

end

end Json

theorem Reply.controlFree_write (r : Reply) : ControlFree r.write :=
  Json.controlFree_compact _

end PacedJobs
