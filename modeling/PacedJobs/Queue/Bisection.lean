/-!
# Bisection

The place in a list where a predicate stops holding, found by halving. The predicate is evaluated at
as many elements as the length of the list has binary digits.
-/

namespace PacedJobs
namespace Bisection

variable {α : Type}

/-- Halves the list at most `n` times. -/
def search (p : α → Bool) : Nat → List α → Nat
  | 0, _ => 0
  | n + 1, xs =>
    let half := xs.length / 2
    match xs.drop half with
    | [] => 0
    | x :: behind =>
      if p x then half + 1 + search p n behind else search p n (xs.take half)

/-- The number of leading elements with the predicate, in a list where no element without it
stands before one with it. -/
def partitionPoint (p : α → Bool) (xs : List α) : Nat :=
  search p xs.length xs

theorem search_append {p : α → Bool} {ys zs : List α} (hy : ∀ x ∈ ys, p x)
    (hz : ∀ x ∈ zs, p x = false) {n : Nat} (hn : ys.length + zs.length ≤ n) :
    search p n (ys ++ zs) = ys.length := by
  induction n generalizing ys zs with
  | zero =>
    have hl : ys.length = 0 := by omega
    simp [search, hl]
  | succ n ih =>
    rw [search]
    by_cases he : ys ++ zs = []
    · obtain ⟨rfl, rfl⟩ := List.append_eq_nil_iff.mp he
      simp
    · have hpos := List.length_pos_iff.mpr he
      have hhalf : (ys ++ zs).length / 2 < (ys ++ zs).length := by omega
      generalize (ys ++ zs).length / 2 = half at hhalf ⊢
      have hsum := List.length_append ▸ hhalf
      simp only [List.drop_eq_getElem_cons hhalf]
      by_cases hlt : half < ys.length
      · have hp : p (ys ++ zs)[half] := by
          rw [List.getElem_append_left hlt]
          exact hy _ (List.getElem_mem hlt)
        have hrec : search p n (ys.drop (half + 1) ++ zs) = (ys.drop (half + 1)).length :=
          ih (fun x hx => hy x (List.mem_of_mem_drop hx)) hz (by rw [List.length_drop]; omega)
        rw [if_pos hp, List.drop_append_of_le_length hlt, hrec, List.length_drop]
        omega
      · have hp : p (ys ++ zs)[half] = false := by
          rw [List.getElem_append_right (by omega)]
          exact hz _ (List.getElem_mem _)
        have hrec : search p n (ys ++ zs.take (half - ys.length)) = ys.length :=
          ih hy (fun x hx => hz x (List.mem_of_mem_take hx)) (by rw [List.length_take]; omega)
        rw [if_neg (by simp [hp]), List.take_append, List.take_of_length_le (by omega), hrec]

/-- Where the elements with the predicate stand in front, their number is found. -/
theorem partitionPoint_append {p : α → Bool} {ys zs : List α} (hy : ∀ x ∈ ys, p x)
    (hz : ∀ x ∈ zs, p x = false) : partitionPoint p (ys ++ zs) = ys.length :=
  search_append hy hz (Nat.le_of_eq List.length_append.symm)

end Bisection
end PacedJobs
