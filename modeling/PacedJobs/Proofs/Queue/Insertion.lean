import Mathlib.Data.Prod.Lex
import Mathlib.Order.WithBot
import PacedJobs.Proofs.Queue.Urgency

/-!
# Urgency as a total preorder

Jobs compare like their ranks, and ranks are in a linear order. So the comparison is a total
preorder, in which all placeholders have one rank and work has the rank of its priority and its
time. In a list in this order the jobs that are not more urgent than a new one stand in front. The
bisection finds where they end, and there the new job stands behind all its equals.
-/

namespace PacedJobs
namespace Job

variable {π : Type}

/-- Where a job stands in the order of urgency: placeholders at the bottom, and work by its priority
and then by its time. -/
def rank : Job π → WithBot (ℕ ×ₗ ℕ)
  | placeholder _ => ⊥
  | work w => WithBot.some (toLex (w.priority.toNat, w.submittedAt))

variable {a b : Job π}

theorem compareUrgency_eq_compare_rank (a b : Job π) :
    a.compareUrgency b = compare a.rank b.rank := by
  cases a with
  | placeholder id =>
    cases b with
    | placeholder id' => exact (compare_eq_iff_eq.mpr rfl).symm
    | work w => exact (compare_lt_iff_lt.mpr (WithBot.bot_lt_coe _)).symm
  | work v =>
    cases b with
    | placeholder id => exact (compare_gt_iff_gt.mpr (WithBot.bot_lt_coe _)).symm
    | work w =>
      calc (work v).compareUrgency (work w)
          = compare (toLex (v.priority.toNat, v.submittedAt))
              (toLex (w.priority.toNat, w.submittedAt)) := by
            rw [Prod.Lex.compare_def]
            rfl
        _ = compare (work v).rank (work w).rank := by
            rw [← cmp_eq_compare, ← cmp_eq_compare]
            exact (WithBot.coe_strictMono.cmp_map_eq _ _).symm

theorem compareUrgency_eq_eq : a.compareUrgency b = .eq ↔ a.rank = b.rank := by
  rw [compareUrgency_eq_compare_rank, compare_eq_iff_eq]

/-- Placeholders have one rank, and work has the rank of what it is compared by. -/
theorem rank_eq_rank : a.rank = b.rank ↔
    a.isPlaceholder = true ∧ b.isPlaceholder = true ∨
      ∃ v w, a = work v ∧ b = work w ∧ v.priority = w.priority ∧
        v.submittedAt = w.submittedAt := by
  cases a with
  | placeholder id => cases b <;> simp [rank, isPlaceholder]
  | work v =>
    cases b with
    | placeholder id => simp [rank, isPlaceholder]
    | work w => simp [rank, isPlaceholder, Prod.ext_iff, UInt16.toNat_inj]

end Job

namespace Queue

variable {π : Type}

/-- What has to hold of the place of a new job among jobs in order. -/
structure Placed (j : Job π) (jobs : List (Job π)) (place : Nat) : Prop where
  /-- The jobs in front of the place are not more urgent than the new one, and all others are. -/
  front : ∀ i x, jobs[i]? = some x → (x.compareUrgency j ≠ .gt ↔ i < place)
  inside : place ≤ jobs.length
  inserted : insertSorted j jobs = jobs.insertIdx place j
  ordered : InOrder (insertSorted j jobs)
  /-- The new job is the last of its equals. -/
  last : ∀ i x, (insertSorted j jobs)[i]? = some x → x.compareUrgency j = .eq → i ≤ place

theorem InOrder.placed {jobs : List (Job π)} (h : InOrder jobs) (j : Job π) :
    Placed j jobs
      (Bisection.partitionPoint (fun queued => queued.compareUrgency j != .gt) jobs) := by
  have hordered := h.insertSorted j
  obtain ⟨ys, zs, rfl, hy, hz⟩ := h.split j
  have hplace : Bisection.partitionPoint (fun queued => queued.compareUrgency j != .gt)
      (ys ++ zs) = ys.length := Bisection.partitionPoint_append hy hz
  have hinserted := insertSorted_split hy hz
  rw [hplace]
  have hfront : ∀ i x, (ys ++ zs)[i]? = some x → (x.compareUrgency j ≠ .gt ↔ i < ys.length) := by
    intro i x hx
    by_cases hi : i < ys.length
    · rw [List.getElem?_append_left hi] at hx
      exact iff_of_true (Job.notAbove_iff.mp (hy x (List.mem_of_getElem? hx))) hi
    · rw [List.getElem?_append_right (by omega)] at hx
      have habove := Job.notAbove_eq_false_iff.mp (hz x (List.mem_of_getElem? hx))
      exact iff_of_false (by simp [habove]) hi
  refine ⟨hfront, by simp, ?_, hordered, ?_⟩
  · exact hinserted.trans (List.modifyTailIdx_add (List.cons j) 0 ys zs).symm
  · intro i x hx heq
    by_contra hlate
    rw [hinserted, List.getElem?_append_right (by omega)] at hx
    obtain ⟨k, hk⟩ : ∃ k, i - ys.length = k + 1 := ⟨i - ys.length - 1, by omega⟩
    rw [hk, List.getElem?_cons_succ] at hx
    have habove := Job.notAbove_eq_false_iff.mp (hz x (List.mem_of_getElem? hx))
    simp [heq] at habove

/-- What comparing by urgency promises to a bisection. -/
structure Bisectable (π : Type) : Prop where
  reverse : ∀ a b : Job π, b.compareUrgency a = (a.compareUrgency b).swap
  trans : ∀ a b c : Job π, a.compareUrgency b ≠ .gt → b.compareUrgency c ≠ .gt →
    a.compareUrgency c ≠ .gt
  total : ∀ a b : Job π, a.compareUrgency b ≠ .gt ∨ b.compareUrgency a ≠ .gt
  equivalence : Equivalence fun a b : Job π => a.compareUrgency b = .eq
  /-- Equals compare in the same way. -/
  congr : ∀ a a' b b' : Job π, a.compareUrgency a' = .eq → b.compareUrgency b' = .eq →
    a.compareUrgency b = a'.compareUrgency b'
  eq_iff : ∀ a b : Job π, a.compareUrgency b = .eq ↔
    a.isPlaceholder = true ∧ b.isPlaceholder = true ∨
      ∃ v w, a = .work v ∧ b = .work w ∧ v.priority = w.priority ∧ v.submittedAt = w.submittedAt
  /-- Jobs in order have a place for every new job, and the bisection finds it. -/
  placed : ∀ jobs : List (Job π), InOrder jobs → ∀ j, Placed j jobs
    (Bisection.partitionPoint (fun queued => queued.compareUrgency j != .gt) jobs)

theorem bisectable (π : Type) : Bisectable π where
  reverse a b := (Job.compareUrgency_swap a b).symm
  trans a b c hab hbc := by
    rw [← Job.notAbove_iff] at hab hbc ⊢
    exact Job.notAbove_trans hab hbc
  total a b := by
    rw [← Job.notAbove_iff, ← Job.notAbove_iff, ← Bool.or_eq_true]
    exact Job.notAbove_total a b
  equivalence := by
    simp only [Job.compareUrgency_eq_eq]
    exact ⟨fun _ => rfl, Eq.symm, Eq.trans⟩
  congr a a' b b' ha hb := by
    rw [Job.compareUrgency_eq_eq] at ha hb
    simp only [Job.compareUrgency_eq_compare_rank, ha, hb]
  eq_iff a b := Job.compareUrgency_eq_eq.trans Job.rank_eq_rank
  placed jobs h j := h.placed j

end Queue
end PacedJobs
