import Mathlib.Data.List.Basic
import Mathlib.Order.Compare
import Mathlib.Tactic
import PacedJobs.Queue.Basic

/-!
# The order of urgency

Comparing jobs by urgency is a total preorder: placeholders stand below all work and are equal among
themselves, and work is in the lexicographic order of priority and time. Jobs that stand in this
order fall into two parts at every job, those that are not more urgent and those that are. So the
place of an insertion is the number of the first, and inserting keeps the order.
-/

namespace PacedJobs
namespace Job

variable {π : Type}

/-- Whether a job is at most as urgent as another. -/
def notAbove (a b : Job π) : Bool :=
  a.compareUrgency b != .gt

theorem notAbove_iff {a b : Job π} : a.notAbove b = true ↔ a.compareUrgency b ≠ .gt := by
  simp [notAbove]

theorem notAbove_eq_false_iff {a b : Job π} :
    a.notAbove b = false ↔ a.compareUrgency b = .gt := by
  simp [notAbove]

@[simp] theorem placeholder_notAbove (id : JobId) (b : Job π) :
    (placeholder id).notAbove b = true := by
  cases b <;> rfl

@[simp] theorem work_notAbove_placeholder (w : Work π) (id : JobId) :
    (work w).notAbove (placeholder id) = false := rfl

theorem work_notAbove_work {v w : Work π} :
    (work v).notAbove (work w) = true ↔
      v.priority.toNat < w.priority.toNat ∨
        v.priority.toNat = w.priority.toNat ∧ v.submittedAt ≤ w.submittedAt := by
  rw [notAbove_iff, compareUrgency]
  rcases Nat.lt_trichotomy v.priority.toNat w.priority.toNat with h | h | h
  · have hc : compare v.priority.toNat w.priority.toNat = .lt := compare_lt_iff_lt.mpr h
    simp [hc, Ordering.then, h]
  · simp [Ordering.then, h, compare_gt_iff_gt]
  · have hc : compare v.priority.toNat w.priority.toNat = .gt := compare_gt_iff_gt.mpr h
    simp only [hc, Ordering.then, ne_eq, not_true_eq_false, false_iff]
    omega

theorem compareUrgency_swap (a b : Job π) : (a.compareUrgency b).swap = b.compareUrgency a := by
  cases a <;> cases b <;> try rfl
  simp only [compareUrgency, Ordering.swap_then, Nat.compare_swap]

theorem notAbove_refl (a : Job π) : a.notAbove a = true := by
  cases a with
  | placeholder id => simp
  | work w => exact work_notAbove_work.mpr (.inr ⟨rfl, le_rfl⟩)

theorem notAbove_total (a b : Job π) : (a.notAbove b || b.notAbove a) = true := by
  cases a with
  | placeholder id => simp
  | work v =>
    cases b with
    | placeholder id => simp
    | work w =>
      rw [Bool.or_eq_true, work_notAbove_work, work_notAbove_work]
      omega

theorem notAbove_trans {a b c : Job π} (hab : a.notAbove b = true) (hbc : b.notAbove c = true) :
    a.notAbove c = true := by
  cases a with
  | placeholder id => simp
  | work u =>
    cases b with
    | placeholder id => simp at hab
    | work v =>
      cases c with
      | placeholder id => simp at hbc
      | work w =>
        rw [work_notAbove_work] at hab hbc ⊢
        omega

theorem notAbove_of_notAbove_eq_false {a b : Job π} (h : a.notAbove b = false) :
    b.notAbove a = true := by
  have := notAbove_total a b
  simpa [h] using this

theorem isPlaceholder_of_notAbove {a b : Job π} (h : a.notAbove b = true)
    (hb : b.isPlaceholder = true) : a.isPlaceholder = true := by
  cases a with
  | placeholder id => rfl
  | work v =>
    cases b with
    | placeholder id => simp at h
    | work w => simp [isPlaceholder] at hb

end Job

namespace Queue

variable {π : Type}

/-- Jobs from the least to the most urgent. -/
def InOrder (jobs : List (Job π)) : Prop :=
  jobs.Pairwise fun a b => a.notAbove b = true

/-- Jobs in order fall into those that are not more urgent than a job and those that are. -/
theorem InOrder.split {jobs : List (Job π)} (h : InOrder jobs) (j : Job π) :
    ∃ ys zs, jobs = ys ++ zs ∧ (∀ x ∈ ys, x.notAbove j = true) ∧
      ∀ x ∈ zs, x.notAbove j = false := by
  induction jobs with
  | nil => exact ⟨[], [], rfl, by simp, by simp⟩
  | cons x xs ih =>
    obtain ⟨hx, hxs⟩ := List.pairwise_cons.mp h
    by_cases hj : x.notAbove j = true
    · obtain ⟨ys, zs, rfl, hy, hz⟩ := ih hxs
      refine ⟨x :: ys, zs, rfl, ?_, hz⟩
      intro y hmem
      rcases List.mem_cons.mp hmem with rfl | hmem
      · exact hj
      · exact hy y hmem
    · refine ⟨[], x :: xs, rfl, by simp, ?_⟩
      intro y hmem
      rcases List.mem_cons.mp hmem with rfl | hmem
      · simpa using hj
      · by_contra hy
        exact hj (Job.notAbove_trans (hx y hmem) (by simpa using hy))

theorem insertSorted_split {j : Job π} {ys zs : List (Job π)}
    (hy : ∀ x ∈ ys, x.notAbove j = true) (hz : ∀ x ∈ zs, x.notAbove j = false) :
    insertSorted j (ys ++ zs) = ys ++ j :: zs :=
  insertSorted_append (fun x hx => Job.notAbove_iff.mp (hy x hx))
    (fun x hx => Job.notAbove_eq_false_iff.mp (hz x hx))

theorem InOrder.insertSorted {jobs : List (Job π)} (h : InOrder jobs) (j : Job π) :
    InOrder (insertSorted j jobs) := by
  obtain ⟨ys, zs, rfl, hy, hz⟩ := h.split j
  rw [insertSorted_split hy hz]
  obtain ⟨hys, hzs, hyz⟩ := List.pairwise_append.mp h
  refine List.pairwise_append.mpr ⟨hys, List.pairwise_cons.mpr ⟨?_, hzs⟩, ?_⟩
  · intro z hmem
    exact Job.notAbove_of_notAbove_eq_false (hz z hmem)
  · intro y hmem z hmem'
    rcases List.mem_cons.mp hmem' with rfl | hmem'
    · exact hy y hmem
    · exact hyz y hmem z hmem'

theorem InOrder.placeholders_first {jobs : List (Job π)} (h : InOrder jobs) :
    ∃ ps ws, jobs = ps ++ ws ∧ (∀ j ∈ ps, j.isPlaceholder = true) ∧
      ∀ j ∈ ws, j.isPlaceholder = false := by
  obtain ⟨ps, ws, rfl, hp, hw⟩ := h.split (.placeholder ⟨0⟩)
  refine ⟨ps, ws, rfl, fun j hj => Job.isPlaceholder_of_notAbove (hp j hj) rfl, ?_⟩
  intro j hj
  have hnot := hw j hj
  cases j with
  | placeholder id => simp at hnot
  | work w => rfl

/-- In order, a block of placeholders goes where they would go one after the other. -/
theorem InOrder.insertPlaceholders_eq {jobs : List (Job π)} (h : InOrder jobs)
    (ids : List JobId) :
    insertPlaceholders ids jobs =
      (ids.map Job.placeholder).foldl (fun jobs j => Queue.insertSorted j jobs) jobs := by
  obtain ⟨ps, ws, rfl, hp, hw⟩ := h.placeholders_first
  rw [insertPlaceholders_append hp hw, List.foldl_map]

end Queue
end PacedJobs
