import PacedJobs.Proofs.Pool.Moves

/-!
# Runs of a pool

A run takes one step after the other, in whatever order the labels say. What every move keeps holds
of all that a run can reach.
-/

namespace PacedJobs
namespace Pool

variable {π ω : Type}

/-- Takes the steps of all labels, if they are possible one after the other. -/
def run? (p : Pool π ω) : List (Label π ω) → Option (Pool π ω)
  | [] => some p
  | l :: ls => (p.step l).bind fun q => q.run? ls

variable {p q r : Pool π ω}

theorem run?_cons {l : Label π ω} {ls : List (Label π ω)} :
    p.run? (l :: ls) = some r ↔ ∃ q, p.step l = some q ∧ q.run? ls = some r :=
  Option.bind_eq_some_iff

theorem run?_append {ls ms : List (Label π ω)} :
    p.run? (ls ++ ms) = some r ↔ ∃ q, p.run? ls = some q ∧ q.run? ms = some r := by
  induction ls generalizing p with
  | nil => simp [run?]
  | cons l ls ih =>
    rw [List.cons_append, run?_cons]
    constructor
    · rintro ⟨s, hs, hrun⟩
      obtain ⟨q, hq, hr⟩ := ih.mp hrun
      exact ⟨q, run?_cons.mpr ⟨s, hs, hq⟩, hr⟩
    · rintro ⟨q, hrun, hr⟩
      obtain ⟨s, hs, hq⟩ := run?_cons.mp hrun
      exact ⟨s, hs, ih.mpr ⟨q, hq, hr⟩⟩

theorem invariant_run? {I : Pool π ω → Prop}
    (hmove : ∀ {p l q}, I p → Move p l q → I q) {ls : List (Label π ω)} (hp : I p)
    (h : p.run? ls = some q) : I q := by
  induction ls generalizing p with
  | nil =>
    cases h
    exact hp
  | cons l ls ih =>
    obtain ⟨s, hs, hrun⟩ := run?_cons.mp h
    exact ih (hmove hp (move_of_step hs)) hrun

/-- What holds at first and is kept by every step at the end of a run holds of the run. -/
theorem run_induction {I : List (Label π ω) → Pool π ω → Prop} (hnil : I [] p)
    (hmove : ∀ ls l q r, p.run? ls = some q → I ls q → Move q l r → I (ls ++ [l]) r)
    {ls : List (Label π ω)} (h : p.run? ls = some q) : I ls q := by
  induction ls using List.reverseRecOn generalizing q with
  | nil =>
    cases h
    exact hnil
  | append_singleton ls l ih =>
    obtain ⟨s, hs, hlast⟩ := run?_append.mp h
    obtain ⟨q', hq', hrest⟩ := run?_cons.mp hlast
    cases hrest
    exact hmove ls l s q hs (ih hs) (move_of_step hq')

theorem history_of_run {ls : List (Label π ω)} (h : p.run? ls = some q) :
    ∃ es, q.history = es ++ p.history := by
  refine invariant_run? (I := fun q => ∃ es, q.history = es ++ p.history) ?_ ⟨[], rfl⟩ h
  rintro q l r ⟨es, hes⟩ hmove
  obtain ⟨es', hes'⟩ := hmove.exists_history_eq
  exact ⟨es' ++ es, by rw [hes', hes, List.append_assoc]⟩

/-- A run without end is at every moment what the run up to then has made. -/
theorem run?_map_range {s : Nat → Pool π ω} {ls : Nat → Label π ω}
    (hstep : ∀ n, (s n).step (ls n) = some (s (n + 1))) (n : Nat) :
    (s 0).run? ((List.range n).map ls) = some (s n) := by
  induction n with
  | zero => rfl
  | succ n ih =>
    rw [List.range_succ, List.map_append, run?_append]
    exact ⟨s n, ih, run?_cons.mpr ⟨s (n + 1), hstep n, rfl⟩⟩

end Pool
end PacedJobs
