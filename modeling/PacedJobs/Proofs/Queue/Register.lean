import PacedJobs.Proofs.Queue.Urgency
import PacedJobs.Queue.Sweep

/-!
# The register of arrivals

A register keeps the jobs of a queue in the plainest way, in the order of their last insertion and
each with the number of that insertion. It says what a queue has to do without keeping anything in
order of urgency: the ranking is worked out by a stable sort whenever it is asked for.
-/

namespace PacedJobs

namespace Queue

/-- What may be asked of a queue. A predicate may remember the views it has seen. -/
inductive Request (π : Type) where
  | push (job : Job π)
  | reserve (ids : List JobId)
  | pop
  | delete (id : JobId)
  | deleteWhere (condemns : Array (View π) → View π → Bool)
  | close

end Queue

/-- A judge that answers every view. -/
def Judge.ofAnswers {π : Type} (condemns : Array (View π) → View π → Bool) : Judge π :=
  fun seen v => if condemns seen v then .remove else .keep

/-- The answers for jobs that are shown one after the other. -/
def Judge.answers {π : Type} (condemns : Array (View π) → View π → Bool) :
    Array (View π) → List (Job π) → List Bool
  | _, [] => []
  | seen, j :: js => condemns seen j.view :: answers condemns (seen.push j.view) js

/-- A job with the number of its last insertion. -/
structure Arrival (π : Type) where
  number : Nat
  job : Job π

namespace Arrival

variable {π : Type}

/-- The earliest of the least urgent among arrivals. -/
def IsEarliestLeastUrgent (a : Arrival π) (present : List (Arrival π)) : Prop :=
  ∃ earlier later, present = earlier ++ a :: later ∧
    (∀ b ∈ present, a.job.notAbove b.job = true) ∧ ∀ b ∈ earlier, b.job.notAbove a.job = false

def IsLatestMostUrgent (a : Arrival π) (present : List (Arrival π)) : Prop :=
  ∃ earlier later, present = earlier ++ a :: later ∧
    (∀ b ∈ present, b.job.notAbove a.job = true) ∧ ∀ b ∈ later, a.job.notAbove b.job = false

theorem IsEarliestLeastUrgent.notAbove {a b : Arrival π} {present : List (Arrival π)}
    (h : a.IsEarliestLeastUrgent present) (hb : b ∈ present) : a.job.notAbove b.job = true := by
  obtain ⟨-, -, -, hleast, -⟩ := h
  exact hleast b hb

theorem IsLatestMostUrgent.notAbove {a b : Arrival π} {present : List (Arrival π)}
    (h : a.IsLatestMostUrgent present) (hb : b ∈ present) : b.job.notAbove a.job = true := by
  obtain ⟨-, -, -, hmost, -⟩ := h
  exact hmost b hb

/-- Less urgent, or as urgent and not inserted later. -/
def Precedes (a b : Arrival π) : Prop :=
  a.job.notAbove b.job = true ∧ (b.job.notAbove a.job = true → a.number ≤ b.number)

theorem Precedes.number_eq {a b : Arrival π} (hab : a.Precedes b) (hba : b.Precedes a) :
    a.number = b.number :=
  Nat.le_antisymm (hab.2 hba.1) (hba.2 hab.1)

end Arrival

/-- The jobs that are present, the first inserted first. -/
structure Register (π : Type) where
  selection : Selection
  insertions : Nat
  present : List (Arrival π)
  closed : Bool
  ascending : present.Pairwise fun a b => a.number < b.number
  number_lt : ∀ a ∈ present, a.number < insertions

namespace Register

variable {π : Type}

def empty (selection : Selection) : Register π :=
  ⟨selection, 0, [], false, List.Pairwise.nil, by simp⟩

def insert (r : Register π) (j : Job π) : Register π where
  selection := r.selection
  insertions := r.insertions + 1
  present := r.present ++ [⟨r.insertions, j⟩]
  closed := r.closed
  ascending := by
    refine List.pairwise_append.mpr ⟨r.ascending, List.pairwise_singleton _ _, ?_⟩
    intro a ha b hb
    rw [List.mem_singleton.mp hb]
    exact r.number_lt a ha
  number_lt := by
    intro a ha
    rcases List.mem_append.mp ha with ha | ha
    · exact Nat.lt_succ_of_lt (r.number_lt a ha)
    · rw [List.mem_singleton.mp ha]
      exact Nat.lt_succ_self _

/-- Takes out what was inserted under one of the numbers. -/
def remove (r : Register π) (numbers : List Nat) : Register π where
  selection := r.selection
  insertions := r.insertions
  present := r.present.filter fun a => a.number ∉ numbers
  closed := r.closed
  ascending := r.ascending.filter _
  number_lt a ha := r.number_lt a (List.mem_of_mem_filter ha)

/-- All that is present from the least to the most urgent, the earlier first among equals. -/
def ranked (r : Register π) : List (Arrival π) :=
  r.present.mergeSort fun a b => a.job.notAbove b.job

def next? (r : Register π) : Option (Arrival π) :=
  match r.selection with
  | .leastUrgentFirst => r.present.find? fun a => r.present.all fun b => a.job.notAbove b.job
  | .mostUrgentFirst => r.present.findRev? fun a => r.present.all fun b => b.job.notAbove a.job

/-- What a predicate condemns when it is shown the views in the order of the ranking. -/
def condemned (r : Register π) (condemns : Array (View π) → View π → Bool) : List (Arrival π) :=
  ((r.ranked.zip (Judge.answers condemns #[] (r.ranked.map Arrival.job))).filter
    (·.2)).map Prod.fst

def apply (r : Register π) : Queue.Request π → Register π
  | .push j => if r.closed then r else r.insert j
  | .reserve ids => if r.closed then r else (ids.map Job.placeholder).foldl insert r
  | .pop => r.remove (r.next?.map Arrival.number).toList
  | .delete id => r.remove ((r.ranked.find? (·.job.id == id)).map Arrival.number).toList
  | .deleteWhere condemns => r.remove ((r.condemned condemns).map Arrival.number)
  | .close => { empty r.selection with closed := true }

theorem ranked_perm (r : Register π) : r.ranked.Perm r.present :=
  List.mergeSort_perm _ _

@[simp] theorem mem_ranked {r : Register π} {a : Arrival π} : a ∈ r.ranked ↔ a ∈ r.present :=
  r.ranked_perm.mem_iff

theorem numbers_nodup {r : Register π} {l : List (Arrival π)} (hperm : l.Perm r.present) :
    (l.map Arrival.number).Nodup :=
  (hperm.map _).nodup_iff.mpr (List.pairwise_map.mpr (r.ascending.imp Nat.ne_of_lt))

theorem number_inj (r : Register π) {a b : Arrival π} (ha : a ∈ r.present) (hb : b ∈ r.present)
    (h : a.number = b.number) : a = b :=
  List.inj_on_of_nodup_map (numbers_nodup (.refl r.present)) ha hb h

/-- The sort is stable: of equals the one with the smaller number stands first. -/
theorem ranked_pairwise (r : Register π) : r.ranked.Pairwise Arrival.Precedes := by
  have htrans : ∀ a b c : Arrival π, a.job.notAbove b.job = true → b.job.notAbove c.job = true →
      a.job.notAbove c.job = true := fun _ _ _ => Job.notAbove_trans
  have htotal : ∀ a b : Arrival π, (a.job.notAbove b.job || b.job.notAbove a.job) = true :=
    fun a b => Job.notAbove_total a.job b.job
  have hascending := r.ascending
  unfold ranked
  generalize r.present = arrivals at hascending ⊢
  induction arrivals with
  | nil => simp
  | cons a as ih =>
    obtain ⟨ha, has⟩ := List.pairwise_cons.mp hascending
    obtain ⟨before, behind, heq, heq', hbefore⟩ := List.mergeSort_cons htrans htotal a as
    have hsorted := List.pairwise_mergeSort htrans htotal (a :: as)
    have hrest := ih has
    rw [heq'] at hrest
    rw [heq] at hsorted ⊢
    obtain ⟨h₁, h₂, h₁₂⟩ := List.pairwise_append.mp hrest
    refine List.pairwise_append.mpr ⟨h₁, List.pairwise_cons.mpr ⟨?_, h₂⟩, ?_⟩
    · intro c hc
      have hmem : c ∈ as :=
        List.mem_mergeSort.mp (heq' ▸ List.mem_append_right before hc)
      exact ⟨(List.pairwise_cons.mp (List.pairwise_append.mp hsorted).2.1).1 c hc,
        fun _ => (ha c hmem).le⟩
    · intro b hb c hc
      rcases List.mem_cons.mp hc with rfl | hc
      · have hnot : c.job.notAbove b.job = false := by simpa using hbefore b hb
        exact ⟨Job.notAbove_of_notAbove_eq_false hnot, fun h => by simp [hnot] at h⟩
      · exact h₁₂ b hb c hc

theorem eq_ranked {r : Register π} {l : List (Arrival π)} (hperm : l.Perm r.present)
    (hl : l.Pairwise Arrival.Precedes) : l = r.ranked := by
  refine List.Perm.eq_of_pairwise ?_ hl r.ranked_pairwise (hperm.trans r.ranked_perm.symm)
  intro a b ha hb hab hba
  exact r.number_inj (hperm.mem_iff.mp ha) (mem_ranked.mp hb) (hab.number_eq hba)

theorem inOrder_ranked (r : Register π) : Queue.InOrder (r.ranked.map Arrival.job) :=
  List.pairwise_map.mpr (r.ranked_pairwise.imp And.left)

theorem ranked_remove (r : Register π) (numbers : List Nat) :
    (r.remove numbers).ranked = r.ranked.filter fun a => a.number ∉ numbers :=
  (eq_ranked (r.ranked_perm.filter _) (r.ranked_pairwise.filter _)).symm

theorem ranked_insert (r : Register π) (j : Job π) :
    (r.insert j).ranked.map Arrival.job = Queue.insertSorted j (r.ranked.map Arrival.job) := by
  obtain ⟨ys, zs, heq, hy, hz⟩ := r.inOrder_ranked.split j
  obtain ⟨as, bs, hranked, rfl, rfl⟩ := List.map_eq_append_iff.mp heq
  have hnew : as ++ ⟨r.insertions, j⟩ :: bs = (r.insert j).ranked := by
    apply eq_ranked
    · have hperm : (as ++ bs).Perm r.present := hranked ▸ r.ranked_perm
      exact (List.perm_middle.trans (hperm.cons _)).trans (List.perm_append_singleton _ _).symm
    · have hpairwise := r.ranked_pairwise
      rw [hranked] at hpairwise
      obtain ⟨has, hbs, hcross⟩ := List.pairwise_append.mp hpairwise
      refine List.pairwise_append.mpr ⟨has, List.pairwise_cons.mpr ⟨?_, hbs⟩, ?_⟩
      · intro b hb
        have hnot := hz b.job (List.mem_map_of_mem hb)
        exact ⟨Job.notAbove_of_notAbove_eq_false hnot, fun h => by simp [hnot] at h⟩
      · intro a ha c hc
        rcases List.mem_cons.mp hc with rfl | hc
        · have hmem : a ∈ r.present := mem_ranked.mp (hranked ▸ List.mem_append_left _ ha)
          exact ⟨hy a.job (List.mem_map_of_mem ha), fun _ => (r.number_lt a hmem).le⟩
        · exact hcross a ha c hc
  rw [← hnew, heq, Queue.insertSorted_split hy hz, List.map_append, List.map_cons]

theorem ranked_foldl_insert (r : Register π) (js : List (Job π)) :
    (js.foldl insert r).ranked.map Arrival.job =
      js.foldl (fun jobs j => Queue.insertSorted j jobs) (r.ranked.map Arrival.job) := by
  induction js generalizing r with
  | nil => rfl
  | cons j js ih => rw [List.foldl_cons, List.foldl_cons, ih, ranked_insert]

theorem selection_foldl_insert (r : Register π) (js : List (Job π)) :
    (js.foldl insert r).selection = r.selection := by
  induction js generalizing r with
  | nil => rfl
  | cons j js ih => exact ih (r.insert j)

theorem closed_foldl_insert (r : Register π) (js : List (Job π)) :
    (js.foldl insert r).closed = r.closed := by
  induction js generalizing r with
  | nil => rfl
  | cons j js ih => exact ih (r.insert j)

theorem selection_apply (r : Register π) (request : Queue.Request π) :
    (r.apply request).selection = r.selection := by
  cases request with
  | push j => cases hclosed : r.closed <;> simp [apply, hclosed, insert]
  | reserve ids => cases hclosed : r.closed <;> simp [apply, hclosed, selection_foldl_insert]
  | pop => rfl
  | delete id => rfl
  | deleteWhere condemns => rfl
  | close => rfl

theorem selection_foldl_apply (r : Register π) (requests : List (Queue.Request π)) :
    (requests.foldl apply r).selection = r.selection := by
  induction requests generalizing r with
  | nil => rfl
  | cons request requests ih => rw [List.foldl_cons, ih, selection_apply]

theorem filter_number_ne {r : Register π} {l xs ys : List (Arrival π)} {a : Arrival π}
    (hperm : l.Perm r.present) (h : l = xs ++ a :: ys) :
    (l.filter fun b => b.number ∉ [a.number]) = xs ++ ys := by
  subst h
  have hmiddle := (List.perm_middle.map Arrival.number).nodup_iff.mp (numbers_nodup hperm)
  rw [List.map_cons, List.nodup_cons, List.mem_map] at hmiddle
  have hrest : ∀ b ∈ xs ++ ys, decide (b.number ∉ [a.number]) = true := by
    intro b hb
    have hne : b.number ≠ a.number := fun heq => hmiddle.1 ⟨b, hb, heq⟩
    simpa using hne
  rw [List.filter_append, List.filter_cons_of_neg (by simp),
    List.filter_eq_self.mpr fun b hb => hrest b (List.mem_append_left _ hb),
    List.filter_eq_self.mpr fun b hb => hrest b (List.mem_append_right _ hb)]

theorem isEarliestLeastUrgent_of_ranked {r : Register π} {a : Arrival π}
    {rest : List (Arrival π)} (h : r.ranked = a :: rest) :
    a.IsEarliestLeastUrgent r.present := by
  have hpairwise := r.ranked_pairwise
  rw [h] at hpairwise
  have hfirst : ∀ b ∈ r.present, b = a ∨ a.Precedes b := by
    intro b hb
    rcases List.mem_cons.mp (h ▸ mem_ranked.mpr hb) with hb | hb
    · exact .inl hb
    · exact .inr ((List.pairwise_cons.mp hpairwise).1 b hb)
  obtain ⟨earlier, later, heq⟩ := List.append_of_mem (mem_ranked.mp (h ▸ List.mem_cons_self))
  refine ⟨earlier, later, heq, ?_, ?_⟩
  · intro b hb
    rcases hfirst b hb with rfl | hb
    · exact Job.notAbove_refl b.job
    · exact hb.1
  · intro b hb
    have hlt : b.number < a.number := by
      have hascending := r.ascending
      rw [heq] at hascending
      exact (List.pairwise_append.mp hascending).2.2 b hb a (by simp)
    rcases hfirst b (heq ▸ List.mem_append_left _ hb) with rfl | hab
    · exact absurd hlt (Nat.lt_irrefl _)
    · by_contra hba
      exact absurd (hab.2 (by simpa using hba)) (Nat.not_le_of_lt hlt)

theorem isLatestMostUrgent_of_ranked {r : Register π} {a : Arrival π}
    {rest : List (Arrival π)} (h : r.ranked = rest ++ [a]) :
    a.IsLatestMostUrgent r.present := by
  have hpairwise := r.ranked_pairwise
  rw [h] at hpairwise
  have hlast : ∀ b ∈ r.present, b = a ∨ b.Precedes a := by
    intro b hb
    rcases List.mem_append.mp (h ▸ mem_ranked.mpr hb) with hb | hb
    · exact .inr ((List.pairwise_append.mp hpairwise).2.2 b hb a (by simp))
    · exact .inl (List.mem_singleton.mp hb)
  obtain ⟨earlier, later, heq⟩ := List.append_of_mem
    (mem_ranked.mp (h ▸ List.mem_append_right _ (List.mem_singleton_self a)))
  refine ⟨earlier, later, heq, ?_, ?_⟩
  · intro b hb
    rcases hlast b hb with rfl | hb
    · exact Job.notAbove_refl b.job
    · exact hb.1
  · intro b hb
    have hlt : a.number < b.number := by
      have hascending := r.ascending
      rw [heq] at hascending
      exact (List.pairwise_cons.mp (List.pairwise_append.mp hascending).2.1).1 b hb
    rcases hlast b (heq ▸ List.mem_append_right _ (List.mem_cons_of_mem _ hb)) with rfl | hba
    · exact absurd hlt (Nat.lt_irrefl _)
    · by_contra hab
      exact absurd (hba.2 (by simpa using hab)) (Nat.not_le_of_lt hlt)

/-- The next to be taken stands first in the ranking under the one selection, and last under the
other. -/
theorem next?_eq (r : Register π) :
    r.next? =
      match r.selection with
      | .leastUrgentFirst => r.ranked.head?
      | .mostUrgentFirst => r.ranked.getLast? := by
  unfold next?
  rcases List.eq_nil_or_concat' r.ranked with hnil | ⟨rest, a, hlast⟩
  · have hpresent : r.present = [] := (hnil ▸ r.ranked_perm).nil_eq.symm
    cases r.selection <;> simp [hnil, hpresent]
  · cases r.selection with
    | leastUrgentFirst =>
      cases hranked : r.ranked with
      | nil => simp [hranked] at hlast
      | cons b bs =>
        obtain ⟨earlier, later, heq, hleast, hearlier⟩ := isEarliestLeastUrgent_of_ranked hranked
        have hb : b ∈ r.present := by simp [heq]
        refine List.find?_eq_some_iff_append.mpr
          ⟨by simpa using hleast, earlier, later, heq, ?_⟩
        intro c hc
        have hnot : r.present.all (fun d => c.job.notAbove d.job) = false :=
          List.all_eq_false.mpr ⟨b, hb, by simp [hearlier c hc]⟩
        simp [hnot]
    | mostUrgentFirst =>
      obtain ⟨earlier, later, heq, hmost, hlater⟩ := isLatestMostUrgent_of_ranked hlast
      have ha : a ∈ r.present := by simp [heq]
      have hreverse : r.present.reverse = later.reverse ++ a :: earlier.reverse := by simp [heq]
      simp only [hlast, List.getLast?_concat, List.findRev?_eq_find?_reverse]
      refine List.find?_eq_some_iff_append.mpr
        ⟨by simpa using hmost, later.reverse, earlier.reverse, hreverse, ?_⟩
      intro c hc
      have hnot : r.present.all (fun d => d.job.notAbove c.job) = false :=
        List.all_eq_false.mpr ⟨a, ha, by simp [hlater c (List.mem_reverse.mp hc)]⟩
      simp [hnot]

end Register
end PacedJobs
