import PacedJobs.Proofs.Queue.StableSort

/-!
# What is taken from a queue

A queue gives away what stands first in line. While nothing comes in, it gives its jobs away in the
order in which they stand, whatever is taken out in between, and jobs that nobody looks at may come
in. In the register of arrivals, one that stays is overtaken only by those that precede it in the
order of the selection.
-/

namespace PacedJobs

variable {π : Type}

namespace Queue

namespace Request

def inserted : Request π → List (Job π)
  | push j => [j]
  | reserve ids => ids.map .placeholder
  | _ => []

/-- Whether jobs may be taken out that are not given away. -/
def discards : Request π → Bool
  | delete _ | deleteWhere _ | close => true
  | _ => false

end Request

/-- What a request takes from the queue. -/
def given (q : Queue π) : Request π → List (Job π)
  | .pop => q.line.take 1
  | _ => []

/-- What requests take from the queue, one after the other. -/
def taken (q : Queue π) : List (Request π) → List (Job π)
  | [] => []
  | x :: xs => q.given x ++ (q.apply x).taken xs

variable {q q' : Queue π} {keep : Job π → Bool} {x : Request π} {xs : List (Request π)}

theorem filter_line_sublist (hselection : q.selection = q'.selection)
    (h : (q.jobs.filter keep).Sublist (q'.jobs.filter keep)) :
    (q.line.filter keep).Sublist (q'.line.filter keep) := by
  unfold jobs at h
  rw [hselection] at h
  cases hs : q'.selection with
  | leastUrgentFirst => simpa [hs] using h
  | mostUrgentFirst => simpa [hs, List.filter_reverse, List.reverse_sublist] using h

theorem filter_line_withJobs {js : List (Job π)} (h : js.filter keep = q.jobs.filter keep) :
    (q.withJobs js).line.filter keep = q.line.filter keep := by
  refine List.Sublist.antisymm (filter_line_sublist (q.selection_withJobs js) ?_)
    (filter_line_sublist (q.selection_withJobs js).symm ?_)
  all_goals rw [jobs_withJobs, h]

theorem filter_insertSorted {j : Job π} (hj : keep j = false) (jobs : List (Job π)) :
    (insertSorted j jobs).filter keep = jobs.filter keep := by
  unfold insertSorted
  rw [List.filter_append, List.filter_cons_of_neg (by simp [hj]), ← List.filter_append,
    List.take_append_drop]

theorem filter_insertPlaceholders {ids : List JobId}
    (hids : ∀ id ∈ ids, keep (.placeholder id) = false) (jobs : List (Job π)) :
    (insertPlaceholders ids jobs).filter keep = jobs.filter keep := by
  have hnone : (ids.map Job.placeholder).filter keep = [] := by
    simpa [List.filter_eq_nil_iff] using hids
  unfold insertPlaceholders
  rw [List.filter_append, List.filter_append, hnone, List.nil_append, ← List.filter_append,
    List.take_append_drop]

theorem filter_line_apply_of_inserted (hx : ∀ j ∈ x.inserted, keep j = false)
    (hdiscards : x.discards = false) :
    ((q.given x ++ (q.apply x).line).filter keep) = q.line.filter keep := by
  cases x with
  | push j =>
    simp only [given, apply, push, List.nil_append]
    split
    · rfl
    · exact filter_line_withJobs (filter_insertSorted (hx j (List.mem_singleton.mpr rfl)) _)
  | reserve ids =>
    simp only [given, apply, reserve, List.nil_append]
    split
    · rfl
    · exact filter_line_withJobs (filter_insertPlaceholders
        (fun id hid => hx _ (List.mem_map_of_mem hid)) _)
  | pop =>
    obtain ⟨selection, line, closed⟩ := q
    cases line <;> rfl
  | _ => cases hdiscards

theorem filter_line_apply_sublist (hx : ∀ j ∈ x.inserted, keep j = false) :
    ((q.given x ++ (q.apply x).line).filter keep).Sublist (q.line.filter keep) := by
  have hless : ∀ js : List (Job π), js.Sublist q.jobs →
      ((q.withJobs js).line.filter keep).Sublist (q.line.filter keep) := by
    intro js hjs
    refine filter_line_sublist (q.selection_withJobs js) ?_
    rw [jobs_withJobs]
    exact hjs.filter keep
  cases x with
  | delete id =>
    simp only [given, apply, List.nil_append]
    cases hdelete : q.delete id with
    | none => exact .refl _
    | some found =>
      obtain ⟨i, -, rfl⟩ := Option.map_eq_some_iff.mp hdelete
      exact hless _ List.eraseP_sublist
  | deleteWhere condemns =>
    simp only [given, apply, deleteWhere, Sweep.run_ofAnswers, List.nil_append]
    refine hless _ ((List.filter_sublist.map Prod.fst).trans ?_)
    rw [List.map_fst_zip (Judge.length_answers condemns #[] q.jobs).ge]
  | close => exact List.nil_sublist _
  | _ => rw [filter_line_apply_of_inserted hx rfl]

theorem filter_taken_sublist (hxs : ∀ x ∈ xs, ∀ j ∈ x.inserted, keep j = false) :
    ((q.taken xs ++ (xs.foldl apply q).line).filter keep).Sublist (q.line.filter keep) := by
  induction xs generalizing q with
  | nil => exact .refl _
  | cons x xs ih =>
    obtain ⟨hx, hxs⟩ := List.forall_mem_cons.mp hxs
    have hfirst := filter_line_apply_sublist (q := q) hx
    rw [taken, List.append_assoc, List.filter_append, List.foldl_cons]
    rw [List.filter_append] at hfirst
    exact ((ih hxs).append_left _).trans hfirst

theorem filter_taken_eq (hxs : ∀ x ∈ xs, ∀ j ∈ x.inserted, keep j = false)
    (hdiscards : ∀ x ∈ xs, x.discards = false) :
    (q.taken xs ++ (xs.foldl apply q).line).filter keep = q.line.filter keep := by
  induction xs generalizing q with
  | nil => rfl
  | cons x xs ih =>
    obtain ⟨hx, hxs⟩ := List.forall_mem_cons.mp hxs
    obtain ⟨hkept, hdiscards⟩ := List.forall_mem_cons.mp hdiscards
    rw [taken, List.append_assoc, List.filter_append, List.foldl_cons, ih hxs hdiscards,
      ← List.filter_append, filter_line_apply_of_inserted hx hkept]

end Queue

/-- The order in which a selection takes what is present. -/
def Arrival.Before (selection : Selection) (a b : Arrival π) : Prop :=
  match selection with
  | .leastUrgentFirst => a.Precedes b
  | .mostUrgentFirst => b.Precedes a

theorem Arrival.Before.refl (selection : Selection) (a : Arrival π) : a.Before selection a := by
  cases selection <;> exact ⟨Job.notAbove_refl a.job, fun _ => Nat.le_refl _⟩

namespace Register

/-- All that is present, the next to be taken first. -/
def lineup (r : Register π) : List (Arrival π) :=
  match r.selection with
  | .leastUrgentFirst => r.ranked
  | .mostUrgentFirst => r.ranked.reverse

def given (r : Register π) : Queue.Request π → List (Arrival π)
  | .pop => r.next?.toList
  | _ => []

/-- What requests take out of a register, one after the other. -/
def taken (r : Register π) : List (Queue.Request π) → List (Arrival π)
  | [] => []
  | x :: xs => r.given x ++ (r.apply x).taken xs

/-- An arrival is present, or it may still come in. -/
def Expects (r : Register π) (a : Arrival π) : Prop :=
  a ∈ r.present ∨ r.closed = false ∧ r.insertions ≤ a.number

variable {r : Register π} {a b : Arrival π} {x : Queue.Request π} {xs : List (Queue.Request π)}

theorem lineup_perm (r : Register π) : r.lineup.Perm r.present := by
  unfold lineup
  cases r.selection with
  | leastUrgentFirst => exact r.ranked_perm
  | mostUrgentFirst => exact r.ranked.reverse_perm.trans r.ranked_perm

theorem lineup_pairwise (r : Register π) : r.lineup.Pairwise (Arrival.Before r.selection) := by
  unfold lineup Arrival.Before
  cases r.selection with
  | leastUrgentFirst => exact r.ranked_pairwise
  | mostUrgentFirst => exact List.pairwise_reverse.mpr r.ranked_pairwise

theorem next?_eq_head? (r : Register π) : r.next? = r.lineup.head? := by
  rw [next?_eq, lineup]
  cases r.selection <;> simp

theorem before_of_next? (h : r.next? = some a) (hb : b ∈ r.present) : a.Before r.selection b := by
  rw [next?_eq_head?] at h
  obtain ⟨rest, hlineup⟩ := List.head?_eq_some_iff.mp h
  have hpairwise := r.lineup_pairwise
  have hmem := r.lineup_perm.mem_iff.mpr hb
  rw [hlineup] at hpairwise hmem
  rcases List.mem_cons.mp hmem with rfl | hmem
  · exact .refl _ _
  · exact (List.pairwise_cons.mp hpairwise).1 b hmem

theorem mem_of_next? (h : r.next? = some a) : a ∈ r.present :=
  r.lineup_perm.mem_iff.mp (List.mem_of_head? (r.next?_eq_head?.symm.trans h))

theorem exists_present_foldl_insert (r : Register π) (js : List (Job π)) :
    ∃ own : List (Arrival π), (js.foldl insert r).present = r.present ++ own ∧
      own.map Arrival.job = js ∧ ∀ a ∈ own, r.insertions ≤ a.number := by
  induction js generalizing r with
  | nil => exact ⟨[], (List.append_nil _).symm, rfl, by simp⟩
  | cons j js ih =>
    obtain ⟨own, hpresent, hjobs, hnew⟩ := ih (r.insert j)
    refine ⟨⟨r.insertions, j⟩ :: own, ?_, by rw [List.map_cons, hjobs], ?_⟩
    · rw [List.foldl_cons, hpresent]
      exact List.append_assoc _ _ _
    · intro a ha
      rcases List.mem_cons.mp ha with rfl | ha
      · exact Nat.le_refl _
      · exact Nat.le_of_succ_le (hnew a ha)

theorem mem_foldl_insert (js : List (Job π)) (h : a ∈ (js.foldl insert r).present) :
    a ∈ r.present ∨ r.insertions ≤ a.number := by
  obtain ⟨own, hpresent, -, hnew⟩ := r.exists_present_foldl_insert js
  rw [hpresent] at h
  exact (List.mem_append.mp h).imp_right (hnew a)

theorem insertions_foldl_insert (r : Register π) (js : List (Job π)) :
    (js.foldl insert r).insertions = r.insertions + js.length := by
  induction js generalizing r with
  | nil => rfl
  | cons j js ih =>
    rw [List.foldl_cons, ih, List.length_cons]
    simp only [insert]
    omega

theorem insertions_le_apply (hopen : (r.apply x).closed = false) :
    r.insertions ≤ (r.apply x).insertions := by
  cases x with
  | push j => cases hclosed : r.closed <;> simp [apply, hclosed, insert]
  | reserve ids => cases hclosed : r.closed <;> simp [apply, hclosed, insertions_foldl_insert]
  | close => cases hopen
  | _ => exact Nat.le_refl _

theorem Expects.of_apply (h : (r.apply x).Expects a) : r.Expects a := by
  unfold Expects at h ⊢
  cases x with
  | push j =>
    simp only [apply] at h
    cases hclosed : r.closed with
    | true => simpa [hclosed] using h
    | false =>
      simp only [hclosed, Bool.false_eq_true, if_false] at h
      rcases h with hmem | ⟨-, hnew⟩
      · exact (mem_foldl_insert [j] hmem).imp_right fun hnew => ⟨rfl, hnew⟩
      · exact .inr ⟨rfl, Nat.le_of_succ_le hnew⟩
  | reserve ids =>
    simp only [apply] at h
    cases hclosed : r.closed with
    | true => simpa [hclosed] using h
    | false =>
      simp only [hclosed, Bool.false_eq_true, if_false] at h
      rcases h with hmem | ⟨-, hnew⟩
      · exact (mem_foldl_insert _ hmem).imp_right fun hnew => ⟨rfl, hnew⟩
      · rw [insertions_foldl_insert] at hnew
        exact .inr ⟨rfl, (Nat.le_add_right _ _).trans hnew⟩
  | close => simp [apply, empty] at h
  | _ => exact h.imp_left List.mem_of_mem_filter

theorem Expects.of_foldl (xs : List (Queue.Request π)) (h : (xs.foldl apply r).Expects a) :
    r.Expects a := by
  induction xs generalizing r with
  | nil => exact h
  | cons x xs ih => exact (ih h).of_apply

theorem expects_of_mem_given (h : a ∈ r.given x) : r.Expects a := by
  cases x with
  | pop => exact .inl (mem_of_next? (Option.mem_toList.mp h))
  | _ => cases h

theorem expects_of_mem_taken (h : a ∈ r.taken xs) : r.Expects a := by
  induction xs generalizing r with
  | nil => cases h
  | cons x xs ih =>
    rcases List.mem_append.mp h with h | h
    · exact expects_of_mem_given h
    · exact (ih h).of_apply

/-- An arrival precedes another in the order of the selection, or it has come before. -/
def Ahead (selection : Selection) (a b : Arrival π) : Prop :=
  a.number ≠ b.number ∧ (a.Before selection b ∨ a.number < b.number)

theorem ahead_of_mem_given (ha : a ∈ r.given x) (hb : (r.apply x).Expects b) :
    Ahead r.selection a b := by
  cases x with
  | pop =>
    have hnext : r.next? = some a := Option.mem_toList.mp ha
    rcases hb with hb | ⟨-, hnew⟩
    · obtain ⟨hpresent, hother⟩ := List.mem_filter.mp hb
      have hne : b.number ∉ [a.number] := by simpa [hnext] using hother
      exact ⟨fun heq => hne (by simp [heq]), .inl (before_of_next? hnext hpresent)⟩
    · have hlt := (r.number_lt a (mem_of_next? hnext)).trans_le hnew
      exact ⟨hlt.ne, .inr hlt⟩
  | _ => cases ha

theorem ahead_of_mem_taken (ha : a ∈ r.taken xs) (hb : (xs.foldl apply r).Expects b) :
    Ahead r.selection a b := by
  induction xs generalizing r with
  | nil => cases ha
  | cons x xs ih =>
    rcases List.mem_append.mp ha with ha | ha
    · exact ahead_of_mem_given ha (Expects.of_foldl xs hb)
    · exact r.selection_apply x ▸ ih ha hb

theorem taken_pairwise (r : Register π) (xs : List (Queue.Request π)) :
    (r.taken xs).Pairwise (Ahead r.selection) := by
  induction xs generalizing r with
  | nil => exact List.Pairwise.nil
  | cons x xs ih =>
    refine List.pairwise_append.mpr ⟨?_, r.selection_apply x ▸ ih (r.apply x), ?_⟩
    · cases x with
      | pop => cases hnext : r.next? <;> simp [given, hnext]
      | _ => exact List.Pairwise.nil
    · exact fun a ha b hb => ahead_of_mem_given ha (expects_of_mem_taken hb)

/-- An arrival that stays is overtaken only by those that precede it. -/
theorem before_of_mem_taken (ha : a ∈ r.taken xs) (hb : b ∈ r.present)
    (hstays : b ∈ (xs.foldl apply r).present) :
    a.number ≠ b.number ∧ a.Before r.selection b := by
  refine ⟨(ahead_of_mem_taken ha (.inl hstays)).1, ?_⟩
  induction xs generalizing r with
  | nil => cases ha
  | cons x xs ih =>
    rcases List.mem_append.mp ha with ha | ha
    · cases x with
      | pop => exact before_of_next? (Option.mem_toList.mp ha) hb
      | _ => cases ha
    · have hpresent : b ∈ (r.apply x).present := by
        have hexpected : (r.apply x).Expects b := Expects.of_foldl xs (.inl hstays)
        refine hexpected.resolve_right fun ⟨hopen, hnew⟩ => ?_
        exact absurd (r.number_lt b hb) ((insertions_le_apply hopen).trans hnew).not_gt
      exact r.selection_apply x ▸ ih ha hpresent hstays

end Register

namespace Queue.Follows

variable {q : Queue π} {r : Register π}

theorem line_eq (h : Follows q r) : q.line = r.lineup.map Arrival.job := by
  have hjobs := h.jobs_eq
  unfold jobs at hjobs
  rw [h.selection_eq] at hjobs
  unfold Register.lineup
  cases hs : r.selection with
  | leastUrgentFirst => simpa [hs] using hjobs
  | mostUrgentFirst => simpa [hs, List.reverse_eq_iff] using hjobs

theorem given_eq (h : Follows q r) (x : Request π) : q.given x = (r.given x).map Arrival.job := by
  cases x with
  | pop =>
    rw [given, Register.given, r.next?_eq_head?, h.line_eq]
    cases r.lineup <;> rfl
  | _ => rfl

theorem taken_eq (h : Follows q r) (xs : List (Request π)) :
    q.taken xs = (r.taken xs).map Arrival.job := by
  induction xs generalizing q r with
  | nil => rfl
  | cons x xs ih => rw [taken, Register.taken, List.map_append, h.given_eq, ih (h.apply x)]

end Queue.Follows
end PacedJobs
