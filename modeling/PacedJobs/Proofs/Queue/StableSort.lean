import PacedJobs.Proofs.Queue.Register

/-!
# A queue is a stable sort of its arrivals

Whatever is asked of a new queue, its pending jobs are those of the register of arrivals, from the
least to the most urgent and of equals the earlier first. So what is taken next is the earliest of
the least urgent or the latest of the most urgent, and every bisection of the pending jobs finds
what it is meant to find.
-/

namespace PacedJobs

namespace Sweep

variable {π : Type}

theorem judgeAll_ofAnswers (condemns : Array (View π) → View π → Bool) (seen : Array (View π))
    (judged : List (Job π × Bool)) (jobs : List (Job π)) :
    judgeAll (Judge.ofAnswers condemns) seen judged jobs =
      (judged.reverse ++ jobs.zip ((Judge.answers condemns seen jobs).map not), []) := by
  induction jobs generalizing seen judged with
  | nil => simp [judgeAll]
  | cons j js ih =>
    by_cases h : condemns seen j.view = true
    · simp [judgeAll, Judge.ofAnswers, Judge.answers, h, ih]
    · simp [judgeAll, Judge.ofAnswers, Judge.answers, h, ih]

/-- A sweep by a judge that answers every view keeps the jobs it does not condemn. -/
theorem run_ofAnswers (condemns : Array (View π) → View π → Bool) (jobs : List (Job π)) :
    run (Judge.ofAnswers condemns) jobs =
      .finished
        (((jobs.zip (Judge.answers condemns #[] jobs)).filter fun x => !x.2).map Prod.fst)
        (((jobs.zip (Judge.answers condemns #[] jobs)).filter fun x => x.2).map Prod.fst) := by
  rw [run, judgeAll_ofAnswers]
  simp [List.zip_map_right, List.filter_map, Function.comp_def]

end Sweep

theorem Judge.length_answers {π : Type} (condemns : Array (View π) → View π → Bool)
    (seen : Array (View π)) (jobs : List (Job π)) :
    (Judge.answers condemns seen jobs).length = jobs.length := by
  induction jobs generalizing seen with
  | nil => rfl
  | cons j js ih => simp [Judge.answers, ih]

theorem Arrival.filter_not_condemned {π : Type} {arrivals : List (Arrival π)} {answers : List Bool}
    (hnumbers : (arrivals.map Arrival.number).Nodup) (hlength : arrivals.length = answers.length) :
    arrivals.filter (fun a => a.number ∉
        (((arrivals.zip answers).filter (·.2)).map Prod.fst).map Arrival.number) =
      ((arrivals.zip answers).filter fun x => !x.2).map Prod.fst := by
  induction arrivals generalizing answers with
  | nil => simp
  | cons a as ih =>
    cases answers with
    | nil => simp at hlength
    | cons b bs =>
      obtain ⟨ha, has⟩ := List.nodup_cons.mp hnumbers
      have hrest := ih has (by simpa using hlength)
      have hself : a.number ∉
          (((as.zip bs).filter (·.2)).map Prod.fst).map Arrival.number := by
        intro hmem
        simp only [List.mem_map, List.mem_filter, Prod.exists] at hmem
        obtain ⟨c, ⟨d, e, ⟨hzip, -⟩, rfl⟩, hnumber⟩ := hmem
        exact ha (hnumber ▸ List.mem_map_of_mem (List.of_mem_zip hzip).1)
      cases b with
      | false =>
        have hcondemned : ((a, false) :: as.zip bs).filter (·.2) = (as.zip bs).filter (·.2) := rfl
        have hkept : ((a, false) :: as.zip bs).filter (fun x => !x.2) =
            (a, false) :: (as.zip bs).filter fun x => !x.2 := rfl
        rw [List.zip_cons_cons, hcondemned, hkept, List.map_cons, ← hrest]
        exact List.filter_cons_of_pos (decide_eq_true hself)
      | true =>
        have hcondemned : ((a, true) :: as.zip bs).filter (·.2) =
            (a, true) :: (as.zip bs).filter (·.2) := rfl
        have hkept : ((a, true) :: as.zip bs).filter (fun x => !x.2) =
            (as.zip bs).filter fun x => !x.2 := rfl
        rw [List.zip_cons_cons, hcondemned, hkept, List.map_cons, List.map_cons, ← hrest,
          List.filter_cons_of_neg (by simp)]
        apply List.filter_congr
        intro c hc
        have hne : c.number ≠ a.number :=
          fun heq => ha (heq ▸ List.mem_map_of_mem hc)
        simp [hne]

namespace Queue

variable {π : Type}

def apply (q : Queue π) : Request π → Queue π
  | .push j => (q.push j).2
  | .reserve ids => (q.reserve ids).2
  | .pop => (q.pop.map Prod.snd).getD q
  | .delete id => ((q.delete id).map Prod.snd).getD q
  | .deleteWhere condemns => (q.deleteWhere (Judge.ofAnswers condemns)).2
  | .close => q.close.2

/-- The queue holds what the register ranks. -/
structure Follows (q : Queue π) (r : Register π) : Prop where
  selection_eq : q.selection = r.selection
  closed_eq : q.closed = r.closed
  jobs_eq : q.jobs = r.ranked.map Arrival.job

theorem follows_empty (selection : Selection) :
    Follows (empty selection : Queue π) (Register.empty selection) := by
  refine ⟨rfl, rfl, ?_⟩
  cases selection <;> simp [empty, jobs, Register.ranked, Register.empty]

namespace Follows

variable {q : Queue π} {r : Register π}

theorem inOrder (h : Follows q r) : InOrder q.jobs :=
  h.jobs_eq ▸ r.inOrder_ranked

theorem push (h : Follows q r) (j : Job π) : Follows (q.apply (.push j)) (r.apply (.push j)) := by
  simp only [Queue.apply, Queue.push, Register.apply, h.closed_eq]
  cases hclosed : r.closed with
  | true => simpa using h
  | false =>
    refine ⟨by simp [h.selection_eq, Register.insert], by simp [h.closed_eq, Register.insert], ?_⟩
    simp [h.jobs_eq, Register.ranked_insert]

theorem reserve (h : Follows q r) (ids : List JobId) :
    Follows (q.apply (.reserve ids)) (r.apply (.reserve ids)) := by
  simp only [Queue.apply, Queue.reserve, Register.apply, h.closed_eq]
  cases hclosed : r.closed with
  | true => simpa using h
  | false =>
    refine ⟨by simp [h.selection_eq, Register.selection_foldl_insert],
      by simp [h.closed_eq, Register.closed_foldl_insert], ?_⟩
    change (q.withJobs (insertPlaceholders ids q.jobs)).jobs =
      ((ids.map Job.placeholder).foldl Register.insert r).ranked.map Arrival.job
    rw [jobs_withJobs, h.inOrder.insertPlaceholders_eq, h.jobs_eq, Register.ranked_foldl_insert]

theorem withJobs_append (h : Follows q r) {xs ys : List (Arrival π)} {a : Arrival π}
    (hranked : r.ranked = xs ++ a :: ys) :
    Follows (q.withJobs ((xs ++ ys).map Arrival.job)) (r.remove [a.number]) where
  selection_eq := by simp [h.selection_eq, Register.remove]
  closed_eq := by simp [h.closed_eq, Register.remove]
  jobs_eq := by
    rw [jobs_withJobs, Register.ranked_remove, Register.filter_number_ne r.ranked_perm hranked]

theorem remove_nil (h : Follows q r) : Follows q (r.remove []) where
  selection_eq := h.selection_eq
  closed_eq := h.closed_eq
  jobs_eq := by simp [h.jobs_eq, Register.ranked_remove]

theorem pop (h : Follows q r) : Follows (q.apply .pop) (r.apply .pop) := by
  simp only [Queue.apply, Register.apply, pop_eq, r.next?_eq, h.selection_eq, h.jobs_eq]
  rcases List.eq_nil_or_concat' r.ranked with hnil | ⟨rest, a, hlast⟩
  · cases r.selection <;> simpa [hnil] using h.remove_nil
  · cases r.selection with
    | leastUrgentFirst =>
      cases hranked : r.ranked with
      | nil => simp [hranked] at hlast
      | cons b bs =>
        have hfirst : r.ranked = [] ++ b :: bs := by simp [hranked]
        simpa using h.withJobs_append hfirst
    | mostUrgentFirst => simpa [hlast] using h.withJobs_append hlast

theorem delete (h : Follows q r) (id : JobId) :
    Follows (q.apply (.delete id)) (r.apply (.delete id)) := by
  simp only [Queue.apply, Register.apply, Queue.delete, h.jobs_eq, List.find?_map]
  cases hfind : r.ranked.find? ((·.id == id) ∘ Arrival.job) with
  | none =>
    have hfind' : r.ranked.find? (fun b => b.job.id == id) = none := hfind
    simpa [hfind'] using h.remove_nil
  | some a =>
    obtain ⟨ha, xs, ys, hranked, hxs⟩ := List.find?_eq_some_iff_append.mp hfind
    have herase : (r.ranked.map Arrival.job).eraseP (·.id == id) = (xs ++ ys).map Arrival.job := by
      rw [hranked, List.map_append, List.map_cons, List.eraseP_append_right,
        List.eraseP_cons_of_pos, List.map_append]
      · exact ha
      · intro j hj
        obtain ⟨b, hb, rfl⟩ := List.mem_map.mp hj
        simpa using hxs b hb
    have hfind' : r.ranked.find? (fun b => b.job.id == id) = some a := hfind
    simpa [herase, hfind'] using h.withJobs_append hranked

theorem deleteWhere (h : Follows q r) (condemns : Array (View π) → View π → Bool) :
    Follows (q.apply (.deleteWhere condemns)) (r.apply (.deleteWhere condemns)) := by
  simp only [Queue.apply, Register.apply, Queue.deleteWhere, Sweep.run_ofAnswers, h.jobs_eq]
  refine ⟨by simp [h.selection_eq, Register.remove], by simp [h.closed_eq, Register.remove], ?_⟩
  rw [jobs_withJobs, Register.ranked_remove, Register.condemned,
    Arrival.filter_not_condemned (Register.numbers_nodup r.ranked_perm)
      (by simp [Judge.length_answers])]
  simp [List.zip_map_left, List.filter_map, Function.comp_def]

theorem close (h : Follows q r) : Follows (q.apply .close) (r.apply .close) := by
  have hempty := follows_empty (π := π) r.selection
  refine ⟨h.selection_eq, rfl, ?_⟩
  cases hs : q.selection <;> simp [Queue.apply, Queue.close, Register.apply, jobs, hs,
    Register.ranked, Register.empty]

theorem apply (h : Follows q r) : ∀ request : Request π,
    Follows (q.apply request) (r.apply request)
  | .push j => h.push j
  | .reserve ids => h.reserve ids
  | .pop => h.pop
  | .delete id => h.delete id
  | .deleteWhere condemns => h.deleteWhere condemns
  | .close => h.close

theorem foldl_apply (h : Follows q r) (requests : List (Request π)) :
    Follows (requests.foldl Queue.apply q) (requests.foldl Register.apply r) := by
  induction requests generalizing q r with
  | nil => exact h
  | cons request requests ih => exact ih (h.apply request)

end Follows

theorem Follows.pop_eq {q : Queue π} {r : Register π} (h : Follows q r) :
    q.pop.map Prod.fst = r.next?.map Arrival.job := by
  rw [Queue.pop_eq, r.next?_eq, h.selection_eq, h.jobs_eq]
  cases r.selection <;> simp [Function.comp_def]

end Queue
end PacedJobs
