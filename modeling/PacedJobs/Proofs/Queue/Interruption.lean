import PacedJobs.Proofs.Queue.Contents
import PacedJobs.Proofs.Queue.Urgency
import PacedJobs.Workbench

/-!
# Sweeps that a panic breaks off

A judge that panics leaves the jobs as the sweep has moved them so far. They are all there and no
ticket is touched, but every job that was to stay has passed those condemned before it. So the jobs
stand as before only if none was to stay after a condemned one, and in order only if each that was
is as urgent as those it has passed.
-/

namespace PacedJobs

variable {π ω : Type}

/-- The judge answers for some jobs, each whether it stays, and then panics at the next one. -/
def Judge.PanicsAt (judge : Judge π) (j : Job π) : Array (View π) → List (Job π × Bool) → Prop
  | seen, [] => judge seen j.view = .panic
  | seen, (x, stays) :: judged =>
    judge seen x.view = (if stays then .keep else .remove) ∧
      PanicsAt judge j (seen.push x.view) judged

instance Queue.decidableInOrder (jobs : List (Job π)) : Decidable (Queue.InOrder jobs) :=
  inferInstanceAs (Decidable (jobs.Pairwise _))

theorem Queue.withJobs_eq_self_iff {q : Queue π} {js : List (Job π)} :
    q.withJobs js = q ↔ js = q.jobs := by
  constructor
  · intro h
    rw [← q.jobs_withJobs js, h]
  · rintro rfl
    exact q.withJobs_jobs

namespace Sweep

variable {judge : Judge π} {j : Job π} {judged : List (Job π × Bool)} {kept gap : List (Job π)}

/-- The judged jobs that are to stay. -/
def staying (judged : List (Job π × Bool)) : List (Job π) :=
  (judged.filter fun x => x.2).map Prod.fst

/-- The judged jobs that are to be taken out. -/
def condemned (judged : List (Job π × Bool)) : List (Job π) :=
  (judged.filter fun x => !x.2).map Prod.fst

theorem mem_staying {i : Job π} : i ∈ staying judged ↔ (i, true) ∈ judged := by
  simp [staying]

theorem mem_condemned {i : Job π} : i ∈ condemned judged ↔ (i, false) ∈ judged := by
  simp [condemned]

theorem judgeAll_of_panicsAt {seen : Array (View π)} (h : judge.PanicsAt j seen judged)
    (before : List (Job π × Bool)) (rest : List (Job π)) :
    judgeAll judge seen before (judged.map Prod.fst ++ j :: rest) =
      (before.reverse ++ judged, j :: rest) := by
  induction judged generalizing seen before with
  | nil =>
    have hpanic : judge seen j.view = .panic := h
    simp [judgeAll, hpanic]
  | cons x judged ih =>
    obtain ⟨i, stays⟩ := x
    obtain ⟨hanswer, hrest⟩ := h
    cases stays <;> simp [judgeAll, hanswer, ih hrest]

theorem run_of_panicsAt (h : judge.PanicsAt j #[] judged) (rest : List (Job π)) :
    run judge (judged.map Prod.fst ++ j :: rest) =
      .panicked (shift [] [] judged ++ j :: rest) := by
  rw [run, judgeAll_of_panicsAt h [] rest]
  rfl

/-- Jobs that stay keep their order and come first. The others are behind them, in some order. -/
theorem exists_shift_eq (kept gap : List (Job π)) (judged : List (Job π × Bool)) :
    ∃ gap', gap'.Perm (gap ++ condemned judged) ∧
      shift kept gap judged = kept ++ (staying judged ++ gap') := by
  induction judged generalizing kept gap with
  | nil => exact ⟨gap, by simp [condemned], by simp [shift, staying]⟩
  | cons x judged ih =>
    obtain ⟨i, stays⟩ := x
    cases stays with
    | false =>
      obtain ⟨gap', hperm, heq⟩ := ih kept (gap ++ [i])
      exact ⟨gap', by simpa [condemned] using hperm, by simpa [shift, staying] using heq⟩
    | true =>
      cases gap with
      | nil =>
        obtain ⟨gap', hperm, heq⟩ := ih (kept ++ [i]) []
        exact ⟨gap', by simpa [condemned] using hperm, by simpa [shift, staying] using heq⟩
      | cons g gs =>
        obtain ⟨gap', hperm, heq⟩ := ih (kept ++ [i]) (gs ++ [g])
        refine ⟨gap', hperm.trans ?_, by simpa [shift, staying] using heq⟩
        simp [condemned]

theorem shift_eq_of_pairwise (kept gap : List (Job π))
    (h : judged.Pairwise fun x y => x.2 = false → y.2 = false)
    (hgap : gap ≠ [] → ∀ x ∈ judged, x.2 = false) :
    shift kept gap judged = kept ++ (gap ++ judged.map Prod.fst) := by
  induction judged generalizing kept gap with
  | nil => simp [shift]
  | cons x judged ih =>
    obtain ⟨i, stays⟩ := x
    obtain ⟨hfirst, hpairs⟩ := List.pairwise_cons.mp h
    cases stays with
    | false =>
      rw [shift, ih kept (gap ++ [i]) hpairs fun _ x hx => hfirst x hx rfl]
      simp
    | true =>
      cases gap with
      | nil =>
        rw [shift, ih (kept ++ [i]) [] hpairs fun hne => absurd rfl hne]
        simp
      | cons g gs => cases hgap (List.cons_ne_nil g gs) _ List.mem_cons_self

/-- The jobs stand as before just if none was to stay after a condemned one. -/
theorem shift_eq_map_iff (hnodup : (judged.map Prod.fst).Nodup) :
    shift [] [] judged = judged.map Prod.fst ↔
      judged.Pairwise fun x y => x.2 = false → y.2 = false := by
  refine ⟨fun h => ?_, fun h => by simpa using shift_eq_of_pairwise [] [] h⟩
  obtain ⟨gap, hperm, hshift⟩ := exists_shift_eq [] [] judged
  rw [h, List.nil_append, List.map_eq_append_iff] at hshift
  obtain ⟨front, back, rfl, hfront, hback⟩ := hshift
  have hverdict : ∀ x ∈ front ++ back, ∀ stays, (x.1, stays) ∈ front ++ back → x.2 = stays := by
    intro x hx stays hmem
    exact congrArg Prod.snd (List.inj_on_of_nodup_map hnodup hx hmem rfl)
  have hstay : ∀ x ∈ front, x.2 = true := by
    intro x hx
    have hmem : x.1 ∈ staying (front ++ back) := hfront ▸ List.mem_map_of_mem hx
    exact hverdict x (List.mem_append_left _ hx) true (mem_staying.mp hmem)
  have hleave : ∀ x ∈ back, x.2 = false := by
    intro x hx
    have hmem : x.1 ∈ condemned (front ++ back) :=
      hperm.mem_iff.mp (hback ▸ List.mem_map_of_mem hx)
    exact hverdict x (List.mem_append_right _ hx) false (mem_condemned.mp hmem)
  refine List.pairwise_append.mpr ⟨?_, ?_, fun x hx y hy _ => hleave y hy⟩
  · exact List.pairwise_of_forall_mem_list fun x hx y _ hfalse => by simp [hstay x hx] at hfalse
  · exact List.pairwise_of_forall_mem_list fun x _ y hy _ => hleave y hy

/-- Jobs in a block may change places as long as the block is in order. -/
theorem inOrder_replace {front block block' back : List (Job π)}
    (h : Queue.InOrder (front ++ (block ++ back))) (hperm : block'.Perm block)
    (hblock : Queue.InOrder block') : Queue.InOrder (front ++ (block' ++ back)) := by
  obtain ⟨hfront, hrest, hcross⟩ := List.pairwise_append.mp h
  obtain ⟨-, hback, hbehind⟩ := List.pairwise_append.mp hrest
  refine List.pairwise_append.mpr ⟨hfront, List.pairwise_append.mpr ⟨hblock, hback, ?_⟩, ?_⟩
  · exact fun a ha => hbehind a (hperm.mem_iff.mp ha)
  · exact fun a ha b hb => hcross a ha b ((hperm.append_right back).mem_iff.mp hb)

/-- The order lasts while jobs that stay pass none but those that are as urgent. -/
theorem inOrder_shift (kept gap : List (Job π)) {tail : List (Job π)}
    (h : Queue.InOrder (kept ++ (gap ++ (judged.map Prod.fst ++ tail))))
    (hgap : ∀ g ∈ gap, ∀ x ∈ judged, x.2 = true → x.1.notAbove g = true)
    (hpairs : judged.Pairwise fun x y => x.2 = false → y.2 = true → y.1.notAbove x.1 = true) :
    Queue.InOrder (shift kept gap judged ++ tail) := by
  induction judged generalizing kept gap with
  | nil => simpa [shift] using h
  | cons x judged ih =>
    obtain ⟨i, stays⟩ := x
    obtain ⟨hfirst, hothers⟩ := List.pairwise_cons.mp hpairs
    have hlater : ∀ g ∈ gap, ∀ x ∈ judged, x.2 = true → x.1.notAbove g = true :=
      fun g hg x hx => hgap g hg x (List.mem_cons_of_mem _ hx)
    cases stays with
    | false =>
      refine ih kept (gap ++ [i]) (by simpa using h) ?_ hothers
      intro g hg x hx hstays
      rcases List.mem_append.mp hg with hg | hg
      · exact hlater g hg x hx hstays
      · rw [List.mem_singleton.mp hg]
        exact hfirst x hx rfl hstays
    | true =>
      cases gap with
      | nil => exact ih (kept ++ [i]) [] (by simpa using h) (by simp) hothers
      | cons g gs =>
        have hblock : Queue.InOrder ((g :: gs) ++ [i]) := by
          have hall : Queue.InOrder
              (kept ++ (((g :: gs) ++ [i]) ++ (judged.map Prod.fst ++ tail))) := by simpa using h
          exact (List.pairwise_append.mp (List.pairwise_append.mp hall).2.1).1
        have hupper : ∀ a ∈ (g :: gs) ++ [i], a.notAbove i = true := by
          intro a ha
          rcases List.mem_append.mp ha with ha | ha
          · exact (List.pairwise_append.mp hblock).2.2 a ha i (List.mem_singleton.mpr rfl)
          · rw [List.mem_singleton.mp ha]
            exact Job.notAbove_refl i
        have hlower : ∀ a ∈ (g :: gs) ++ [i], i.notAbove a = true := by
          intro a ha
          rcases List.mem_append.mp ha with ha | ha
          · exact hgap a ha (i, true) List.mem_cons_self rfl
          · rw [List.mem_singleton.mp ha]
            exact Job.notAbove_refl i
        have hperm : ([i] ++ (gs ++ [g])).Perm ((g :: gs) ++ [i]) :=
          ((List.perm_append_singleton g gs).cons i).trans
            (List.perm_append_singleton i (g :: gs)).symm
        have hmoved : Queue.InOrder ([i] ++ (gs ++ [g])) :=
          List.pairwise_of_forall_mem_list fun a ha b hb =>
            Job.notAbove_trans (hupper a (hperm.mem_iff.mp ha)) (hlower b (hperm.mem_iff.mp hb))
        have hnext : Queue.InOrder
            (kept ++ (([i] ++ (gs ++ [g])) ++ (judged.map Prod.fst ++ tail))) :=
          inOrder_replace (by simpa using h) hperm hmoved
        refine ih (kept ++ [i]) (gs ++ [g]) (by simpa using hnext) ?_ hothers
        intro a ha
        exact hlater a ((List.perm_append_singleton g gs).mem_iff.mp ha)

/-- The jobs are in order just if each that was to stay is as urgent as those it has passed. -/
theorem inOrder_shift_iff {tail : List (Job π)}
    (h : Queue.InOrder (judged.map Prod.fst ++ tail)) :
    Queue.InOrder (shift [] [] judged ++ tail) ↔
      judged.Pairwise fun x y => x.2 = false → y.2 = true → y.1.notAbove x.1 = true := by
  refine ⟨fun hshift => ?_, fun hpairs => inOrder_shift [] [] (by simpa using h) (by simp) hpairs⟩
  obtain ⟨gap, hperm, heq⟩ := exists_shift_eq [] [] judged
  rw [heq, List.nil_append, List.append_assoc] at hshift
  refine List.pairwise_of_forall_mem_list fun x hx y hy hleaves hstays => ?_
  have hbefore : y.1 ∈ staying judged := mem_staying.mpr (hstays ▸ hy)
  have hbehind : x.1 ∈ gap := hperm.mem_iff.mpr (mem_condemned.mpr (hleaves ▸ hx))
  exact (List.pairwise_append.mp hshift).2.2 _ hbefore _ (List.mem_append_left _ hbehind)

end Sweep

namespace Workbench

/-- What a panic at a job leaves of a workbench. -/
structure Interrupted (b b' : Workbench π ω) (judged : List (Job π × Bool)) (rest : List (Job π)) :
    Prop where
  /-- Nothing is touched but the places of jobs. -/
  others : b' = { b with queue := b.queue.withJobs b'.queue.jobs }
  all : b'.queue.jobs.Perm b.queue.jobs
  places : ∃ gap, gap.Perm (Sweep.condemned judged) ∧
    b'.queue.jobs = Sweep.staying judged ++ (gap ++ rest)
  same_iff : b.queue.jobs.Nodup → (b' = b ↔ judged.Pairwise fun x y => x.2 = false → y.2 = false)
  inOrder_iff : Queue.InOrder b.queue.jobs → (Queue.InOrder b'.queue.jobs ↔
    judged.Pairwise fun x y => x.2 = false → y.2 = true → y.1.notAbove x.1 = true)

/-- A judge that panics at its call for some job, whatever it has answered before, leaves all jobs
and all tickets. The jobs that were to stay have come to the front. -/
theorem interrupted_of_panic {b : Workbench π ω} {judge : Judge π}
    {judged : List (Job π × Bool)} {j : Job π} {rest : List (Job π)}
    (hjobs : b.queue.jobs = judged.map Prod.fst ++ j :: rest) (h : judge.PanicsAt j #[] judged) :
    ∃ b', b.deleteWhere judge = (none, b') ∧ b.Interrupted b' judged (j :: rest) := by
  have hrun : b.deleteWhere judge = (none, { b with
      queue := b.queue.withJobs (Sweep.shift [] [] judged ++ j :: rest) }) := by
    rw [deleteWhere, Queue.deleteWhere, hjobs, Sweep.run_of_panicsAt h]
  have hperm := Sweep.shift_perm [] [] judged
  obtain ⟨gap, hgap, hshift⟩ := Sweep.exists_shift_eq [] [] judged
  refine ⟨_, hrun, ?_, ?_, ⟨gap, hgap, ?_⟩, fun hnodup => ?_, fun horder => ?_⟩
  · simp
  · rw [Queue.jobs_withJobs, hjobs]
    exact hperm.append_right _
  · rw [Queue.jobs_withJobs, hshift, List.nil_append, List.append_assoc]
  · rw [hjobs] at hnodup
    rw [← Sweep.shift_eq_map_iff hnodup.of_append_left, Workbench.mk.injEq]
    simp [Queue.withJobs_eq_self_iff, hjobs]
  · rw [hjobs] at horder
    rw [Queue.jobs_withJobs]
    exact Sweep.inOrder_shift_iff horder

/-- The jobs of three submissions, the more urgent the later. -/
def laterJob (n : Nat) : Job Unit :=
  .work (.ofTaskCount ⟨UInt64.ofNat n⟩ (UInt16.ofNat n) 0 1 () (n - 1))

def threeJobs : Workbench Unit Unit :=
  [1, 2, 3].foldl
    (fun b n => (b.submit ⟨UInt64.ofNat n⟩ (UInt16.ofNat n) 0 1 ()).2)
    (.empty .leastUrgentFirst)

/-- Condemns the first job, lets the second one stay, and panics. -/
def removeKeepPanic : Judge Unit := fun seen _ =>
  if seen.size = 0 then .remove else if seen.size = 1 then .keep else .panic

theorem interrupted_threeJobs :
    threeJobs.queue.jobs =
        [(laterJob 1, false), (laterJob 2, true)].map Prod.fst ++ [laterJob 3] ∧
      removeKeepPanic.PanicsAt (laterJob 3) #[] [(laterJob 1, false), (laterJob 2, true)] ∧
      ∃ b', threeJobs.deleteWhere removeKeepPanic = (none, b') ∧
        threeJobs.Interrupted b' [(laterJob 1, false), (laterJob 2, true)] [laterJob 3] := by
  have hjobs : threeJobs.queue.jobs =
      [(laterJob 1, false), (laterJob 2, true)].map Prod.fst ++ [laterJob 3] := by decide
  have hpanics : removeKeepPanic.PanicsAt (laterJob 3) #[]
      [(laterJob 1, false), (laterJob 2, true)] := ⟨rfl, rfl, rfl⟩
  exact ⟨hjobs, hpanics, interrupted_of_panic hjobs hpanics⟩

/-- The panic comes at the third call. The job that was to stay has passed the condemned one, and it
is taken first. -/
theorem disordered_threeJobs :
    threeJobs.queue.jobs.map Job.id = [⟨1⟩, ⟨2⟩, ⟨3⟩] ∧ Queue.InOrder threeJobs.queue.jobs ∧
      (threeJobs.deleteWhere removeKeepPanic).1 = none ∧
      (threeJobs.deleteWhere removeKeepPanic).2.queue.jobs.map Job.id = [⟨2⟩, ⟨1⟩, ⟨3⟩] ∧
      ¬ Queue.InOrder (threeJobs.deleteWhere removeKeepPanic).2.queue.jobs ∧
      threeJobs.pop.map (·.1.id) = some ⟨1⟩ ∧
      (threeJobs.deleteWhere removeKeepPanic).2.pop.map (·.1.id) = some ⟨2⟩ := by
  decide

end Workbench
end PacedJobs
