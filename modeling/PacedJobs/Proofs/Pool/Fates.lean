import PacedJobs.Proofs.Pool.Answers

/-!
# Fates of jobs

A job is at exactly one place at any time, and the places where it can end exclude each other: it is
executed once at most, reported as cancelled once at most, and never both. What a worker has
executed and put away is answered once, if the owner of the ticket has waited.
-/

namespace PacedJobs

/-- Where a job is. -/
inductive Place where
  | pending
  | held
  | received (worker : Nat)
  /-- A placeholder that has taken up its time slice. -/
  | spent (worker : Nat)
  | executed (worker : Nat)
  | refused
  | cancelled
  /-- Dropped when the queue was closed. -/
  | closed
  /-- Dropped by the coordinator or a worker that stopped. -/
  | abandoned
deriving DecidableEq, Repr

variable {π ω : Type}

namespace Event

/-- The jobs that leave with an event, and where they go. -/
def fates : Event π ω → List (Place × Job π)
  | refused w => [(.refused, .work w)]
  | cancelled js => js.map fun j => (.cancelled, j)
  | closed js => js.map fun j => (.closed, j)
  | abandoned j => [(.abandoned, j)]
  | began i (.placeholder id) _ => [(.spent i, .placeholder id)]
  | called i w => [(.executed i, .work w)]
  | _ => []

theorem map_snd_fates (e : Event π ω) : e.fates.map Prod.snd = e.departures := by
  cases e with
  | began i j time => cases j <;> rfl
  | cancelled js => simp [fates, departures, Function.comp_def]
  | closed js => simp [fates, departures, Function.comp_def]
  | _ => rfl

def cancellations : Event π ω → List (Job π)
  | cancelled js => js
  | _ => []

theorem cancellations_append_executed_sublist (e : Event π ω) :
    (e.cancellations ++ e.executed).Sublist e.departures := by
  cases e with
  | cancelled js => simp [cancellations, executed, departures]
  | called i w => exact .refl _
  | _ => simp [cancellations, executed]

end Event

namespace Pool

/-- All jobs that have arrived, each with the place where it is. -/
def whereabouts (p : Pool π ω) : List (Place × Job π) :=
  p.queue.line.map (fun j => (.pending, j)) ++ p.coordinator.hand.map (fun j => (.held, j)) ++
    (p.workers.zipIdx.flatMap fun x => x.1.hand.map fun j => (.received x.2, j)) ++
    p.history.flatMap Event.fates

def cancellations (p : Pool π ω) : List (Job π) :=
  p.history.flatMap Event.cancellations

/-- The results that were written to the ticket with a number, from the last to the first. -/
def written (p : Pool π ω) (n : Nat) : List (Except JobError ω) :=
  p.history.filterMap fun
    | .written _ w r => if w.ticket = n then some r else none
    | _ => none

/-- The names that a client's call reports as cancelled. -/
def reported (p : Pool π ω) : Label π ω → List JobId
  | .cancel id => if (p.cancel id).1 then [id] else []
  | .cancelWhere judge => (p.cancelWhere judge).1.map Job.id
  | _ => []

/-- The names that the calls of a run report as cancelled, each as often as it is reported. -/
def reports (p : Pool π ω) : List (Label π ω) → List JobId
  | [] => []
  | l :: ls => p.reported l ++ ((p.step l).map fun q => q.reports ls).getD []

variable {p q : Pool π ω} {l : Label π ω} {ls : List (Label π ω)}

theorem map_snd_whereabouts (p : Pool π ω) :
    p.whereabouts.map Prod.snd = p.kept ++ p.departures := by
  have hhands : ((p.workers.zipIdx.flatMap fun x => x.1.hand.map fun j =>
      (Place.received x.2, j)).map Prod.snd) = p.hands := by
    have hworkers : p.hands = (p.workers.zipIdx.map Prod.fst).flatMap Worker.hand := by
      rw [List.zipIdx_map_fst, hands]
    rw [hworkers, List.flatMap_map]
    simp [List.map_flatMap, Function.comp_def]
  have hgone : (p.history.flatMap Event.fates).map Prod.snd = p.departures := by
    simp only [List.map_flatMap, Event.map_snd_fates]
    rfl
  simp [whereabouts, hhands, hgone, kept, Function.comp_def]

theorem Sound.whereabouts_perm (h : Sound p) : (p.whereabouts.map Prod.snd).Perm p.arrivals := by
  refine perm_of_weigh fun f => ?_
  rw [map_snd_whereabouts, weigh_append]
  exact (h.balanced f).conserved

theorem filter_id_eq_singleton {js : List (Job π)} (hnames : (js.map Job.id).Nodup) {j : Job π}
    (hj : j ∈ js) : js.filter (fun i => i.id = j.id) = [j] := by
  induction js with
  | nil => cases hj
  | cons i js ih =>
    obtain ⟨hi, hnames⟩ := List.nodup_cons.mp hnames
    rcases List.mem_cons.mp hj with rfl | hj
    · have hrest : js.filter (fun i => i.id = j.id) = [] := by
        rw [List.filter_eq_nil_iff]
        intro k hk heq
        exact hi (List.mem_map.mpr ⟨k, hk, by simpa using heq⟩)
      rw [List.filter_cons_of_pos (by simp), hrest]
    · have hne : i.id ≠ j.id := fun heq => hi (heq ▸ List.mem_map_of_mem hj)
      rw [List.filter_cons_of_neg (by simpa using hne), ih hnames hj]

theorem Sound.exists_place (h : Sound p) (hnames : (p.arrivals.map Job.id).Nodup) {j : Job π}
    (hj : j ∈ p.arrivals) :
    ∃ place, p.whereabouts.filter (fun x => x.2.id = j.id) = [(place, j)] := by
  have hperm := (h.whereabouts_perm.filter fun i => i.id = j.id)
  rw [filter_id_eq_singleton hnames hj, List.filter_map, List.perm_singleton] at hperm
  obtain ⟨x, hx, hj⟩ := List.map_eq_singleton_iff.mp hperm
  obtain ⟨place, i⟩ := x
  exact ⟨place, hx.trans (by rw [← hj])⟩

theorem cancellations_of_move (h : Move p l q) :
    q.cancellations.map Job.id = p.reported l ++ p.cancellations.map Job.id := by
  cases h with
  | cancelMiss hmiss => simp [reported, cancel, hmiss]
  | cancel j queue hdelete =>
    simp [reported, cancel, hdelete, cancellations, record, drop, Event.cancellations,
      Queue.id_of_delete hdelete]
  | sweepPanic queue hsweep => simp [reported, cancelWhere, hsweep, cancellations]
  | sweep js queue hsweep =>
    simp [reported, cancelWhere, hsweep, cancellations, record, drop, Event.cancellations]
  | @reserve k ids count hcall hids =>
    rcases p.reserve_cases ids with heq | ⟨-, heq⟩ <;> rw [heq] <;> rfl
  | @prepare i ids w began hat hmode hmore hids =>
    rcases p.reserve_cases ids with heq | ⟨-, heq⟩ <;> rw [heq] <;> rfl
  | _ => rfl

theorem cancellations_of_run (h : p.run? ls = some q) :
    (q.cancellations.map Job.id).Perm (p.cancellations.map Job.id ++ p.reports ls) := by
  induction ls generalizing p with
  | nil =>
    cases h
    simp [reports]
  | cons l ls ih =>
    obtain ⟨s, hs, hrun⟩ := run?_cons.mp h
    refine (ih hrun).trans ?_
    rw [reports, hs, Option.map_some, Option.getD_some, ← List.append_assoc,
      cancellations_of_move (move_of_step hs)]
    exact List.perm_append_comm.append_right _

theorem map_work_called (p : Pool π ω) : p.called.map Job.work = p.executed.reverse := by
  unfold called executed
  rw [List.map_reverse]
  congr 1
  induction p.history with
  | nil => rfl
  | cons e es ih => cases e <;> simp [Event.executed, ih]

/-- Names that are neither executed nor cancelled more than once, in all. -/
theorem Sound.gone_nodup (h : Sound p) (hnames : (p.arrivals.map Job.id).Nodup) :
    ((p.cancellations ++ p.executed).map Job.id).Nodup := by
  have hkept : ((p.kept ++ p.departures).map Job.id).Nodup := by
    rw [← map_snd_whereabouts]
    exact ((h.whereabouts_perm.map Job.id).nodup_iff).mpr hnames
  have hgone : (p.history.flatMap fun e => e.cancellations ++ e.executed).Sublist
      (p.kept ++ p.departures) :=
    (List.Sublist.flatMap_right p.history fun e _ =>
      e.cancellations_append_executed_sublist).trans (List.sublist_append_right _ _)
  have hperm := (List.flatMap_append_perm p.history Event.cancellations Event.executed).map Job.id
  exact hperm.nodup_iff.mpr ((hgone.map Job.id).nodup hkept)

/-- Names are neither executed nor reported as cancelled more than once, in all. -/
theorem Sound.reports_nodup {c : Config} {operation : String}
    (hrun : (Pool.start c operation).run? ls = some p) (h : Sound p)
    (hnames : (p.arrivals.map Job.id).Nodup) :
    ((Pool.start c operation).reports ls ++ p.called.map Work.id).Nodup := by
  have hreports : (p.cancellations.map Job.id).Perm ((Pool.start c operation).reports ls) :=
    cancellations_of_run hrun
  have hcalled : (p.executed.map Job.id).Perm (p.called.map Work.id) := by
    have hids : p.called.map Work.id = (p.called.map Job.work).map Job.id := by
      rw [List.map_map]
      rfl
    rw [hids, map_work_called]
    exact (p.executed.reverse_perm.map Job.id).symm
  have hgone := h.gone_nodup hnames
  rw [List.map_append] at hgone
  exact ((hreports.append hcalled).nodup_iff).mp hgone

theorem length_written (p : Pool π ω) (n : Nat) :
    (p.written n).length = weigh (atTicket n) p.answered := by
  unfold written answered
  induction p.history with
  | nil => rfl
  | cons e es ih =>
    cases e with
    | written i w r =>
      by_cases hn : w.ticket = n <;> simp [Event.answered, hn, ih]
      omega
    | _ => simpa [Event.answered] using ih

theorem exists_of_mem_written {n : Nat} {r : Except JobError ω} (h : r ∈ p.written n) :
    ∃ i w, .written i w r ∈ p.history ∧ w.ticket = n := by
  obtain ⟨e, he, hr⟩ := List.mem_filterMap.mp h
  split at hr
  next i w r' =>
    split at hr
    next hn =>
      cases hr
      exact ⟨i, w, he, hn⟩
    next => cases hr
  next => cases hr

/-- What is written to a ticket is added by the events that tell of it. -/
theorem written_of_history (es : List (Event π ω)) (h : q.history = es ++ p.history) (n : Nat)
    (hes : ∀ i w r, .written i w r ∈ es → w.ticket ≠ n) : q.written n = p.written n := by
  unfold written
  rw [h, List.filterMap_append]
  refine List.append_left_eq_self.mpr (List.filterMap_eq_nil_iff.mpr ?_)
  intro e he
  split
  next i w r => exact if_neg (hes i w r he)
  next => rfl

theorem Sound.written_eq_nil_of_le (h : Sound p) {n : Nat} (hn : p.tickets.length ≤ n) :
    p.written n = [] := by
  have hnumbered := h.matched.numbered n
  have hanswered := (h.balanced (atTicket n)).answered_le
  have hexecuted := (h.balanced (atTicket n)).executed_le_arrivals
  have hlength := p.length_written n
  rw [if_neg (Nat.not_lt.mpr hn)] at hnumbered
  refine List.length_eq_zero_iff.mp ?_
  omega

theorem Sound.work_unique (h : Sound p) {w w' : Work π} (hw : .work w ∈ p.arrivals)
    (hw' : .work w' ∈ p.arrivals) (hticket : w'.ticket = w.ticket) : w' = w := by
  have heq := eq_of_weigh_le_one (h.weigh_arrivals_le w.ticket) hw' hw (by simp [hticket]) (by simp)
  exact Job.work.inj heq

theorem Sound.departures_subset (h : Sound p) : p.departures ⊆ p.arrivals := by
  intro j hj
  refine h.whereabouts_perm.subset ?_
  rw [map_snd_whereabouts]
  exact List.mem_append_right _ hj

theorem executed_subset (p : Pool π ω) : p.executed ⊆ p.departures := by
  intro j hj
  obtain ⟨e, he, hje⟩ := List.mem_flatMap.mp hj
  exact List.mem_flatMap.mpr ⟨e, he,
    (List.sublist_append_right _ _).trans e.cancellations_append_executed_sublist |>.subset hje⟩

theorem cancellations_subset (p : Pool π ω) : p.cancellations ⊆ p.departures := by
  intro j hj
  obtain ⟨e, he, hje⟩ := List.mem_flatMap.mp hj
  exact List.mem_flatMap.mpr ⟨e, he,
    (List.sublist_append_left _ _).trans e.cancellations_append_executed_sublist |>.subset hje⟩

theorem work_mem_executed {i : Nat} {w : Work π} (h : .called i w ∈ p.history) :
    .work w ∈ p.executed :=
  List.mem_flatMap.mpr ⟨_, h, List.mem_singleton.mpr rfl⟩

theorem Sound.called_unique (h : Sound p) {i i' : Nat} {w w' : Work π}
    (hcalled : .called i w ∈ p.history) (hcalled' : .called i' w' ∈ p.history)
    (hticket : w'.ticket = w.ticket) : i' = i ∧ w' = w := by
  have hone := h.weigh_executed_le w.ticket
  rw [executed, weigh_flatMap] at hone
  have heq := eq_of_weigh_le_one hone hcalled' hcalled (by simp [Event.executed, hticket])
    (by simp [Event.executed])
  cases heq
  exact ⟨rfl, rfl⟩

theorem mem_called {w : Work π} : w ∈ p.called ↔ ∃ i, .called i w ∈ p.history := by
  unfold called
  rw [List.mem_reverse, List.mem_filterMap]
  constructor
  · rintro ⟨e, he, hw⟩
    cases e with
    | called i w' =>
      cases hw
      exact ⟨i, he⟩
    | _ => cases hw
  · rintro ⟨i, hi⟩
    exact ⟨_, hi, rfl⟩

theorem Sound.kept_subset (h : Sound p) : p.kept ⊆ p.arrivals := by
  intro j hj
  refine h.whereabouts_perm.subset ?_
  rw [map_snd_whereabouts]
  exact List.mem_append_left _ hj

theorem Sound.mem_arrivals_of_called (h : Sound p) {i : Nat} {w : Work π}
    (hcalled : .called i w ∈ p.history) :
    .work w ∈ p.arrivals :=
  h.departures_subset (p.executed_subset (work_mem_executed hcalled))

/-- The transport was not called for what somebody has not begun. -/
theorem Sound.not_called_of_kept (h : Sound p) {w : Work π} (hw : .work w ∈ p.kept) (i : Nat) :
    .called i w ∉ p.history := by
  intro hcalled
  have hkept := le_weigh (f := atTicket w.ticket) hw
  have hgone := le_weigh (f := atTicket w.ticket) (p.executed_subset (work_mem_executed hcalled))
  have hconserved := (h.balanced (atTicket w.ticket)).conserved
  have hone := h.weigh_arrivals_le w.ticket
  rw [atTicket_work, if_pos rfl] at hkept hgone
  omega

theorem Sound.alone_of_hand (h : Sound p) {i : Nat} {v : Worker π ω} {w : Work π}
    (hat : p.workers[i]? = some v)
    (hv : .work w ∈ v.hand) :
    .work w ∉ p.queue.line ∧ .work w ∉ p.coordinator.hand ∧
      ∀ (k : Nat) (u : Worker π ω), p.workers[k]? = some u → .work w ∈ u.hand → u = v := by
  have hone := h.weigh_arrivals_le w.ticket
  have hconserved := (h.balanced (atTicket w.ticket)).conserved
  have hmem : .work w ∈ p.hands := List.mem_flatMap.mpr ⟨v, List.mem_of_getElem? hat, hv⟩
  have hhands := le_weigh (f := atTicket w.ticket) hmem
  simp only [kept, weigh_append] at hconserved
  rw [atTicket_work, if_pos rfl] at hhands
  have hweight : ∀ js : List (Job π), .work w ∈ js → weigh (atTicket w.ticket) js ≠ 0 := by
    intro js hjs
    have := le_weigh (f := atTicket w.ticket) hjs
    rw [atTicket_work, if_pos rfl] at this
    omega
  refine ⟨fun hline => ?_, fun hheld => ?_, fun k u hu huw => ?_⟩
  · have := hweight _ hline
    omega
  · have := hweight _ hheld
    omega
  · have hone : weigh (atTicket w.ticket) p.hands ≤ 1 := by omega
    rw [hands, weigh_flatMap] at hone
    exact eq_of_weigh_le_one hone (List.mem_of_getElem? hu) (List.mem_of_getElem? hat)
      (hweight _ huw) (hweight _ hv)

/-- What was executed and is not waited for any more is answered once, while the owner of its ticket
has it. -/
theorem Sound.written_eq_of_answered (h : Sound p) {operation : String}
    (ha : Answering operation p) {i : Nat} {w : Work π} (hcalled : .called i w ∈ p.history)
    (hdone : ∀ v : Worker π ω, p.workers[i]? = some v → .work w ∉ v.unanswered)
    (hkept : (p.ticket? w.ticket).isSome) :
    ∃ x : Except Failure ω, .returned i w x ∈ p.history ∧
      p.written w.ticket = [x.mapError fun f => .transport i w.id operation f] := by
  obtain ⟨t, ht⟩ := Option.isSome_iff_exists.mp hkept
  obtain ⟨ht, hreceiver⟩ := ticket?_eq_some_iff.mp ht
  have hexecuted : weigh (atTicket w.ticket) p.executed = 1 := by
    have hle := h.weigh_executed_le w.ticket
    have hge := le_weigh (f := atTicket w.ticket) (work_mem_executed hcalled)
    rw [atTicket_work, if_pos rfl] at hge
    omega
  have hnobody : weigh (atTicket w.ticket) p.unanswered = 0 := by
    by_contra hne
    obtain ⟨j, hj, hjw⟩ := exists_of_weigh_ne_zero hne
    obtain ⟨v, hv, hjv⟩ := List.mem_flatMap.mp hj
    obtain ⟨i', hi'⟩ := List.getElem?_of_mem hv
    obtain ⟨w', rfl, -, hcalled'⟩ := (ha.worker i' v hi').of_mem_unanswered hjv
    have hticket : w'.ticket = w.ticket := by simpa using hjw
    obtain ⟨rfl, rfl⟩ := h.called_unique hcalled hcalled' hticket
    exact hdone v hi' hjv
  have hlength : (p.written w.ticket).length = 1 := by
    have := h.matched.answered_eq _ t ht hreceiver
    rw [length_written]
    omega
  obtain ⟨r, hr⟩ := List.length_eq_one_iff.mp hlength
  obtain ⟨i', w', hwritten, hticket⟩ := exists_of_mem_written (hr ▸ List.mem_singleton.mpr rfl)
  obtain ⟨x, hx, rfl⟩ := ha.event _ hwritten
  obtain ⟨rfl, rfl⟩ := h.called_unique hcalled (ha.event _ hx) hticket
  exact ⟨x, hx, hr⟩

/-- What was executed and put away is answered once, while the owner of its ticket waits. -/
theorem Sound.written_eq (h : Sound p) {operation : String} (ha : Answering operation p) {i : Nat}
    {w : Work π} (hcalled : .called i w ∈ p.history)
    (hdone : ∀ v : Worker π ω, p.workers[i]? = some v → .work w ∉ v.running)
    (hkept : (p.ticket? w.ticket).isSome) :
    ∃ x : Except Failure ω, .returned i w x ∈ p.history ∧
      p.written w.ticket = [x.mapError fun f => .transport i w.id operation f] :=
  h.written_eq_of_answered ha hcalled
    (fun v hv hmem => hdone v hv (v.unanswered_subset_running hmem)) hkept

/-- What is promised of every job, where no two jobs have one name. -/
structure OneFate (p : Pool π ω) (operation : String) (reports : List JobId) : Prop where
  /-- Work that has come in is at one place. -/
  place : ∀ w : Work π, .work w ∈ p.arrivals →
    ∃ place, p.whereabouts.filter (fun x => x.2.id = w.id) = [(place, .work w)]
  /-- Nothing is executed twice or reported as cancelled twice, and nothing is both. -/
  once : (reports ++ p.called.map Work.id).Nodup
  /-- What its worker has put away is answered once, by what the transport answered for it, if
  the ticket still exists. -/
  answer : ∀ i (w : Work π), .called i w ∈ p.history →
    (∀ v : Worker π ω, p.workers[i]? = some v → .work w ∉ v.running) →
    (p.ticket? w.ticket).isSome →
      ∃ x : Except Failure ω, .returned i w x ∈ p.history ∧
        p.written w.ticket = [x.mapError fun f => .transport i w.id operation f]

/-- Every job has one fate, however the steps of clients, coordinator and workers follow each
other. -/
theorem oneFate_of_run {c : Config} {operation : String}
    (h : (Pool.start c operation).run? ls = some p) (hnames : (p.arrivals.map Job.id).Nodup) :
    OneFate p operation ((Pool.start c operation).reports ls) where
  place _ hw := (sound_of_run h).exists_place hnames hw
  once := (sound_of_run h).reports_nodup h hnames
  answer _ _ := (sound_of_run h).written_eq (.of_run h)

/-- Two jobs are submitted, one is cancelled while it is pending, and the other is executed. -/
def cancelAndExecute : List (Label Unit Unit) :=
  [.submit ⟨1⟩ 0 0 1 (), .submit ⟨2⟩ 5 0 1 (), .cancel ⟨2⟩, .coordinate, .coordinate, .coordinate,
    .work 0 [], .work 0 [], .handOver 0, .work 0 [], .work 0 [], .work 0 [], .answer 0 (.ok ()),
    .work 0 [], .work 0 []]

theorem oneFate_cancelAndExecute : ∃ p : Pool Unit Unit,
    (Pool.start { workers := 1 } "run").run? cancelAndExecute = some p ∧
      (p.arrivals.map Job.id).Nodup ∧ OneFate p "run" [⟨2⟩] ∧ p.called.map Work.id = [⟨1⟩] := by
  refine ⟨_, rfl, ?_, ?_, rfl⟩
  · decide
  · have hrun : (Pool.start { workers := 1 } "run").run? cancelAndExecute = some _ := rfl
    exact oneFate_of_run hrun (by decide)

end Pool
end PacedJobs
