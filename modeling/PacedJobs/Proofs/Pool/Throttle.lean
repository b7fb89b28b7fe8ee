import PacedJobs.Proofs.Pool.Prospects
import PacedJobs.Proofs.Signal.Instants

/-!
# Time slices and the last instant

A worker pauses for what is left of its time slice, and that can always be represented. The end of
the pause may lie beyond the last instant. Then the worker crashes, and this is the only way to
crash. So while the clock is a time slice before its end nobody crashes: a worker comes back from
its cycle or stops because the signal has fired, and the pool goes on. A slice that is longer than
the clock can count leaves every worker with one cycle.
-/

namespace PacedJobs

variable {π ω : Type}

namespace Worker

variable {p : Pool π ω} {s now began : Nat} {ts : List Nat} {w : Worker π ω}

/-- Where a worker is whose time slice ends beyond the last instant: in the cycle that began with
it, before a pause that crashes it, or at its end. -/
def Final (now began : Nat) : Worker π ω → Prop
  | processing _ b | ready _ b | executing _ b | replying _ _ b | delivered _ b | undelivered _ b
  | measuring b => b = began
  | pausing timeout => endOfTime ≤ now + timeout
  | stopped | crashed => True
  | _ => False

theorem Paced.final (h : w.Paced s now ts) (htimely : w.Timely s now)
    (hlast : ts.getLast? = some began) (hlate : endOfTime ≤ began + s)
    (hnow : now < endOfTime) : w.Final now began := by
  have hmem : began ∈ ts := List.mem_of_getLast? hlast
  have hgone (hpast : ∀ t ∈ ts, t + s ≤ now) : False := by
    have := hpast began hmem
    omega
  have hearly {deadline : Nat} (hts : ∀ t ∈ ts, t + s ≤ deadline) (hlt : deadline < endOfTime) :
      False := by
    have := hts began hmem
    omega
  cases w with
  | pausing timeout => exact hlate.trans (h began hmem)
  | watching deadline => exact hearly h htimely.1
  | asleep deadline => exact hearly h htimely.1
  | looping => exact hgone h
  | queuing => exact hgone h
  | receiving => exact hgone h
  | received j => exact hgone h
  | admitted j => exact hgone h
  | stopped => trivial
  | crashed => trivial
  | _ => exact Option.some.inj (h.1.symm.trans hlast)

/-- A worker crashes only when the end of its pause cannot be represented. -/
theorem Step.pausing_of_crashed {i : Nat} {l : Label π ω} {es : List (Event π ω)}
    (h : Step p i l w .crashed es) :
    ∃ timeout, w = .pausing timeout ∧ deadline? p.now timeout = none := by
  generalize hcrashed : Worker.crashed = w' at h
  cases h with
  | turn hturn hawake =>
    cases hturn with
    | crash hdeadline => exact ⟨_, rfl, hdeadline⟩
    | _ => cases hcrashed
  | letGo w began => cases hfired : p.triggered <;> simp [hfired] at hcrashed
  | _ => cases hcrashed

end Worker

namespace Pool

variable {p q : Pool π ω} {l : Label π ω} {i : Nat} {c : Config} {operation : String}
  {ls : List (Label π ω)}

theorem cycles_reserve (p : Pool π ω) (ids : List JobId) : (p.reserve ids).cycles = p.cycles := by
  rcases p.reserve_cases ids with heq | ⟨-, heq⟩ <;> rw [heq]
  rfl

theorem Move.cycles_eq (h : Move p l q) :
    q.cycles = p.cycles ∨ ∃ i, q.cycles = p.cycles ++ [(i, p.now)] := by
  cases h with
  | reserve hcall hids => exact .inl (p.cycles_reserve _)
  | prepare hat hmode hmore hids => exact .inl (p.cycles_reserve _)
  | @begin i ids j hat => exact .inr ⟨i, by simp [cycles, record, setWorker, Event.cycle?]⟩
  | _ => exact .inl rfl

theorem cycles_le_now_of_run (h : (Pool.start c operation).run? ls = some p) :
    ∀ x ∈ p.cycles, x.2 ≤ p.now := by
  refine invariant_run? (I := fun p => ∀ x ∈ p.cycles, x.2 ≤ p.now) ?_
    (by simp [cycles, Pool.start]) h
  intro p l q hp hmove x hx
  rcases hmove.cycles_eq with heq | ⟨i, heq⟩
  · exact (hp x (heq ▸ hx)).trans hmove.now_le
  · rcases List.mem_append.mp (heq ▸ hx) with hx | hx
    · exact (hp x hx).trans hmove.now_le
    · rw [List.mem_singleton.mp hx]
      exact hmove.now_le

theorem begins_le_now_of_run (h : (Pool.start c operation).run? ls = some p) :
    ∀ b ∈ p.begins i, b ≤ p.now := by
  intro b hb
  obtain ⟨x, hx, rfl⟩ := List.mem_map.mp hb
  exact cycles_le_now_of_run h x (List.mem_of_mem_filter hx)

/-- No cycle follows one whose time slice ends beyond the last instant. -/
theorem getLast?_begins_of_run (h : (Pool.start c operation).run? ls = some p)
    (hnow : p.now < endOfTime) {b : Nat} (hb : b ∈ p.begins i)
    (hlate : endOfTime ≤ b + p.timeSlice) : (p.begins i).getLast? = some b := by
  obtain ⟨before, after, heq⟩ := List.append_of_mem hb
  cases after with
  | nil => simp [heq]
  | cons b' after =>
    have hspaced : Spaced p.timeSlice (p.begins i) := (paced_of_run h).spaced i
    rw [heq] at hspaced
    have hnext : b + p.timeSlice ≤ b' :=
      List.rel_of_pairwise_cons (List.pairwise_append.mp hspaced).2.1 List.mem_cons_self
    have hb' : b' ≤ p.now := begins_le_now_of_run h b' (by rw [heq]; simp)
    omega

theorem Move.pausing_of_crashed (h : Move p l q) {w : Worker π ω} (hat : p.workers[i]? = some w)
    (hw : w ≠ .crashed) (hcrashed : q.workers[i]? = some .crashed) :
    ∃ timeout, w = .pausing timeout ∧ deadline? p.now timeout = none := by
  obtain ⟨w', es, hat', -, hcase⟩ := h.worker hat
  rw [hcrashed] at hat'
  cases hat'
  rcases hcase with hstep | ⟨-, -, hsame | ⟨-, hnotified⟩⟩
  · exact hstep.pausing_of_crashed
  · exact absurd hsame.symm hw
  · cases w <;> first | exact absurd rfl hw | cases hnotified

/-- While the end of a time slice can be represented nobody crashes. -/
theorem Move.ne_crashed (h : Move p l q) (hsteady : Steady p)
    (htime : p.now + p.timeSlice < endOfTime) (hp : ∀ w ∈ p.workers, w ≠ .crashed) :
    ∀ w ∈ q.workers, w ≠ .crashed := by
  rintro w' hw' rfl
  obtain ⟨i, hat'⟩ := List.getElem?_of_mem hw'
  obtain ⟨w, es, hat, -⟩ := h.worker_of_after hat'
  have hmem := List.mem_of_getElem? hat
  obtain ⟨timeout, rfl, hnone⟩ := h.pausing_of_crashed hat (hp w hmem) hat'
  have htimeout : timeout ≤ p.timeSlice := (hsteady _ hmem).2
  rw [deadline?, if_pos (by omega)] at hnone
  cases hnone

theorem ne_crashed_of_run (h : (Pool.start c operation).run? ls = some p)
    (htime : p.now + p.timeSlice < endOfTime) : ∀ w ∈ p.workers, w ≠ .crashed := by
  let I (p : Pool π ω) : Prop :=
    Steady p ∧ (p.now + p.timeSlice < endOfTime → ∀ w ∈ p.workers, w ≠ .crashed)
  have hI : I p := by
    refine invariant_run? (I := I) ?_ ⟨steady_start c operation, ?_⟩ h
    · intro p l q hp hmove
      refine ⟨hp.1.move hmove, fun htime => ?_⟩
      have hbefore : p.now + p.timeSlice < endOfTime := by
        have := hmove.now_le
        rw [hmove.timeSlice_eq] at htime
        omega
      exact hmove.ne_crashed hp.1 hbefore (hp.2 hbefore)
    · intro _ w hw
      rw [List.eq_of_mem_replicate hw]
      exact nofun
  exact hI.2 htime

theorem Move.cycles_eq_of_hasEnded (h : Move p l q)
    (hended : ∀ w ∈ p.workers, w.hasEnded = true) :
    q.cycles = p.cycles ∧ ∀ w ∈ q.workers, w.hasEnded = true := by
  constructor
  · cases h with
    | begin hat => cases hended _ (List.mem_of_getElem? hat)
    | reserve hcall hids => exact cycles_reserve _ _
    | prepare hat hmode hmore hids => exact cycles_reserve _ _
    | _ => rfl
  · intro w' hw'
    obtain ⟨i, hat'⟩ := List.getElem?_of_mem hw'
    obtain ⟨w, es, hat, -, hcase⟩ := h.worker_of_after hat'
    have hw := hended w (List.mem_of_getElem? hat)
    rcases hcase with hstep | ⟨-, -, rfl | ⟨-, rfl⟩⟩
    · cases hstep with
      | turn hturn hawake => cases hturn <;> cases hw
      | call w began hat => rcases hat with rfl | rfl <;> cases hw
      | _ => cases hw
    · exact hw
    · cases w <;> exact hw

theorem cycles_eq_of_hasEnded (h : p.run? ls = some q)
    (hended : ∀ w ∈ p.workers, w.hasEnded = true) : q.cycles = p.cycles := by
  let I (r : Pool π ω) : Prop := r.cycles = p.cycles ∧ ∀ w ∈ r.workers, w.hasEnded = true
  have hI : I q := by
    refine invariant_run? (I := I) ?_ ⟨rfl, hended⟩ h
    intro r l q hr hmove
    obtain ⟨hcycles, hended'⟩ := hmove.cycles_eq_of_hasEnded hr.2
    exact ⟨hcycles.trans hr.1, hended'⟩
  exact hI.1

theorem step_of_pausing {ids : List JobId} {timeout : Nat}
    (hat : p.workers[i]? = some (.pausing timeout)) :
    p.step (.work i ids) = some (p.setWorker i
      (match deadline? p.now timeout with
        | some deadline => .watching deadline
        | none => .crashed)) := by
  simp only [step, work?, hat]
  cases deadline? p.now timeout <;> rfl

/-- What a time slice does to a pool when the clock shows an instant. -/
structure Throttled (s : Span) (t : Instant) (p : Pool π ω) : Prop where
  /-- A worker that has finished a job pauses for the slice without the time that its cycle has
  taken. -/
  rest : ∀ (i : Nat) ids began, p.workers[i]? = some (.measuring began) →
    ∃ u : Instant, u.position = began ∧
      p.step (.work i ids) = some (p.setWorker i (.pausing (s.minus (t.since u)).length))
  /-- A pause is no longer than the slice. It ends a span after now, and the worker crashes if there
  is no such instant, whether or not the signal has fired. -/
  pause : ∀ (i : Nat) ids timeout, p.workers[i]? = some (.pausing timeout) → ∃ r : Span,
    r.length = timeout ∧ r.length ≤ s.length ∧ p.step (.work i ids) = some (p.setWorker i
      (match t.add? r with
        | some u => .watching u.position.toNat
        | none => .crashed))
  /-- Nothing else crashes a worker. -/
  crash : ∀ l q (i : Nat) w, p.step l = some q → p.workers[i]? = some w → w ≠ .crashed →
    q.workers[i]? = some .crashed → ∃ r : Span, w = .pausing r.length ∧ t.add? r = none
  /-- While there is an instant a slice after now nobody has crashed, and nobody crashes. -/
  spared : t.add? s ≠ none → (∀ w ∈ p.workers, w ≠ .crashed) ∧
    ∀ l q, p.step l = some q → ∀ w ∈ q.workers, w ≠ .crashed
  /-- A worker leaves its loop after the signal has fired only. -/
  leaves : t.add? s ≠ none → ∀ l q (i : Nat) w w', p.step l = some q → p.workers[i]? = some w →
    q.workers[i]? = some w' → w.hasEnded = false → w'.hasEnded = true → p.triggered = true
  /-- With nobody but the transport and the clock a worker comes back from its cycle, within a slice
  from now. -/
  returns : t.add? s ≠ none → ∀ (i : Nat) w, p.workers[i]? = some w → w.isUnderWay = true → ∃ q,
    p.Leads (Label.isOf i) q ∧ q.now ≤ p.now + s.length ∧
      q.workers[i]? = some (if p.triggered then .stopped else .looping)
  /-- The queue of a pool that nobody has closed is open, and served as long as there is a job. -/
  serves : t.add? s ≠ none → p.triggered = false → p.queue.closed = false ∧
    (p.queue.line ≠ [] ∨ p.coordinator.hand ≠ [] → p.Serves (p.now + s.length))
  /-- A cycle from whose beginning there is no instant a slice later is its worker's last. -/
  last : ∀ i (u : Instant) b, b ∈ p.begins i → u.position = b → u.add? s = none →
    (p.begins i).getLast? = some b ∧ ∀ w, p.workers[i]? = some w → w.Final p.now b
  /-- With a slice longer than the clock can count a worker has no more than one cycle. -/
  few : 2 ^ 63 ≤ s.seconds → ∀ i, (p.begins i).length ≤ 1
  /-- When all workers have ended no cycle begins any more, whatever the queue holds. -/
  ended : (∀ w ∈ p.workers, w.hasEnded = true) → ∀ ms q, p.run? ms = some q → q.cycles = p.cycles

section Slice

variable {s : Span} {t : Instant} (ht : t.position = p.now)
  (h : (Pool.start (c.withTimeSlice s.length) operation).run? ls = some p)
include ht h

theorem rest_of_measuring (ids : List JobId) {began : Nat}
    (hat : p.workers[i]? = some (.measuring began)) :
    ∃ u : Instant, u.position = began ∧
      p.step (.work i ids) = some (p.setWorker i (.pausing (s.minus (t.since u)).length)) := by
  have hslice : p.timeSlice = s.length := timeSlice_of_run h
  obtain ⟨-, hbegan, -⟩ := (paced_of_run h).worker i _ hat
  have hlt := t.position_lt
  obtain ⟨u, hu⟩ := Instant.exists_position_eq (n := began) (by omega)
  refine ⟨u, hu, ?_⟩
  rw [Instant.length_rest ht hu, ← hslice]
  simp [step, work?, hat]

theorem exists_span_of_pausing (ids : List JobId) {timeout : Nat}
    (hat : p.workers[i]? = some (.pausing timeout)) :
    ∃ r : Span, r.length = timeout ∧ r.length ≤ s.length ∧
      p.step (.work i ids) = some (p.setWorker i
        (match t.add? r with
          | some u => .watching u.position.toNat
          | none => .crashed)) := by
  have htimeout : timeout ≤ s.length := by
    have hslice : p.timeSlice = s.length := timeSlice_of_run h
    rw [← hslice]
    exact ((steady_of_run h) _ (List.mem_of_getElem? hat)).2
  obtain ⟨r, hr⟩ := Span.exists_length_eq htimeout
  refine ⟨r, hr, hr.le.trans htimeout, ?_⟩
  rw [step_of_pausing hat, ← hr, Instant.deadline?_eq ht r]
  cases t.add? r <;> simp only [Option.map_some, Option.map_none]

theorem exists_span_of_crashed (hstep : p.step l = some q) {w : Worker π ω}
    (hat : p.workers[i]? = some w) (hw : w ≠ .crashed) (hcrashed : q.workers[i]? = some .crashed) :
    ∃ r : Span, w = .pausing r.length ∧ t.add? r = none := by
  obtain ⟨timeout, rfl, hnone⟩ := (move_of_step hstep).pausing_of_crashed hat hw hcrashed
  obtain ⟨r, rfl, -⟩ := exists_span_of_pausing ht h [] hat
  rw [Instant.deadline?_eq ht, Option.map_eq_none_iff] at hnone
  exact ⟨r, rfl, hnone⟩

theorem final_of_add?_eq_none {u : Instant} {b : Nat} (hb : b ∈ p.begins i) (hu : u.position = b)
    (hend : u.add? s = none) :
    (p.begins i).getLast? = some b ∧ ∀ w, p.workers[i]? = some w → w.Final p.now b := by
  have hslice : p.timeSlice = s.length := timeSlice_of_run h
  have hnow : p.now < endOfTime := by
    have := t.position_lt
    omega
  have hlate : endOfTime ≤ b + p.timeSlice := by
    rw [Instant.add?_eq_none_iff, hu] at hend
    omega
  have hlast := getLast?_begins_of_run h hnow hb hlate
  refine ⟨hlast, fun w hat => ?_⟩
  have htimely := timely_of_run h w (List.mem_of_getElem? hat)
  exact ((paced_of_run h).worker i w hat).final htimely hlast hlate hnow

/-- All cycles of a worker begin before the end of a slice that the clock cannot count. -/
theorem length_begins_le_one (hlong : 2 ^ 63 ≤ s.seconds) (i : Nat) :
    (p.begins i).length ≤ 1 := by
  have hslice : p.timeSlice = s.length := timeSlice_of_run h
  have hnow := t.position_lt
  have hlate : endOfTime ≤ p.timeSlice := by
    rw [hslice, endOfTime_eq]
    exact (Nat.mul_le_mul_right _ hlong).trans (Nat.le_add_right _ _)
  have hall : ∀ b ∈ p.begins i, 0 ≤ b ∧ b < 0 + 1 * p.timeSlice := by
    intro b hb
    have := begins_le_now_of_run h b hb
    omega
  have hfew := ((paced_of_run h).spaced i).countP_le 0 1
  rwa [List.countP_eq_length.mpr (by simpa using hall)] at hfew

variable (hend : t.add? s ≠ none)
include hend

theorem lt_endOfTime_of_add? : p.now + p.timeSlice < endOfTime := by
  have hslice : p.timeSlice = s.length := timeSlice_of_run h
  rw [Ne, Instant.add?_eq_none_iff, ht] at hend
  omega

theorem whole_of_add? (hquiet : p.triggered = false) : Whole p :=
  whole_of_run h hquiet (timeSlice_of_run h ▸ lt_endOfTime_of_add? ht h hend)

theorem triggered_of_hasEnded (hstep : p.step l = some q) {w : Worker π ω}
    (hat : q.workers[i]? = some w) (hended : w.hasEnded = true) : p.triggered = true := by
  by_contra hquiet
  have hquiet : p.triggered = false := by simpa using hquiet
  have hgoing := (whole_of_add? ht h hend hquiet).hasEnded_of_move (steady_of_run h) hquiet
    (lt_endOfTime_of_add? ht h hend) (move_of_step hstep) hat
  rw [hgoing] at hended
  cases hended

theorem serves_of_add? (hquiet : p.triggered = false)
    (hjob : p.queue.line ≠ [] ∨ p.coordinator.hand ≠ []) : p.Serves (p.now + p.timeSlice) := by
  have hwhole := whole_of_add? ht h hend hquiet
  have hsupplied : Supplied p := ⟨hquiet, hwhole.opened, hwhole.coordinator, hjob⟩
  have hsome : 0 < p.workers.length := by
    rw [length_workers_of_run h]
    omega
  have hat := List.getElem?_eq_getElem hsome
  exact hsupplied.serves (steady_of_run h) (timely_of_run h) (lt_endOfTime_of_add? ht h hend) hat
    (hwhole.workers _ (List.mem_of_getElem? hat))

end Slice

/-- Whatever the slice is and wherever the clock has come to, a time slice does this and no more. -/
theorem throttled_of_run {s : Span} {t : Instant}
    (h : (Pool.start (c.withTimeSlice s.length) operation).run? ls = some p)
    (ht : t.position = p.now) : Throttled s t p := by
  have hslice : p.timeSlice = s.length := timeSlice_of_run h
  have htime (hend : t.add? s ≠ none) := lt_endOfTime_of_add? ht h hend
  constructor
  · exact fun i ids began hat => rest_of_measuring ht h ids hat
  · exact fun i ids timeout hat => exists_span_of_pausing ht h ids hat
  · exact fun l q i w hstep => exists_span_of_crashed ht h hstep
  · intro hend
    have hspared := ne_crashed_of_run h (htime hend)
    exact ⟨hspared, fun l q hstep =>
      (move_of_step hstep).ne_crashed (steady_of_run h) (htime hend) hspared⟩
  · exact fun hend l q i w w' hstep _ hat _ => triggered_of_hasEnded ht h hend hstep hat
  · intro hend i w hat hway
    rw [← hslice]
    exact leads_of_isUnderWay (steady_of_run h) (timely_of_run h) (htime hend) hat hway
  · intro hend hquiet
    rw [← hslice]
    exact ⟨(whole_of_add? ht h hend hquiet).opened, serves_of_add? ht h hend hquiet⟩
  · exact fun i u b hb hu hend => final_of_add?_eq_none ht h hb hu hend
  · exact fun hlong i => length_begins_le_one ht h hlong i
  · exact fun hended ms q hrun => cycles_eq_of_hasEnded hrun hended

/-- Three jobs are submitted to one worker, which works off the first and then asks for a pause. -/
def workOneOff : List (Label Unit Unit) :=
  [.submit ⟨1⟩ 0 0 1 (), .submit ⟨2⟩ 5 0 1 (), .submit ⟨3⟩ 7 0 1 (), .coordinate, .coordinate,
    .coordinate, .work 0 [], .work 0 [], .handOver 0, .work 0 [], .work 0 [], .work 0 [],
    .answer 0 (.ok ()), .work 0 [], .work 0 [], .work 0 []]

theorem throttled_workOneOff : ∃ p q : Pool Unit Unit,
    (Pool.start ((Config.withWorkers {} 1).withTimeSlice Span.second.length) "run").run?
        workOneOff = some p ∧
      Instant.origin.add? Span.second ≠ none ∧
        Throttled Span.second .origin p ∧
    (Pool.start ((Config.withWorkers {} 1).withTimeSlice Span.longest.length) "run").run?
        workOneOff = some q ∧
      Instant.origin.add? Span.longest = none ∧
        Throttled Span.longest .origin q := by
  refine ⟨_, _, rfl, by decide, ?_, rfl, by decide, ?_⟩
  · exact @throttled_of_run Unit Unit _ (Config.withWorkers {} 1) "run" workOneOff _ _ rfl rfl
  · exact @throttled_of_run Unit Unit _ (Config.withWorkers {} 1) "run" workOneOff _ _ rfl rfl

/-- With the longest slice the worker crashes at its pause. The second job is lost with its ticket,
the queue stays open with the third one, and nobody will ever execute that. The worker also crashes
when the signal has fired before. -/
theorem crashed_workOneOff :
    (∃ p : Pool Unit Unit,
      (Pool.start ((Config.withWorkers {} 1).withTimeSlice Span.longest.length) "run").run?
          (workOneOff ++ [.work 0 [], .coordinate, .coordinate, .coordinate, .coordinate]) =
          some p ∧
        p.workers = [.crashed] ∧ p.triggered = false ∧ p.queue.closed = false ∧ p.pending = 1 ∧
          p.isFinished = true ∧ p.tickets.map Ticket.reading? =
            [some (.ok ()), some (.error (.dropped ⟨2⟩)), none] ∧
          ∀ ms q, p.run? ms = some q → q.cycles = p.cycles) ∧
    ∃ p : Pool Unit Unit,
      (Pool.start ((Config.withWorkers {} 1).withTimeSlice Span.longest.length) "run").run?
          (workOneOff ++ [.close, .resume 3 [], .work 0 []]) = some p ∧
        p.triggered = true ∧ p.workers = [.crashed] := by
  refine ⟨⟨_, rfl, rfl, rfl, rfl, rfl, rfl, rfl, ?_⟩, _, rfl, rfl, rfl⟩
  intro ms q hrun
  refine cycles_eq_of_hasEnded hrun fun w hw => ?_
  rw [List.mem_singleton.mp hw]
  rfl

end Pool
end PacedJobs
