import PacedJobs.Proofs.Pool.Engagement
import PacedJobs.Proofs.Pool.Pace
import PacedJobs.Proofs.Pool.Shutdown
import PacedJobs.Proofs.Pool.Whole

/-!
# What a pool can come to by itself

To come back from a cycle a worker needs nobody but the transport and the clock, and no more time
than a slice, as long as the end of a slice can be represented. So a pool that nobody has closed and
that has a job to give out can begin one more cycle, wherever its workers are.
-/

namespace PacedJobs

variable {π ω : Type}

namespace Label

/-- Whether nobody but the coordinator, the workers, the transport and the clock has to step. -/
def isUnattended : Label π ω → Bool
  | elapse _ => true
  | l => l.isThread

/-- Whether it is the worker that steps by itself, or the transport for it, or the clock. -/
def isOf (i : Nat) : Label π ω → Bool
  | work k _ | answer k _ | rouseWorker k => k == i
  | elapse _ => true
  | _ => false

theorem isUnattended_of_isOf {i : Nat} {l : Label π ω} (h : l.isOf i = true) :
    l.isUnattended = true := by
  cases l <;> first | rfl | cases h

end Label

namespace Worker

/-- Whether a cycle of the worker has begun and its pause is not over. -/
def isUnderWay : Worker π ω → Bool
  | processing _ _ | ready _ _ | executing _ _ | replying _ _ _ | delivered _ _ | undelivered _ _
  | measuring _ | pausing _ | watching _ | asleep _ => true
  | _ => false

/-- A pause that has a deadline ends within a time slice. -/
def Timely (timeSlice now : Nat) : Worker π ω → Prop
  | watching deadline | asleep deadline => deadline < endOfTime ∧ deadline ≤ now + timeSlice
  | _ => True

variable {p : Pool π ω} {timeSlice now now' : Nat} {w w' : Worker π ω}

theorem Timely.mono (h : w.Timely timeSlice now) (hnow : now ≤ now') :
    w.Timely timeSlice now' := by
  cases w with
  | watching deadline => exact ⟨h.1, h.2.trans (Nat.add_le_add_right hnow _)⟩
  | asleep deadline => exact ⟨h.1, h.2.trans (Nat.add_le_add_right hnow _)⟩
  | _ => trivial

theorem Timely.notify (h : w.Timely timeSlice now) : w.notify.Timely timeSlice now := by
  cases w <;> exact h

theorem Turn.timely (h : Turn p w w') (hontime : w.OnTime p.timeSlice p.now)
    (hw : w.Timely p.timeSlice p.now) : w'.Timely p.timeSlice p.now := by
  cases h with
  | @pause timeout deadline hdeadline =>
    have htimeout : timeout ≤ p.timeSlice := hontime
    unfold deadline? at hdeadline
    split at hdeadline
    next hearly =>
      cases hdeadline
      exact ⟨hearly, Nat.add_le_add_left htimeout _⟩
    next => cases hdeadline
  | sleep hquiet hearly => exact hw
  | wake deadline => exact hw
  | _ => trivial

theorem Step.timely {i : Nat} {l : Label π ω} {es : List (Event π ω)} (h : Step p i l w w' es)
    (hontime : w.OnTime p.timeSlice p.now) (hw : w.Timely p.timeSlice p.now) :
    w'.Timely p.timeSlice p.now := by
  cases h with
  | turn hturn hawake => exact hturn.timely hontime hw
  | wake deadline => exact hw
  | letGo w began => cases p.triggered <;> trivial
  | _ => trivial

/-- While the end of a time slice can be represented, a worker in its cycle comes nearer to the last
look of its pause by every step, and ends on the way only if the signal has fired. -/
theorem Step.remaining_lt_of_isUnderWay {i : Nat} {l : Label π ω} {es : List (Event π ω)}
    (h : Step p i l w w' es) (hway : w.isUnderWay = true) (hwatching : ∀ d, w ≠ .watching d)
    (hontime : w.OnTime p.timeSlice p.now) (htime : p.now + p.timeSlice < endOfTime) :
    w'.remaining < w.remaining ∧
      (w'.isUnderWay = true ∨ p.triggered = true ∧ w' = .stopped) := by
  cases h with
  | turn hturn hawake =>
    cases hturn with
    | spend id began => exact ⟨by simp [remaining], .inl rfl⟩
    | measure began => exact ⟨by simp [remaining], .inl rfl⟩
    | pause hdeadline => exact ⟨by simp [remaining], .inl rfl⟩
    | @crash timeout hdeadline =>
      have htimeout : timeout ≤ p.timeSlice := hontime
      rw [deadline?, if_pos (by omega)] at hdeadline
      cases hdeadline
    | stop deadline hfired => exact absurd rfl (hwatching deadline)
    | expire hquiet hdue => exact absurd rfl (hwatching _)
    | sleep hquiet hearly => exact absurd rfl (hwatching _)
    | wake deadline => exact absurd rfl (hawake deadline)
    | _ => cases hway
  | letGo w began =>
    cases hfired : p.triggered with
    | false => exact ⟨by simp [remaining], .inl rfl⟩
    | true => exact ⟨by simp [remaining], .inr ⟨rfl, rfl⟩⟩
  | call w began hat => rcases hat with rfl | rfl <;> exact ⟨by simp [remaining], .inl rfl⟩
  | receive j hat => cases hway
  | giveUp j hfired => cases hway
  | begin j => cases hway
  | _ => exact ⟨by simp [remaining], .inl rfl⟩

end Worker

namespace Pool

/-- Every pause that has a deadline ends within a time slice. -/
def Timely (p : Pool π ω) : Prop :=
  ∀ w ∈ p.workers, w.Timely p.timeSlice p.now

variable {p q r : Pool π ω} {l : Label π ω} {i : Nat} {w : Worker π ω}

theorem Timely.move (h : Timely p) (hsteady : Steady p) (hmove : Move p l q) : Timely q := by
  intro w' hw'
  obtain ⟨i, hi⟩ := List.getElem?_of_mem hw'
  obtain ⟨w, es, hat, -, hcase⟩ := hmove.worker_of_after hi
  have hmem := List.mem_of_getElem? hat
  have hw := h w hmem
  rw [hmove.timeSlice_eq]
  refine .mono ?_ hmove.now_le
  rcases hcase with hstep | ⟨-, -, rfl | ⟨-, rfl⟩⟩
  · exact hstep.timely (hsteady w hmem).2 hw
  · exact hw
  · exact hw.notify

theorem timely_of_run {c : Config} {operation : String} {ls : List (Label π ω)}
    (h : (Pool.start c operation).run? ls = some p) : Timely p := by
  have hboth : Steady p ∧ Timely p := by
    refine invariant_run? (I := fun p => Steady p ∧ Timely p)
      (fun hp hmove => ⟨hp.1.move hmove, hp.2.move hp.1 hmove⟩) ⟨steady_start c operation, ?_⟩ h
    intro w hw
    rw [List.eq_of_mem_replicate hw]
    trivial
  exact hboth.2

/-- A pool comes to another by steps of a kind. -/
def Leads (allowed : Label π ω → Bool) (p q : Pool π ω) : Prop :=
  ∃ ms, (∀ l ∈ ms, allowed l = true) ∧ p.run? ms = some q

namespace Leads

variable {allowed allowed' : Label π ω → Bool}

theorem refl (p : Pool π ω) : Leads allowed p p :=
  ⟨[], by simp, rfl⟩

theorem head (hl : allowed l = true) (hstep : p.step l = some q) (h : Leads allowed q r) :
    Leads allowed p r := by
  obtain ⟨ms, hms, hrun⟩ := h
  exact ⟨l :: ms, List.forall_mem_cons.mpr ⟨hl, hms⟩, run?_cons.mpr ⟨q, hstep, hrun⟩⟩

theorem trans (h : Leads allowed p q) (h' : Leads allowed q r) : Leads allowed p r := by
  obtain ⟨ms, hms, hrun⟩ := h
  obtain ⟨ns, hns, hrun'⟩ := h'
  exact ⟨ms ++ ns, List.forall_mem_append.mpr ⟨hms, hns⟩, run?_append.mpr ⟨q, hrun, hrun'⟩⟩

theorem mono (h : Leads allowed p q) (hle : ∀ l, allowed l = true → allowed' l = true) :
    Leads allowed' p q := by
  obtain ⟨ms, hms, hrun⟩ := h
  exact ⟨ms, fun l hl => hle l (hms l hl), hrun⟩

theorem invariant {I : Pool π ω → Prop}
    (hmove : ∀ {p l q}, I p → allowed l = true → Move p l q → I q) (h : Leads allowed p q)
    (hp : I p) : I q := by
  obtain ⟨ms, hms, hrun⟩ := h
  induction ms generalizing p with
  | nil =>
    cases hrun
    exact hp
  | cons l ms ih =>
    obtain ⟨s, hs, hrest⟩ := run?_cons.mp hrun
    obtain ⟨hl, hms⟩ := List.forall_mem_cons.mp hms
    exact ih (hmove hp hl (move_of_step hs)) hms hrest

end Leads

theorem Move.triggered_eq (h : Move p l q) (hl : l.worker? = some i) :
    q.triggered = p.triggered := by
  cases h with
  | prepare hat hmode hmore hids => exact p.triggered_reserve _
  | _ => first | rfl | cases hl

theorem Move.now_eq (h : Move p l q) (hl : l.worker? = some i) : q.now = p.now := by
  cases h with
  | prepare hat hmode hmore hids => exact p.now_reserve _
  | _ => first | rfl | cases hl

theorem exists_step_of_isUnderWay (hat : p.workers[i]? = some w) (hway : w.isUnderWay = true) :
    ∃ l q, l.isOf i = true ∧ l.worker? = some i ∧ p.step l = some q := by
  have hself : ∀ l q, Label.worker? l = some i → p.step l = some q → Label.isOf i l = true := by
    intro l q hl hstep
    have hmove := move_of_step hstep
    cases hmove with
    | handOver hoffering hreceiving =>
      cases hl
      rw [hat] at hreceiving
      cases hreceiving
      cases hway
    | _ => first | cases hl; simp [Label.isOf] | cases hl
  have hwork : (p.work? i []).isSome = true →
      ∃ l q, Label.isOf i l = true ∧ l.worker? = some i ∧ p.step l = some q := by
    intro hsome
    obtain ⟨q, hq⟩ := Option.isSome_iff_exists.mp hsome
    exact ⟨.work i [], q, by simp [Label.isOf], rfl, hq⟩
  cases hengagement : w.engagement with
  | some v =>
    have hengages : p.Engages i v := ⟨w, hat, hengagement⟩
    obtain ⟨l, q, hl, -, hstep⟩ := hengages.canStep (.error ⟨"", []⟩)
    exact ⟨l, q, hself l q hl hstep, hl, hstep⟩
  | none =>
    cases w with
    | processing j began =>
      cases j with
      | placeholder id => exact hwork (by simp [work?, hat])
      | work v => cases hengagement
    | measuring began => exact hwork (by simp [work?, hat])
    | pausing timeout =>
      refine hwork ?_
      simp only [work?, hat]
      split <;> rfl
    | watching deadline =>
      refine hwork ?_
      simp only [work?, hat]
      split <;> rfl
    | asleep deadline =>
      exact ⟨.rouseWorker i, p.setWorker i (.watching deadline), by simp [Label.isOf], rfl,
        by simp [step, rouseWorker?, hat]⟩
    | _ => first | (cases hway; done) | cases hengagement

/-- The last look of a pause. Before the signal has fired the clock has to come to the deadline. -/
theorem leads_of_watching {deadline : Nat} (hat : p.workers[i]? = some (.watching deadline))
    (htimely : deadline ≤ p.now + p.timeSlice) :
    ∃ q, p.Leads (Label.isOf i) q ∧ q.now ≤ p.now + p.timeSlice ∧
      q.workers[i]? = some (if p.triggered then .stopped else .looping) := by
  have hi := (List.getElem?_eq_some_iff.mp hat).1
  have hself : (Label.work i [] : Label π ω).isOf i = true := by simp [Label.isOf]
  cases hfired : p.triggered with
  | true =>
    have hstep : p.step (.work i []) = some (p.setWorker i .stopped) := by
      simp [step, work?, hat, watch, hfired]
    exact ⟨_, .head hself hstep (.refl _), Nat.le_add_right _ _, by simp [setWorker, hi]⟩
  | false =>
    let late : Pool π ω := { p with now := p.now + (deadline - p.now) }
    have hlate : p.step (.elapse (deadline - p.now)) = some late := rfl
    have hstep : late.step (.work i []) = some (late.setWorker i .looping) := by
      have hdue : deadline ≤ late.now := by simp only [late]; omega
      have hat' : late.workers[i]? = some (.watching deadline) := hat
      have hquiet : late.triggered = false := hfired
      simp [step, work?, hat', watch, hquiet, hdue]
    refine ⟨_, .head rfl hlate (.head hself hstep (.refl _)), ?_, ?_⟩
    · show p.now + (deadline - p.now) ≤ p.now + p.timeSlice
      omega
    · simp [setWorker, late, hi]

/-- A worker comes back from its cycle within a time slice, or stops if the signal has fired. -/
theorem leads_of_isUnderWay (hsteady : Steady p) (htimely : Timely p)
    (htime : p.now + p.timeSlice < endOfTime) (hat : p.workers[i]? = some w)
    (hway : w.isUnderWay = true) :
    ∃ q, p.Leads (Label.isOf i) q ∧ q.now ≤ p.now + p.timeSlice ∧
      q.workers[i]? = some (if p.triggered then .stopped else .looping) := by
  induction hn : w.remaining using Nat.strong_induction_on generalizing p w with
  | _ n ih =>
    by_cases hwatching : ∃ d, w = .watching d
    · obtain ⟨d, rfl⟩ := hwatching
      exact leads_of_watching hat (htimely _ (List.mem_of_getElem? hat)).2
    · obtain ⟨l, q, hl, hworker, hstep⟩ := exists_step_of_isUnderWay hat hway
      have hmove := move_of_step hstep
      obtain ⟨w', es, hat', -, hcase⟩ := hmove.worker hat
      have hown := hcase.resolve_right fun h => h.1 hworker
      obtain ⟨hlt, hnext⟩ := hown.remaining_lt_of_isUnderWay hway
        (fun d heq => hwatching ⟨d, heq⟩) (hsteady w (List.mem_of_getElem? hat)).2 htime
      have hnow := hmove.now_eq hworker
      have hslice := hmove.timeSlice_eq
      rcases hnext with hway' | ⟨hfired, rfl⟩
      · obtain ⟨r, hr, hrnow, hrat⟩ := ih _ (hn ▸ hlt) (hsteady.move hmove)
          (htimely.move hsteady hmove) (by omega) hat' hway' rfl
        rw [hmove.triggered_eq hworker] at hrat
        exact ⟨r, .head hl hstep hr, by omega, hrat⟩
      · exact ⟨q, .head hl hstep (.refl q), by omega, by simp [hfired, hat']⟩

/-- The pool goes on and has a job to give out. -/
structure Supplied (p : Pool π ω) : Prop where
  quiet : p.triggered = false
  opened : p.queue.closed = false
  going : p.coordinator ≠ .stopped
  job : p.queue.line ≠ [] ∨ p.coordinator.hand ≠ []

theorem Supplied.reserve (h : Supplied p) (ids : List JobId) : Supplied (p.reserve ids) := by
  rcases p.reserve_cases ids with heq | ⟨hopen, heq⟩
  · rwa [heq]
  · rw [heq]
    refine ⟨h.quiet, (Queue.closed_withJobs _ _).trans hopen,
      Coordinator.notify_ne_stopped h.going, ?_⟩
    rcases h.job with hline | hhand
    · left
      show (p.queue.withJobs (Queue.insertPlaceholders ids p.queue.jobs)).line ≠ []
      intro hnil
      have hperm := p.queue.line_insertPlaceholders_perm ids
      rw [hnil, List.nil_perm, List.append_eq_nil_iff] at hperm
      exact hline hperm.2
    · right
      show p.coordinator.notify.hand ≠ []
      rwa [Coordinator.hand_notify]

theorem Supplied.move (h : Supplied p) (hl : l.isOf i = true) (hmove : Move p l q) :
    Supplied q := by
  obtain ⟨hquiet, hopened, hgoing, hjob⟩ := h
  cases hmove with
  | @prepare k ids w began hat hmode hmore hids =>
    have hreserved := Supplied.reserve ⟨hquiet, hopened, hgoing, hjob⟩ ids
    exact ⟨hreserved.quiet, hreserved.opened, hreserved.going, hreserved.job⟩
  | _ => first | exact ⟨hquiet, hopened, hgoing, hjob⟩ | cases hl

/-- By itself the pool can begin one more cycle, no later than at a time. -/
def Serves (p : Pool π ω) (time : Nat) : Prop :=
  ∃ q, p.Leads Label.isUnattended q ∧ q.now ≤ time ∧ p.cycles.length < q.cycles.length

theorem length_cycles_le_of_leads {allowed : Label π ω → Bool} (h : p.Leads allowed q) :
    p.cycles.length ≤ q.cycles.length := by
  obtain ⟨ms, -, hrun⟩ := h
  obtain ⟨es, hes⟩ := history_of_run hrun
  simp [cycles, hes]

theorem Serves.of_leads {time : Nat} (h : p.Leads Label.isUnattended q) (hq : q.Serves time) :
    p.Serves time := by
  obtain ⟨r, hr, htime, hmore⟩ := hq
  exact ⟨r, h.trans hr, htime, (length_cycles_le_of_leads h).trans_lt hmore⟩

theorem Serves.of_step {time : Nat} (hl : l.isUnattended = true) (hstep : p.step l = some q)
    (hq : q.Serves time) : p.Serves time :=
  .of_leads (.head hl hstep (.refl q)) hq

section Receiving

variable {j : Job π}

theorem serves_of_admitted (hat : p.workers[i]? = some (.admitted j)) : p.Serves p.now := by
  have hstep : p.step (.work i []) =
      some ((p.setWorker i (.processing j p.now)).record (.began i j p.now)) := by
    simp [step, work?, hat]
  refine ⟨_, .head rfl hstep (.refl _), Nat.le_refl _, ?_⟩
  simp [cycles, record, setWorker, Event.cycle?]

theorem serves_of_received (hquiet : p.triggered = false)
    (hat : p.workers[i]? = some (.received j)) : p.Serves p.now := by
  have hi := (List.getElem?_eq_some_iff.mp hat).1
  have hstep : p.step (.work i []) = some (p.setWorker i (.admitted j)) := by
    simp [step, work?, hat, hquiet]
  exact .of_step rfl hstep (serves_of_admitted (List.getElem?_set_self hi))

variable (hat : p.workers[i]? = some .receiving) (hquiet : p.triggered = false)
include hat hquiet

theorem serves_of_offering (hc : p.coordinator = .offering j) : p.Serves p.now := by
  have hi := (List.getElem?_eq_some_iff.mp hat).1
  have hstep : p.step (.handOver i) =
      some ((({ p with coordinator := .checking }).setWorker i (.received j)).record
        (.received i j)) := by
    simp [step, handOver?, hc, hat]
  exact .of_step rfl hstep (serves_of_received hquiet (List.getElem?_set_self hi))

variable (hopened : p.queue.closed = false)
include hopened

theorem serves_of_holding (hc : p.coordinator = .holding j) : p.Serves p.now := by
  have hstep : p.step .coordinate = some { p with coordinator := .offering j } := by
    simp [step, coordinate?, hc, hopened]
  exact .of_step rfl hstep (serves_of_offering hat hquiet rfl)

variable (hline : p.queue.line ≠ [])
include hline

theorem serves_of_popping (hc : p.coordinator = .popping) : p.Serves p.now := by
  obtain ⟨j, js, hjobs⟩ := List.exists_cons_of_ne_nil hline
  have hstep : p.step .coordinate =
      some ({ p with queue := { p.queue with line := js }, coordinator := .holding j }.record
        (.popped j)) := by
    simp [step, coordinate?, hc, Queue.pop, hjobs]
  exact .of_step rfl hstep (serves_of_holding hat hquiet hopened rfl)

theorem serves_of_checking (hc : p.coordinator = .checking) : p.Serves p.now := by
  have hstep : p.step .coordinate = some { p with coordinator := .popping } := by
    simp [step, coordinate?, hc, hopened, Queue.isEmpty, hline]
  exact .of_step rfl hstep (serves_of_popping hat hquiet hopened hline rfl)

end Receiving

namespace Supplied

/-- A worker that receives gets the next job from the coordinator. -/
theorem serves_of_receiving (h : Supplied p) (hat : p.workers[i]? = some .receiving) :
    p.Serves p.now := by
  obtain ⟨hquiet, hopened, hgoing, hjob⟩ := h
  have hline (hnone : p.coordinator.hand = []) : p.queue.line ≠ [] :=
    hjob.resolve_right (not_not.mpr hnone)
  cases hc : p.coordinator with
  | offering j => exact serves_of_offering hat hquiet hc
  | holding j => exact serves_of_holding hat hquiet hopened hc
  | popping => exact serves_of_popping hat hquiet hopened (hline (by rw [hc]; rfl)) hc
  | checking => exact serves_of_checking hat hquiet hopened (hline (by rw [hc]; rfl)) hc
  | asleep =>
    have hstep : p.step .rouse = some { p with coordinator := .checking } := by
      simp [step, hc]
    exact .of_step rfl hstep
      (serves_of_checking hat hquiet hopened (hline (by rw [hc]; rfl)) rfl)
  | stopped => exact absurd hc hgoing

/-- A worker that queues to receive has its turn, or another one has it. -/
theorem serves_of_queuing (h : Supplied p) (hat : p.workers[i]? = some .queuing) :
    p.Serves p.now := by
  cases hany : p.workers.any Worker.isReceiving with
  | true =>
    obtain ⟨v, hv, hreceiving⟩ := List.any_eq_true.mp hany
    obtain ⟨k, hk⟩ := List.getElem?_of_mem hv
    cases v with
    | receiving => exact h.serves_of_receiving hk
    | _ => cases hreceiving
  | false =>
    have hi := (List.getElem?_eq_some_iff.mp hat).1
    have hstep : p.step (.work i []) = some (p.setWorker i .receiving) := by
      simp [step, work?, hat, hany]
    have hsupplied : Supplied (p.setWorker i .receiving) := ⟨h.quiet, h.opened, h.going, h.job⟩
    exact .of_step rfl hstep (hsupplied.serves_of_receiving (List.getElem?_set_self hi))

theorem serves_of_looping (h : Supplied p) (hat : p.workers[i]? = some .looping) :
    p.Serves p.now := by
  have hi := (List.getElem?_eq_some_iff.mp hat).1
  have hstep : p.step (.work i []) = some (p.setWorker i .queuing) := by
    simp [step, work?, hat, h.quiet]
  have hsupplied : Supplied (p.setWorker i .queuing) := ⟨h.quiet, h.opened, h.going, h.job⟩
  exact .of_step rfl hstep (hsupplied.serves_of_queuing (List.getElem?_set_self hi))

/-- Wherever its workers are, a pool can begin one more cycle within a time slice. -/
theorem serves (h : Supplied p) (hsteady : Steady p) (htimely : Timely p)
    (htime : p.now + p.timeSlice < endOfTime) (hat : p.workers[i]? = some w)
    (hgoing : w.hasEnded = false) : p.Serves (p.now + p.timeSlice) := by
  have hsoon : p.Serves p.now → p.Serves (p.now + p.timeSlice) :=
    fun ⟨q, hq, hnow, hmore⟩ => ⟨q, hq, hnow.trans (Nat.le_add_right _ _), hmore⟩
  cases hway : w.isUnderWay with
  | true =>
    obtain ⟨q, hq, hnow, hlooping⟩ := leads_of_isUnderWay hsteady htimely htime hat hway
    rw [h.quiet] at hlooping
    have hsupplied : Supplied q := hq.invariant (fun hp hl hmove => hp.move hl hmove) h
    obtain ⟨r, hr, hrnow, hmore⟩ := hsupplied.serves_of_looping hlooping
    exact .of_leads (hq.mono fun l => Label.isUnattended_of_isOf) ⟨r, hr, hrnow.trans hnow, hmore⟩
  | false =>
    cases w with
    | looping => exact hsoon (h.serves_of_looping hat)
    | queuing => exact hsoon (h.serves_of_queuing hat)
    | receiving => exact hsoon (h.serves_of_receiving hat)
    | received j => exact hsoon (serves_of_received h.quiet hat)
    | admitted j => exact hsoon (serves_of_admitted hat)
    | _ => first | (cases hgoing; done) | cases hway

end Supplied
end Pool
end PacedJobs
