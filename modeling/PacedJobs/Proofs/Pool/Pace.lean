import PacedJobs.Proofs.Pool.Run
import PacedJobs.Proofs.Pool.Waking
import PacedJobs.Proofs.Pool.Workers

/-!
# The pace of a pool

A worker begins its next cycle a whole time slice after the last one at the earliest, however long
the transport takes and however often the worker wakes in its pause. So no more cycles begin in a
span of time than the workers have time slices in it. What a call of the transport takes is taken
off the pause.
-/

namespace PacedJobs

section Spaced

variable {s : Nat} {ts : List Nat}

/-- Times of which each is at least the span before the next. -/
def Spaced (s : Nat) (ts : List Nat) : Prop :=
  ts.Pairwise fun a b => a + s ≤ b

theorem Spaced.concat (h : Spaced s ts) {t : Nat} (ht : ∀ a ∈ ts, a + s ≤ t) :
    Spaced s (ts ++ [t]) := by
  refine List.pairwise_append.mpr ⟨h, List.pairwise_singleton _ _, ?_⟩
  intro a ha b hb
  rw [List.mem_singleton.mp hb]
  exact ht a ha

theorem Spaced.add_mul_le (h : Spaced s ts) {k m a b : Nat} (ha : ts[k]? = some a)
    (hb : ts[k + m]? = some b) : a + m * s ≤ b := by
  induction m generalizing b with
  | zero =>
    rw [Nat.add_zero, ha] at hb
    cases hb
    omega
  | succ m ih =>
    obtain ⟨hlt, rfl⟩ := List.getElem?_eq_some_iff.mp hb
    have hm : k + m < ts.length := by omega
    have hbefore := ih (List.getElem?_eq_getElem hm)
    have hnext := List.pairwise_iff_getElem.mp h (k + m) (k + (m + 1)) hm hlt (by omega)
    calc a + (m + 1) * s = a + m * s + s := by ring
      _ ≤ ts[k + m] + s := Nat.add_le_add_right hbefore s
      _ ≤ ts[k + (m + 1)] := hnext

/-- No more of the times fall into a half-open span than fit into it. -/
theorem Spaced.countP_le (h : Spaced s ts) (t m : Nat) :
    ts.countP (fun a => t ≤ a ∧ a < t + m * s) ≤ m := by
  rw [List.countP_eq_length_filter]
  have hinside : Spaced s (ts.filter fun a => t ≤ a ∧ a < t + m * s) := h.filter _
  have hmem : ∀ (k : Nat) a, (ts.filter fun a => t ≤ a ∧ a < t + m * s)[k]? = some a →
      t ≤ a ∧ a < t + m * s := by
    intro k a ha
    simpa using List.of_mem_filter (List.mem_of_getElem? ha)
  generalize ts.filter (fun a => t ≤ a ∧ a < t + m * s) = us at hinside hmem
  by_contra hmany
  have hm : 0 + m < us.length := by omega
  have hfirst := hmem 0 _ (List.getElem?_eq_getElem (by omega))
  have hlast := hmem (0 + m) _ (List.getElem?_eq_getElem hm)
  have hfar := hinside.add_mul_le (List.getElem?_eq_getElem (by omega))
    (List.getElem?_eq_getElem hm)
  omega

end Spaced

theorem countP_eq_sum_range {xs : List (Nat × Nat)} {n : Nat} (f : Nat → Bool)
    (h : ∀ x ∈ xs, x.1 < n) :
    xs.countP (fun x => f x.2) =
      ∑ i ∈ Finset.range n, ((xs.filter fun x => x.1 = i).map Prod.snd).countP f := by
  induction xs with
  | nil => simp
  | cons x xs ih =>
    have hx : x.1 < n := h x List.mem_cons_self
    have hhead : ∀ i, (((x :: xs).filter fun y => y.1 = i).map Prod.snd).countP f =
        ((xs.filter fun y => y.1 = i).map Prod.snd).countP f +
          if i = x.1 then (if f x.2 then 1 else 0) else 0 := by
      intro i
      by_cases hi : i = x.1
      · simp [hi, List.countP_cons]
      · simp [hi, Ne.symm hi]
    rw [List.countP_cons, ih fun y hy => h y (List.mem_cons_of_mem x hy)]
    simp only [hhead, Finset.sum_add_distrib, Finset.sum_ite_eq', Finset.mem_range, hx, if_true]

variable {π ω : Type}

/-- The worker and the time of a cycle that begins. -/
def Event.cycle? : Event π ω → Option (Nat × Nat)
  | began i _ time => some (i, time)
  | _ => none

/-- What a worker knows of the times at which its cycles have begun. In a cycle it remembers the
last of them, and later it waits until a time slice is over. -/
def Worker.Paced (s now : Nat) (ts : List Nat) : Worker π ω → Prop
  | processing _ began | ready _ began | executing _ began | replying _ _ began
  | delivered _ began | undelivered _ began | measuring began =>
    ts.getLast? = some began ∧ began ≤ now ∧ ∀ t ∈ ts, t ≤ began
  | pausing timeout => ∀ t ∈ ts, t + s ≤ now + timeout
  | watching deadline | asleep deadline => ∀ t ∈ ts, t + s ≤ deadline
  | looping | queuing | receiving | received _ | admitted _ => ∀ t ∈ ts, t + s ≤ now
  | stopped | crashed => True

namespace Worker

variable {s now now' : Nat} {ts : List Nat} {w w' : Worker π ω}

theorem Paced.mono (h : w.Paced s now ts) (hnow : now ≤ now') : w.Paced s now' ts := by
  cases w with
  | pausing timeout => exact fun t ht => (h t ht).trans (Nat.add_le_add_right hnow _)
  | watching deadline => exact h
  | asleep deadline => exact h
  | stopped => trivial
  | crashed => trivial
  | looping => exact fun t ht => (h t ht).trans hnow
  | queuing => exact fun t ht => (h t ht).trans hnow
  | receiving => exact fun t ht => (h t ht).trans hnow
  | received j => exact fun t ht => (h t ht).trans hnow
  | admitted j => exact fun t ht => (h t ht).trans hnow
  | _ => exact ⟨h.1, h.2.1.trans hnow, h.2.2⟩

theorem Paced.notify (h : w.Paced s now ts) : w.notify.Paced s now ts := by
  cases w <;> exact h

theorem Turn.paced {p : Pool π ω} (h : Turn p w w') (hw : w.Paced p.timeSlice p.now ts) :
    w'.Paced p.timeSlice p.now ts := by
  cases h with
  | measure began =>
    obtain ⟨-, hbegan, hts⟩ := hw
    intro t ht
    have := hts t ht
    omega
  | @pause timeout deadline hdeadline =>
    unfold deadline? at hdeadline
    split at hdeadline
    · cases hdeadline
      exact hw
    · cases hdeadline
  | expire hquiet hdue => exact fun t ht => (hw t ht).trans hdue
  | leave hfired => trivial
  | hangUp hgone => trivial
  | crash hdeadline => trivial
  | stop deadline hfired => trivial
  | _ => exact hw

/-- A step of a worker keeps its pace, and begins a cycle in time. -/
theorem Step.paced {p : Pool π ω} {i : Nat} {l : Label π ω} {es : List (Event π ω)}
    (h : Step p i l w w' es) (hts : Spaced p.timeSlice ts) (hw : w.Paced p.timeSlice p.now ts) :
    Spaced p.timeSlice (ts ++ (es.filterMap Event.cycle?).map Prod.snd) ∧
      w'.Paced p.timeSlice p.now (ts ++ (es.filterMap Event.cycle?).map Prod.snd) := by
  cases h with
  | begin j =>
    refine ⟨hts.concat hw, List.getLast?_concat, Nat.le_refl _, ?_⟩
    intro t ht
    rcases List.mem_append.mp ht with ht | ht
    · exact (Nat.le_add_right t _).trans (hw t ht)
    · exact (List.mem_singleton.mp ht).le
  | turn hturn hawake => exact (List.append_nil ts).symm ▸ ⟨hts, hturn.paced hw⟩
  | giveUp j hfired => exact (List.append_nil ts).symm ▸ ⟨hts, trivial⟩
  | letGo w began =>
    refine (List.append_nil ts).symm ▸ ⟨hts, ?_⟩
    cases p.triggered
    · exact hw
    · trivial
  | call w began hat =>
    rcases hat with rfl | rfl
    all_goals exact (List.append_nil ts).symm ▸ ⟨hts, hw⟩
  | _ => exact (List.append_nil ts).symm ▸ ⟨hts, hw⟩

end Worker

/-- Where a worker can be after an answer of the transport, until it begins another cycle. The pause
that it asks for ends with the time slice that began with the cycle. -/
def Worker.Answered (s began answered : Nat) : Worker π ω → Prop
  | replying _ _ b | delivered _ b | undelivered _ b | measuring b => b = began
  | pausing timeout => timeout ≤ s - (answered - began)
  | processing _ _ | ready _ _ | executing _ _ => False
  | _ => True

theorem Worker.Step.answered {p : Pool π ω} {i s began answered : Nat} {l : Label π ω}
    {w w' : Worker π ω} {es : List (Event π ω)} (h : Step p i l w w' es)
    (hsame : es.filterMap Event.cycle? = []) (hslice : p.timeSlice = s)
    (hnow : answered ≤ p.now) (hw : w.Answered s began answered) :
    w'.Answered s began answered := by
  cases h with
  | begin j => cases hsame
  | turn hturn hawake =>
    cases hturn with
    | measure b =>
      have hb : b = began := hw
      show p.timeSlice - (p.now - b) ≤ s - (answered - began)
      omega
    | spend id b => exact hw.elim
    | _ => trivial
  | prepare w b => exact hw.elim
  | call w b hat => rcases hat with rfl | rfl <;> exact hw.elim
  | answer w b x => exact hw.elim
  | letGo w b =>
    cases p.triggered
    · exact hw
    · trivial
  | wake deadline => trivial
  | receive j hat => trivial
  | giveUp j hfired => trivial
  | _ => exact hw

namespace Pool

/-- The cycles that have begun, each with its worker and its time, from the first to the last. -/
def cycles (p : Pool π ω) : List (Nat × Nat) :=
  (p.history.filterMap Event.cycle?).reverse

/-- The times at which the cycles of a worker have begun, from the first to the last. -/
def begins (p : Pool π ω) (i : Nat) : List Nat :=
  (p.cycles.filter fun x => x.1 = i).map Prod.snd

variable {p q : Pool π ω} {l : Label π ω} {i : Nat}

theorem begins_eq_log (p : Pool π ω) (i : Nat) :
    p.begins i = (((p.log i).filterMap Event.cycle?).map Prod.snd).reverse := by
  have hfilter : (p.history.filterMap Event.cycle?).filter (fun x => x.1 = i) =
      (p.log i).filterMap Event.cycle? := by
    rw [log, List.filter_filterMap, List.filterMap_filter]
    congr 1
    funext e
    cases e <;> simp [Event.cycle?, Event.worker?, Option.filter]
  rw [begins, cycles, List.filter_reverse, hfilter, List.map_reverse]

theorem begins_of_log {es : List (Event π ω)} (h : q.log i = es ++ p.log i) :
    q.begins i = p.begins i ++ ((es.filterMap Event.cycle?).map Prod.snd).reverse := by
  simp [begins_eq_log, h]

theorem begins_of_log_eq (h : q.log i = p.log i) : q.begins i = p.begins i := by
  rw [begins_eq_log, begins_eq_log, h]

/-- All workers of a pool keep the pace. -/
structure Paced (p : Pool π ω) : Prop where
  spaced : ∀ i, Spaced p.timeSlice (p.begins i)
  worker : ∀ (i : Nat) (w : Worker π ω), p.workers[i]? = some w →
    w.Paced p.timeSlice p.now (p.begins i)
  known : ∀ i, p.workers.length ≤ i → p.begins i = []

theorem Paced.move (h : Paced p) (hmove : Move p l q) : Paced q := by
  have hslice := hmove.timeSlice_eq
  have hold : ∀ i, p.workers[i]? = none → q.begins i = p.begins i :=
    fun i hnone => begins_of_log_eq (hmove.log_of_none hnone)
  have hworker : ∀ (i : Nat) (w : Worker π ω), p.workers[i]? = some w →
      Spaced p.timeSlice (q.begins i) ∧ ∃ w', q.workers[i]? = some w' ∧
        w'.Paced p.timeSlice p.now (q.begins i) := by
    intro i w hw
    have hpaced := h.worker i w hw
    obtain ⟨w', es, hw', hlog, hstep | ⟨-, rfl, heq⟩⟩ := hmove.worker hw
    · obtain ⟨hspaced', hpaced'⟩ := hstep.paced (h.spaced i) hpaced
      have hrev : ((es.filterMap Event.cycle?).map Prod.snd).reverse =
          (es.filterMap Event.cycle?).map Prod.snd := by
        cases hstep <;> rfl
      rw [begins_of_log hlog, hrev]
      exact ⟨hspaced', w', hw', hpaced'⟩
    · rw [begins_of_log_eq hlog]
      refine ⟨h.spaced i, w', hw', ?_⟩
      rcases heq with rfl | ⟨-, rfl⟩
      · exact hpaced
      · exact hpaced.notify
  constructor
  · intro i
    rw [hslice]
    cases hw : p.workers[i]? with
    | none => exact hold i hw ▸ h.spaced i
    | some w => exact (hworker i w hw).1
  · intro i w' hw'
    rw [hslice]
    have hlt := (List.getElem?_eq_some_iff.mp hw').1
    rw [hmove.length_workers] at hlt
    obtain ⟨-, w'', hw'', hpaced⟩ := hworker i _ (List.getElem?_eq_getElem hlt)
    rw [hw'] at hw''
    cases hw''
    exact hpaced.mono hmove.now_le
  · intro i hi
    rw [hmove.length_workers] at hi
    exact (hold i (List.getElem?_eq_none hi)).trans (h.known i hi)

theorem paced_start (c : Config) (operation : String) :
    Paced (Pool.start c operation : Pool π ω) := by
  have hnone : ∀ i, (Pool.start c operation : Pool π ω).begins i = [] := fun _ => rfl
  constructor
  · intro i
    rw [hnone]
    exact List.Pairwise.nil
  · intro i w hw
    rw [List.eq_of_mem_replicate (List.mem_of_getElem? hw), hnone]
    exact fun t ht => nomatch ht
  · exact fun i _ => hnone i

variable {c : Config} {operation : String} {ls : List (Label π ω)}

theorem paced_of_run (h : (Pool.start c operation).run? ls = some p) : Paced p :=
  invariant_run? (fun hp hmove => hp.move hmove) (paced_start c operation) h

theorem Paced.lt_of_mem_cycles (h : Paced p) {x : Nat × Nat} (hx : x ∈ p.cycles) :
    x.1 < p.workers.length := by
  by_contra hge
  have hmem : x.2 ∈ p.begins x.1 := List.mem_map_of_mem (List.mem_filter.mpr ⟨hx, by simp⟩)
  rw [h.known x.1 (by omega)] at hmem
  cases hmem

theorem Paced.countP_cycles_le (h : Paced p) (t m : Nat) :
    p.cycles.countP (fun x => t ≤ x.2 ∧ x.2 < t + m * p.timeSlice) ≤ p.workers.length * m := by
  rw [countP_eq_sum_range (fun a => decide (t ≤ a ∧ a < t + m * p.timeSlice))
    fun x hx => h.lt_of_mem_cycles hx]
  calc
    _ ≤ ∑ i ∈ Finset.range p.workers.length, m :=
      Finset.sum_le_sum fun i _ => (h.spaced i).countP_le t m
    _ = p.workers.length * m := by simp

theorem Paced.begins_of_alone (h : Paced p) (halone : p.workers.length = 1) :
    p.begins 0 = p.cycles.map Prod.snd := by
  rw [begins, List.filter_eq_self.mpr]
  intro x hx
  have := h.lt_of_mem_cycles hx
  exact decide_eq_true (by omega)

theorem Move.begins_grow (h : Move p l q) (i : Nat) : p.begins i <+: q.begins i := by
  cases hw : p.workers[i]? with
  | none => rw [begins_of_log_eq (h.log_of_none hw)]
  | some w =>
    obtain ⟨w', es, -, hlog, -⟩ := h.worker hw
    exact ⟨_, (begins_of_log hlog).symm⟩

theorem begins_grow_of_run (h : p.run? ls = some q) (i : Nat) : p.begins i <+: q.begins i :=
  invariant_run? (I := fun q => p.begins i <+: q.begins i)
    (fun hp hmove => hp.trans (hmove.begins_grow i)) (List.prefix_refl _) h

/-- After an answer, and until its next cycle, a worker pauses no longer than to the end of the time
slice. -/
theorem answered_of_run {s began answered : Nat} {w : Worker π ω} (h : p.run? ls = some q)
    (hslice : p.timeSlice = s) (hnow : answered ≤ p.now) (hat : p.workers[i]? = some w)
    (hw : w.Answered s began answered) (hsame : q.begins i = p.begins i) :
    ∃ w', q.workers[i]? = some w' ∧ w'.Answered s began answered := by
  induction ls generalizing p w with
  | nil =>
    cases h
    exact ⟨w, hat, hw⟩
  | cons l ls ih =>
    obtain ⟨r, hr, hrun⟩ := run?_cons.mp h
    have hmove := move_of_step hr
    have hsame' : r.begins i = p.begins i :=
      (hsame ▸ begins_grow_of_run hrun i).eq_of_length_le (hmove.begins_grow i).length_le
    obtain ⟨w', es, hw', hlog, hcase⟩ := hmove.worker hat
    have hnone : es.filterMap Event.cycle? = [] := by
      have happend := begins_of_log hlog
      rw [hsame'] at happend
      simpa using happend
    refine ih hrun (hmove.timeSlice_eq.trans hslice) (hnow.trans hmove.now_le) hw' ?_
      (hsame.trans hsame'.symm)
    rcases hcase with hstep | ⟨-, -, rfl | ⟨-, rfl⟩⟩
    · exact hstep.answered hnone hslice hnow hw
    · exact hw
    · cases w <;> exact hw

theorem Move.executing_of_called (h : Move p l q) {w : Work π}
    (hcalled : q.history = .called i w :: p.history) :
    ∃ v began, p.workers[i]? = some v ∧ q.workers[i]? = some (.executing w began) ∧
      (v = .processing (.work w) began ∨ v = .ready w began) := by
  have hlog : q.log i = [.called i w] ++ p.log i := by
    simpa using log_note hcalled (k := i) rfl i
  cases hv : p.workers[i]? with
  | none =>
    rw [h.log_of_none hv] at hlog
    simp at hlog
  | some v =>
    obtain ⟨v', es, hv', hes, hstep | ⟨-, rfl, -⟩⟩ := h.worker hv
    · rw [hlog] at hes
      have hes := List.append_cancel_right hes
      subst hes
      cases hstep with
      | call w began hat => exact ⟨v, began, rfl, hv', hat⟩
    · rw [hlog] at hes
      simp at hes

/-- In one cycle of a run a worker calls the transport at one time, is answered at another, and asks
for a pause. -/
inductive PausedCall (π ω : Type) (c : Config) (operation : String) (i : Nat) :
    Nat → Nat → Nat → Prop
  | intro {ls ids w ms x ns timeout} {p p' q q' r : Pool π ω}
      (hrun : (Pool.start c operation).run? ls = some p)
      (hcall : p.step (.work i ids) = some p') (hcalled : p'.history = .called i w :: p.history)
      (hwait : p'.run? ms = some q) (hanswer : q.step (.answer i x) = some q')
      (hgo : q'.run? ns = some r) (hpause : r.workers[i]? = some (.pausing timeout))
      (hcycle : r.begins i = p.begins i) : PausedCall π ω c operation i p.now q.now timeout

/-- The pause is over when a time slice has passed since the call. -/
theorem PausedCall.timeout_le {called answered timeout : Nat}
    (h : PausedCall π ω c operation i called answered timeout) :
    timeout ≤ c.timeSlice - (answered - called) := by
  cases h with
  | @intro ls ids w ms x ns _ p p' q q' r hrun hcall hcalled hwait hanswer hgo hpause hcycle =>
    have hpq : (Pool.start c operation).run? (ls ++ .work i ids :: ms) = some q :=
      run?_append.mpr ⟨p, hrun, run?_cons.mpr ⟨p', hcall, hwait⟩⟩
    have hbefore : p.begins i <+: q.begins i :=
      ((move_of_step hcall).begins_grow i).trans (begins_grow_of_run hwait i)
    have hmiddle : q.begins i <+: q'.begins i := (move_of_step hanswer).begins_grow i
    have hafter : q'.begins i <+: r.begins i := begins_grow_of_run hgo i
    have hq' : r.begins i = q'.begins i :=
      (hafter.eq_of_length_le (hcycle ▸ (hbefore.trans hmiddle).length_le)).symm
    have hq : q.begins i = p.begins i :=
      (hbefore.eq_of_length_le (hcycle ▸ (hmiddle.trans hafter).length_le)).symm
    obtain ⟨v, began, hv, -, hat⟩ := (move_of_step hcall).executing_of_called hcalled
    have hbegan : (p.begins i).getLast? = some began ∧ began ≤ p.now := by
      have hpaced := (paced_of_run hrun).worker i v hv
      rcases hat with rfl | rfl <;> exact ⟨hpaced.1, hpaced.2.1⟩
    have hmove := move_of_step hanswer
    cases hmove with
    | @answer i w' began' x hexecuting =>
      have hlast := ((paced_of_run hpq).worker i _ hexecuting).1
      rw [hq, hbegan.1] at hlast
      cases hlast
      have hslice : q.timeSlice = c.timeSlice := timeSlice_of_run hpq
      have hreplying : ∀ w r, (Worker.replying w r began : Worker π ω).Answered c.timeSlice began
          q.now := fun _ _ => rfl
      obtain ⟨u, hu, hanswered⟩ := answered_of_run hgo hslice (Nat.le_refl _)
        (by simp [record, setWorker, (List.getElem?_eq_some_iff.mp hexecuting).1])
        (hreplying w' (q.resultOf i w' x)) hq'
      rw [hpause] at hu
      cases hu
      have hpause : _ ≤ c.timeSlice - (q.now - began) := hanswered
      omega

/-- No pool with the configuration works faster than one cycle for each worker in a time slice. -/
structure Ceiling (π ω : Type) (c : Config) (operation : String) : Prop where
  /-- A worker's cycles are so many time slices apart as they are cycles apart. -/
  spaced : ∀ (ls : List (Label π ω)) p, (Pool.start c operation).run? ls = some p →
    ∀ i k m a b, (p.begins i)[k]? = some a → (p.begins i)[k + m]? = some b →
      a + m * c.timeSlice ≤ b
  /-- In a half-open span of so many time slices each worker begins no more cycles. -/
  window : ∀ (ls : List (Label π ω)) p, (Pool.start c operation).run? ls = some p →
    ∀ t m, p.cycles.countP (fun x => t ≤ x.2 ∧ x.2 < t + m * c.timeSlice) ≤ max c.workers 1 * m
  /-- One worker alone needs a time slice for each cycle but the last. -/
  alone : ∀ (ls : List (Label π ω)) p, (Pool.start c operation).run? ls = some p →
    c.workers ≤ 1 → ∀ n first last, (p.cycles.map Prod.snd)[0]? = some first →
      (p.cycles.map Prod.snd)[n - 1]? = some last → first + (n - 1) * c.timeSlice ≤ last
  /-- What the transport took is taken off the pause. -/
  pause : ∀ i called answered timeout, PausedCall π ω c operation i called answered timeout →
    timeout ≤ c.timeSlice - (answered - called) ∧
      (c.timeSlice ≤ answered - called → timeout = 0)

/-- The workers keep the pace, whatever the transport and the clock do and however often somebody
wakes. -/
theorem ceiling (π ω : Type) (c : Config) (operation : String) : Ceiling π ω c operation := by
  constructor
  · intro ls p h i k m a b ha hb
    rw [← timeSlice_of_run h]
    exact ((paced_of_run h).spaced i).add_mul_le ha hb
  · intro ls p h t m
    rw [← timeSlice_of_run h, ← length_workers_of_run h]
    exact (paced_of_run h).countP_cycles_le t m
  · intro ls p h hone n first last hfirst hlast
    have halone : p.workers.length = 1 := by
      rw [length_workers_of_run h]
      omega
    rw [← (paced_of_run h).begins_of_alone halone] at hfirst hlast
    rw [← timeSlice_of_run h]
    refine ((paced_of_run h).spaced 0).add_mul_le hfirst ?_
    rwa [Nat.zero_add]
  · intro i called answered timeout h
    have hle := h.timeout_le
    exact ⟨hle, by omega⟩

end Pool
end PacedJobs
