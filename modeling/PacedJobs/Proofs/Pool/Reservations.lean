import PacedJobs.Proofs.Pool.Closers
import PacedJobs.Proofs.Pool.Requests

/-!
# Who reserves slices

A client's call or a worker reserves slices, in one step that names them all. A call that has
slices to reserve does so in its last step, if the queue is open then. A worker that is to execute
work does so in the step in which it goes on to that, before it calls the transport.
-/

namespace PacedJobs

variable {π ω : Type}

theorem Work.reserved_add_one (w : Work π) : w.reserved + 1 = w.taskCount.toNat := by
  have hpos : 0 < w.taskCount.toNat :=
    Nat.pos_of_ne_zero fun h => w.taskCount_ne_zero (UInt32.toNat_inj.mp h)
  unfold reserved
  omega

theorem Work.reserved_ofTaskCount (id : JobId) (priority : UInt16) (submittedAt : Nat)
    (taskCount : UInt32) (payload : π) (ticket : Nat) :
    (ofTaskCount id priority submittedAt taskCount payload ticket).reserved =
      max taskCount.toNat 1 - 1 := by
  unfold ofTaskCount reserved
  split
  next hzero =>
    subst hzero
    rfl
  next hsome =>
    have hne : taskCount.toNat ≠ 0 := fun h => hsome (UInt32.toNat_inj.mp h)
    dsimp only
    omega

def Queue.Request.reserved : Queue.Request π → List JobId
  | reserve ids => ids
  | _ => []

def Event.reserved? : Event π ω → Option (List JobId)
  | reserved ids => some ids
  | _ => none

namespace Pool

/-- The names of all placeholders, from the first to the last. -/
def added (p : Pool π ω) : List JobId :=
  (p.told Event.reserved?).flatten

/-- The names of the placeholders that a step adds to the queue. -/
def slices (p : Pool π ω) (l : Label π ω) : List JobId :=
  if p.queue.closed then [] else (p.asked l).flatMap Queue.Request.reserved

/-- The names of the placeholders that steps of a kind add in a run. -/
def additions (kind : Pool π ω → Label π ω → Bool) (p : Pool π ω) : List (Label π ω) → List JobId
  | [] => []
  | l :: ls => (if kind p l then p.slices l else []) ++
      ((p.step l).map fun q => q.additions kind ls).getD []

def ofCall (k : Nat) (p : Pool π ω) : Label π ω → Bool
  | .submit .. | .close => p.calls.length == k
  | .resume m _ => m == k
  | _ => false

def ofClients (_ : Pool π ω) (l : Label π ω) : Bool :=
  l.worker?.isNone

def ofWorkers (_ : Pool π ω) (l : Label π ω) : Bool :=
  l.worker?.isSome

/-- The steps of workers that have begun a cycle with a placeholder. -/
def ofPlaceholders (p : Pool π ω) : Label π ω → Bool
  | .work i _ =>
    match p.workers[i]? with
    | some (.processing (.placeholder _) _) => true
    | _ => false
  | _ => false

/-- The steps of a worker that has begun a cycle with the work of a ticket. -/
def ofTicket (n : Nat) (p : Pool π ω) : Label π ω → Bool
  | .work i _ =>
    match p.workers[i]? with
    | some (.processing (.work w) _) => w.ticket == n
    | _ => false
  | _ => false

variable {p q r : Pool π ω} {l : Label π ω} {ls ms : List (Label π ω)}
  {kind : Pool π ω → Label π ω → Bool} {i k n : Nat} {w : Work π}

theorem additions_append (hrun : p.run? ls = some q) (ms : List (Label π ω)) :
    p.additions kind (ls ++ ms) = p.additions kind ls ++ q.additions kind ms := by
  induction ls generalizing p with
  | nil =>
    cases hrun
    rfl
  | cons l ls ih =>
    obtain ⟨s, hs, hrun⟩ := run?_cons.mp hrun
    simp [additions, hs, ih hrun]

theorem additions_concat (hrun : p.run? ls = some q) (l : Label π ω) :
    p.additions kind (ls ++ [l]) = p.additions kind ls ++ if kind q l then q.slices l else [] := by
  rw [additions_append hrun, additions]
  cases q.step l <;> simp [additions]

theorem added_reserve (p : Pool π ω) (ids : List JobId) :
    (p.reserve ids).added = p.added ++ if p.queue.closed then [] else ids := by
  cases ids with
  | nil =>
    rcases p.reserve_cases [] with heq | ⟨-, heq⟩ <;> simp [heq, added, told, record,
      Event.reserved?]
  | cons id ids =>
    unfold reserve Queue.reserve
    cases p.queue.closed <;> simp [added, told, record, Event.reserved?]

theorem slices_of_asked (h : (p.asked l).flatMap Queue.Request.reserved = []) :
    p.slices l = [] := by
  simp [slices, h]

theorem reserved_coordinate (p : Pool π ω) :
    (p.asked .coordinate).flatMap Queue.Request.reserved = [] := by
  cases hat : p.coordinator <;> simp [asked, hat, Queue.Request.reserved]

theorem reserved_cancelWhere (p : Pool π ω) (judge : Judge π) :
    (p.asked (.cancelWhere judge)).flatMap Queue.Request.reserved = [] := by
  simp only [asked]
  split <;> rfl

theorem Move.added_eq (h : Move p l q) : q.added = p.added ++ p.slices l := by
  have hquiet : q.added = p.added → (p.asked l).flatMap Queue.Request.reserved = [] →
      q.added = p.added ++ p.slices l := fun hsame hnone => by
    rw [hsame, slices_of_asked hnone, List.append_nil]
  have hreserve : ∀ ids, p.asked l = [.reserve ids] →
      (p.reserve ids).added = p.added ++ p.slices l := by
    intro ids hasked
    rw [added_reserve, slices, hasked, List.flatMap_singleton, Queue.Request.reserved]
  cases h with
  | sweepPanic queue hsweep => exact hquiet rfl (p.reserved_cancelWhere _)
  | sweep js queue hsweep => exact hquiet rfl (p.reserved_cancelWhere _)
  | reserve hcall hids => exact hreserve _ (by simp [asked, hcall])
  | trigger hcall => exact hquiet rfl (by simp [asked, hcall])
  | shut hcall => exact hquiet rfl (by simp [asked, hcall, Queue.Request.reserved])
  | coordinate hturn hawake => exact hquiet rfl p.reserved_coordinate
  | pop hat hline => exact hquiet rfl p.reserved_coordinate
  | abandon hat => exact hquiet rfl p.reserved_coordinate
  | work hat hturn hawake =>
    refine hquiet rfl ?_
    cases hturn <;> simp [asked, hat]
  | giveUp hat hfired => exact hquiet rfl (by simp [asked, hat])
  | begin hat => exact hquiet rfl (by simp [asked, hat])
  | prepare hat hmode hmore hids => exact hreserve _ (by simp [asked, hat, hmode, hmore])
  | call hat =>
    refine hquiet rfl ?_
    rcases hat with ⟨hat, hmode⟩ | hat
    · simp only [asked, hat, hmode, if_false, List.flatMap_nil]
    · simp [asked, hat]
  | write t hat ht hkept hfree => exact hquiet rfl (by simp [asked, hat])
  | miss hat hmiss => exact hquiet rfl (by simp [asked, hat])
  | finish hat =>
    refine hquiet rfl ?_
    rcases hat with ⟨hat, -⟩ | ⟨hat, -⟩ <;> simp [asked, hat]
  | _ => exact hquiet rfl rfl

theorem slices_eq_nil_of_added (h : Move p l q) (hadded : q.added = p.added) : p.slices l = [] :=
  List.append_right_eq_self.mp (h.added_eq.symm.trans hadded)

theorem additions_eq_nil (h : ∀ ms l s, p.run? ms = some s → kind s l = true → s.slices l = []) :
    p.additions kind ls = [] := by
  induction ls generalizing p with
  | nil => rfl
  | cons l ls ih =>
    rw [additions]
    have hfirst : (if kind p l then p.slices l else []) = [] := by
      split
      next hkind => exact h [] l p rfl hkind
      next => rfl
    rw [hfirst, List.nil_append]
    cases hs : p.step l with
    | none => rfl
    | some s => exact ih fun ms m t ht => h (l :: ms) m t (run?_cons.mpr ⟨s, hs, ht⟩)

@[simp] theorem reservation_reserve (p : Pool π ω) (ids : List JobId) :
    (p.reserve ids).reservation = p.reservation := by
  unfold reserve
  split <;> rfl

theorem Move.reservation_eq (h : Move p l q) : q.reservation = p.reservation := by
  cases h with
  | reserve hcall hids => exact p.reservation_reserve _
  | prepare hat hmode hmore hids => exact p.reservation_reserve _
  | _ => rfl

variable {c : Config} {operation : String}

theorem reservation_of_run (h : (Pool.start c operation).run? ls = some p) :
    p.reservation = c.reservation :=
  invariant_run? (I := fun p => p.reservation = c.reservation)
    (fun hp hmove => hmove.reservation_eq.trans hp) rfl h

/-- Work that is taken in, when slices are reserved on submission, leaves the rest to the call. -/
theorem reserving_of_submit {id priority submittedAt taskCount payload}
    (hmode : p.reservation = .onSubmit) (hopen : p.queue.closed = false)
    (h : p.step (.submit id priority submittedAt taskCount payload) = some q) :
    q.calls[p.calls.length]? = some (.reserving (max taskCount.toNat 1 - 1)) := by
  cases move_of_step h with
  | refuse w hw hclosed => cases hopen.symm.trans hclosed
  | accept w hw _ =>
    rw [if_pos hmode, hw, Work.reserved_ofTaskCount]
    exact List.getElem?_concat_length

theorem additions_of_submit {id priority submittedAt taskCount payload}
    (h : p.step (.submit id priority submittedAt taskCount payload) = some q)
    (ms : List (Label π ω)) :
    p.additions kind (.submit id priority submittedAt taskCount payload :: ms) =
      q.additions kind ms := by
  simp [additions, h, slices, asked, Queue.Request.reserved]

theorem returned_of_submit {id priority submittedAt taskCount payload}
    (hmode : p.reservation = .onExecute ∨ p.queue.closed = true)
    (h : p.step (.submit id priority submittedAt taskCount payload) = some q) :
    q.calls[p.calls.length]? = some .returned := by
  cases move_of_step h with
  | refuse w hw hclosed => exact List.getElem?_concat_length
  | accept w hw hopen =>
    have hexecute : p.reservation ≠ .onSubmit := by
      rcases hmode with hmode | hclosed
      · simp [hmode]
      · cases hopen.symm.trans hclosed
    rw [if_neg hexecute]
    exact List.getElem?_concat_length

theorem ofCall_eq_false {call : Call} (hcall : p.calls[k]? = some call)
    (hother : ∀ ids, l ≠ .resume k ids) : ofCall k p l = false := by
  have hlt := (List.getElem?_eq_some_iff.mp hcall).1
  cases l with
  | resume m ids => exact beq_false_of_ne fun heq => hother ids (heq ▸ rfl)
  | submit => exact beq_false_of_ne hlt.ne'
  | close => exact beq_false_of_ne hlt.ne'
  | _ => rfl

theorem returned_stays (hcall : p.calls[k]? = some .returned) (hrun : p.run? ms = some q) :
    q.calls[k]? = some .returned ∧ p.additions (ofCall k) ms = [] := by
  induction ms generalizing p with
  | nil =>
    cases hrun
    exact ⟨hcall, rfl⟩
  | cons l ms ih =>
    obtain ⟨s, hs, hrun⟩ := run?_cons.mp hrun
    have hmove := move_of_step hs
    have hother : ∀ ids, l ≠ .resume k ids := by
      rintro ids rfl
      cases hmove with
      | reserve hat hids => cases hat.symm.trans hcall
      | trigger hat => cases hat.symm.trans hcall
      | shut hat => cases hat.symm.trans hcall
    have hstays : s.calls[k]? = some .returned :=
      (hmove.getElem?_calls hcall).resolve_right (not_exists.mpr hother)
    have hnone := ofCall_eq_false hcall hother
    obtain ⟨hreturned, hadditions⟩ := ih hstays hrun
    exact ⟨hreturned, by simp [additions, hnone, hs, hadditions]⟩

/-- A call that is to reserve slices does so in one step, if it finds the queue open. -/
theorem reserving_run (hcall : p.calls[k]? = some (.reserving n)) (hrun : p.run? ms = some q) :
    q.calls[k]? = some (.reserving n) ∧ p.additions (ofCall k) ms = [] ∨
      q.calls[k]? = some .returned ∧ ∃ ms₁ ids ms₂ s, ms = ms₁ ++ .resume k ids :: ms₂ ∧
        p.run? ms₁ = some s ∧ s.calls[k]? = some (.reserving n) ∧
          p.additions (ofCall k) ms = (if s.queue.closed then [] else ids) ∧
            (s.queue.closed = false → ids.length = n) := by
  induction ms generalizing p with
  | nil =>
    cases hrun
    exact .inl ⟨hcall, rfl⟩
  | cons l ms ih =>
    obtain ⟨s, hs, hrun⟩ := run?_cons.mp hrun
    have hmove := move_of_step hs
    by_cases hown : ∃ ids, l = .resume k ids
    · obtain ⟨ids, rfl⟩ := hown
      right
      cases hmove with
      | @reserve _ _ count hat hids =>
        cases hat.symm.trans hcall
        have hlt := (List.getElem?_eq_some_iff.mp hcall).1
        have hreturned : ((p.reserve ids).setCall k .returned).calls[k]? = some .returned := by
          simp [setCall, hlt]
        obtain ⟨hreturned, hnothing⟩ := returned_stays hreturned hrun
        refine ⟨hreturned, [], ids, ms, p, rfl, rfl, hcall, ?_, fun hopen => ?_⟩
        · simp [additions, ofCall, hs, hnothing, slices, asked, hcall, Queue.Request.reserved]
        · simpa [canReserve, hopen] using hids
      | trigger hat => cases hat.symm.trans hcall
      | shut hat => cases hat.symm.trans hcall
    · have hstays := (hmove.getElem?_calls hcall).resolve_right hown
      have hnone := ofCall_eq_false hcall fun ids hl => hown ⟨ids, hl⟩
      have hadditions : p.additions (ofCall k) (l :: ms) = s.additions (ofCall k) ms := by
        simp [additions, hnone, hs]
      rw [hadditions]
      refine (ih hstays hrun).imp_right ?_
      rintro ⟨hreturned, ms₁, ids, ms₂, t, hms, ht, hrest⟩
      exact ⟨hreturned, l :: ms₁, ids, ms₂, t, by rw [hms, List.cons_append],
        run?_cons.mpr ⟨s, hs, ht⟩, hrest⟩

/-- A worker has reserved the slices of its work, or has gone on because there are none. -/
def Committed (p : Pool π ω) (i : Nat) (w : Work π) : Prop :=
  (∃ began, p.workers[i]? = some (.ready w began)) ∨ .called i w ∈ p.history

theorem Committed.of_log {es : List (Event π ω)} (hlog : q.log i = es ++ p.log i)
    (hcalled : .called i w ∈ es) : Committed q i w :=
  .inr (List.mem_of_mem_filter (hlog ▸ List.mem_append_left _ hcalled))

theorem Committed.move (h : Committed p i w) (hmove : Move p l q) : Committed q i w := by
  rcases h with ⟨began, hat⟩ | hcalled
  · obtain ⟨v, es, hv, hlog, hstep⟩ := hmove.worker hat
    rcases hstep with hstep | ⟨-, -, rfl | ⟨-, rfl⟩⟩
    · cases hstep with
      | turn hturn hawake => cases hturn
      | call w' began' hready =>
        rcases hready with hready | hready
        · cases hready
        · cases hready
          exact .of_log hlog List.mem_cons_self
    · exact .inl ⟨began, hv⟩
    · exact .inl ⟨began, hv⟩
  · obtain ⟨es, hes⟩ := hmove.exists_history_eq
    exact .inr (hes ▸ List.mem_append_right es hcalled)

theorem Committed.of_processing {ids : List JobId} {began : Nat}
    (hat : p.workers[i]? = some (.processing (.work w) began)) (hmove : Move p (.work i ids) q) :
    Committed q i w := by
  obtain ⟨v, es, hv, hlog, hstep⟩ := hmove.worker hat
  rcases hstep with hstep | ⟨hother, -⟩
  · cases hstep with
    | turn hturn hawake => cases hturn
    | prepare w began => exact .inl ⟨began, hv⟩
    | call w began hat =>
      rcases hat with hat | hat
      · cases hat
        exact .of_log hlog List.mem_cons_self
      · cases hat
  · exact absurd rfl hother

/-- A worker comes to that by its own step, in the cycle of the work. -/
theorem Committed.before (h : Committed q i w) (hmove : Move p l q) :
    Committed p i w ∨
      ∃ ids began, l = .work i ids ∧ p.workers[i]? = some (.processing (.work w) began) := by
  rcases h with ⟨began, hat⟩ | hcalled
  · obtain ⟨v, es, hv, -, hstep⟩ := hmove.worker_of_after hat
    generalize hready : Worker.ready w began = v' at hstep
    rcases hstep with hstep | ⟨-, -, rfl | ⟨-, rfl⟩⟩
    · cases hstep with
      | turn hturn hawake => cases hturn <;> cases hready
      | prepare w began =>
        cases hready
        exact .inr ⟨_, began, rfl, hv⟩
      | letGo w began => split at hready <;> cases hready
      | _ => cases hready
    · cases hready
      exact .inl (.inl ⟨began, hv⟩)
    · cases v <;> cases hready
      exact .inl (.inl ⟨began, hv⟩)
  · have hnoted : .called i w ∈ q.log i := List.mem_filter.mpr ⟨hcalled, by simp [Event.worker?]⟩
    cases hat : p.workers[i]? with
    | none => exact .inl (.inr (List.mem_of_mem_filter (hmove.log_of_none hat ▸ hnoted)))
    | some v =>
      obtain ⟨v', es, -, hlog, hstep⟩ := hmove.worker hat
      rw [hlog] at hnoted
      rcases List.mem_append.mp hnoted with hnew | hold
      · rcases hstep with hstep | ⟨-, rfl, -⟩
        · cases hstep with
          | call w' began hv =>
            cases List.mem_singleton.mp hnew
            rcases hv with rfl | rfl
            · exact .inr ⟨_, began, rfl, rfl⟩
            · exact .inl (.inl ⟨began, hat⟩)
          | _ => simp at hnew
        · cases hnew
      · exact .inl (.inr (List.mem_of_mem_filter hold))

theorem mem_kept_of_hand {v : Worker π ω} {j : Job π} (hat : p.workers[i]? = some v)
    (hj : j ∈ v.hand) : j ∈ p.kept :=
  List.mem_append_right _ (List.mem_flatMap.mpr ⟨v, List.mem_of_getElem? hat, hj⟩)

theorem Committed.ticket_ne (h : Committed p i w) (hsound : Sound p) {k began : Nat} {w' : Work π}
    (hat : p.workers[k]? = some (.processing (.work w') began)) : w'.ticket ≠ w.ticket := by
  intro hticket
  have hw' : .work w' ∈ p.kept := mem_kept_of_hand hat List.mem_cons_self
  rcases h with ⟨began', hready⟩ | hcalled
  · have hw : .work w ∈ p.kept := mem_kept_of_hand hready List.mem_cons_self
    cases hsound.work_unique (hsound.kept_subset hw) (hsound.kept_subset hw') hticket
    cases (hsound.alone_of_hand hready List.mem_cons_self).2.2 k _ hat List.mem_cons_self
  · have hw := hsound.mem_arrivals_of_called hcalled
    cases hsound.work_unique hw (hsound.kept_subset hw') hticket
    exact hsound.not_called_of_kept hw' i hcalled

theorem exists_of_ofTicket (h : ofTicket n p l = true) : ∃ i ids w began,
    l = .work i ids ∧ p.workers[i]? = some (.processing (.work w) began) ∧ w.ticket = n := by
  unfold ofTicket at h
  split at h
  next i ids =>
    split at h
    next w began hat => exact ⟨i, ids, w, began, rfl, hat, beq_iff_eq.mp h⟩
    next => cases h
  next => cases h

/-- Nothing is added for work before a worker is to reserve its slices. -/
theorem additions_of_ticket (h : (Pool.start c operation).run? ls = some p) (n : Nat) :
    (Pool.start c operation).additions (ofTicket n) ls = [] ∨
      ∃ i w, w.ticket = n ∧ Committed p i w := by
  refine run_induction (I := fun ls p => (Pool.start c operation).additions (ofTicket n) ls = [] ∨
    ∃ i w, w.ticket = n ∧ Committed p i w) (.inl rfl) ?_ h
  rintro ls l q r hrun (hnone | ⟨i, w, hw, hcommitted⟩) hmove
  · rw [additions_concat hrun, hnone]
    cases hown : ofTicket n q l with
    | false => exact .inl rfl
    | true =>
      obtain ⟨i, ids, w, began, rfl, hat, hw⟩ := exists_of_ofTicket hown
      exact .inr ⟨i, w, hw, .of_processing hat hmove⟩
  · exact .inr ⟨i, w, hw, hcommitted.move hmove⟩

theorem Committed.additions_eq_nil (h : Committed p i w) (hsound : Sound p)
    (ms : List (Label π ω)) : p.additions (ofTicket w.ticket) ms = [] := by
  refine Pool.additions_eq_nil fun ns l s hs hown => ?_
  have hafter : Committed s i w ∧ Sound s :=
    invariant_run? (I := fun s => Committed s i w ∧ Sound s)
      (fun hs hmove => ⟨hs.1.move hmove, hs.2.move hmove⟩) ⟨h, hsound⟩ hs
  obtain ⟨k, ids, w', began, rfl, hat, hw'⟩ := exists_of_ofTicket hown
  exact absurd hw' (hafter.1.ticket_ne hafter.2 hat)

theorem Committed.exists_step (h : (Pool.start c operation).run? ls = some p)
    (hcommitted : Committed p i w) : ∃ ls₁ ids ls₂ s began, ls = ls₁ ++ .work i ids :: ls₂ ∧
      (Pool.start c operation).run? ls₁ = some s ∧
        s.workers[i]? = some (.processing (.work w) began) := by
  refine run_induction (I := fun ls p => Committed p i w → ∃ ls₁ ids ls₂ s began,
    ls = ls₁ ++ .work i ids :: ls₂ ∧ (Pool.start c operation).run? ls₁ = some s ∧
      s.workers[i]? = some (.processing (.work w) began)) ?_ ?_ h hcommitted
  · rintro (⟨began, hat⟩ | hcalled)
    · cases List.eq_of_mem_replicate (List.mem_of_getElem? hat)
    · cases hcalled
  · intro ls l q r hrun ih hmove hcommitted
    rcases hcommitted.before hmove with hbefore | ⟨ids, began, rfl, hat⟩
    · obtain ⟨ls₁, ids, ls₂, s, began, rfl, hs, hat⟩ := ih hbefore
      exact ⟨ls₁, ids, ls₂ ++ [l], s, began, by simp, hs, hat⟩
    · exact ⟨ls, ids, [], q, began, rfl, hrun, hat⟩

theorem length_slices {ids : List JobId} {began : Nat} (h : Move p (.work i ids) q)
    (hat : p.workers[i]? = some (.processing (.work w) began))
    (hmode : p.reservation = .onExecute) :
    (p.slices (.work i ids)).length = if p.queue.closed then 0 else w.reserved := by
  have hasked : p.asked (.work i ids) = if 0 < w.reserved then [.reserve ids] else [] := by
    simp [asked, hat, hmode]
  have hids : 0 < w.reserved → p.canReserve w.reserved ids = true := by
    intro hmore
    cases h with
    | prepare hat' _ _ hids =>
      cases hat.symm.trans hat'
      exact hids
    | call hat' =>
      rcases hat' with ⟨hat', hnone⟩ | hat'
      · cases hat.symm.trans hat'
        exact absurd ⟨hmode, hmore⟩ hnone
      · cases hat.symm.trans hat'
    | work hat' hturn =>
      cases hat.symm.trans hat'
      cases hturn
    | finish hat' =>
      rcases hat' with ⟨hat', -⟩ | ⟨hat', -⟩
      all_goals cases hat.symm.trans hat'
    | giveUp hat' => cases hat.symm.trans hat'
    | begin hat' => cases hat.symm.trans hat'
    | write t hat' => cases hat.symm.trans hat'
    | miss hat' => cases hat.symm.trans hat'
  cases hclosed : p.queue.closed with
  | true => simp [slices, hclosed]
  | false =>
    by_cases hmore : 0 < w.reserved
    · have hlength := hids hmore
      simp only [canReserve, hclosed, Bool.false_or, beq_iff_eq] at hlength
      simp [slices, hclosed, hasked, hmore, Queue.Request.reserved, hlength]
    · have hnone : w.reserved = 0 := by omega
      simp [slices, hclosed, hasked, hnone]

/-- The step in which a worker goes on to execute its work, with names for slices. -/
structure Executes (i : Nat) (w : Work π) (ids : List JobId) (s : Pool π ω) : Prop where
  processing : ∃ began, s.workers[i]? = some (.processing (.work w) began)
  before : ∀ k, .called k w ∉ s.history
  length : (s.slices (.work i ids)).length = if s.queue.closed then 0 else w.reserved

/-- Slices are reserved for executed work in one step, before the transport is called. -/
theorem executes_of_committed (h : (Pool.start c operation).run? ls = some p)
    (hmode : c.reservation = .onExecute) (hcommitted : Committed p i w) :
    ∃ ls₁ ids ls₂ s, ls = ls₁ ++ .work i ids :: ls₂ ∧
      (Pool.start c operation).run? ls₁ = some s ∧ Executes i w ids s ∧
        (Pool.start c operation).additions (ofTicket w.ticket) ls = s.slices (.work i ids) := by
  obtain ⟨ls₁, ids, ls₂, s, began, rfl, hs, hat⟩ := hcommitted.exists_step h
  obtain ⟨s', hs', hrest⟩ := run?_append.mp h
  cases hs.symm.trans hs'
  obtain ⟨t, ht, -⟩ := run?_cons.mp hrest
  have hmove := move_of_step ht
  have hsound := sound_of_run hs
  have hkept : .work w ∈ s.kept := mem_kept_of_hand hat List.mem_cons_self
  refine ⟨ls₁, ids, ls₂, s, rfl, hs, ⟨⟨began, hat⟩, hsound.not_called_of_kept hkept,
    length_slices hmove hat ((reservation_of_run hs).trans hmode)⟩, ?_⟩
  have hbefore : (Pool.start c operation).additions (ofTicket w.ticket) ls₁ = [] := by
    refine (additions_of_ticket hs w.ticket).resolve_right ?_
    rintro ⟨k, w', hw', hearlier⟩
    exact hearlier.ticket_ne hsound hat hw'.symm
  have hafter := (Committed.of_processing hat hmove).additions_eq_nil (hsound.move hmove) ls₂
  have hown : ofTicket w.ticket s (.work i ids) = true := by simp [ofTicket, hat]
  rw [additions_append hs, hbefore, additions, hown, ht]
  simp [hafter]

end Pool
end PacedJobs
