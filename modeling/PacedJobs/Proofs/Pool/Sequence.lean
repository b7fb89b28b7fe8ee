import PacedJobs.Proofs.Pool.Custody
import PacedJobs.Proofs.Pool.Workers

/-!
# From hand to hand

The coordinator pops jobs one after the other and hands them over in this order, and a worker begins
and executes what it has received in that order. So at any time these sequences differ by what
somebody has in hand, or by the job with which somebody has stopped.
-/

namespace PacedJobs

variable {π ω β : Type}

namespace Event

def popped? : Event π ω → Option (Job π)
  | popped j => some j
  | _ => none

def received? : Event π ω → Option (Job π)
  | received _ j => some j
  | _ => none

def begun? : Event π ω → Option (Job π)
  | began _ j _ => some j
  | _ => none

def called? : Event π ω → Option (Work π)
  | called _ w => some w
  | _ => none

end Event

namespace Worker

/-- The job that a worker has received and not begun. -/
def fresh : Worker π ω → List (Job π)
  | received j | admitted j => [j]
  | _ => []

/-- The work for which a worker has begun a cycle and not called the transport. -/
def uncalled : Worker π ω → List (Work π)
  | processing (.work w) _ | ready w _ => [w]
  | _ => []

/-- The job that a worker has received and is not done with. -/
def load : Worker π ω → List (Job π)
  | received j | admitted j | processing j _ => [j]
  | ready w _ | executing w _ | replying w _ _ | delivered w _ | undelivered w _ => [.work w]
  | _ => []

@[simp] theorem fresh_notify (v : Worker π ω) : v.notify.fresh = v.fresh := by
  cases v <;> rfl

@[simp] theorem uncalled_notify (v : Worker π ω) : v.notify.uncalled = v.uncalled := by
  cases v <;> rfl

@[simp] theorem load_notify (v : Worker π ω) : v.notify.load = v.load := by
  cases v <;> rfl

theorem length_load_le (v : Worker π ω) : v.load.length ≤ 1 := by
  cases v <;> simp [load]

/-- A worker goes through its jobs one after the other. -/
structure Sequenced (v : Worker π ω) (received begun : List (Job π)) (called : List (Work π)) :
    Prop where
  received_eq : received = begun ++ v.fresh ∨ v = stopped ∧ ∃ j, received = begun ++ [j]
  begun_eq : begun.filterMap Job.work? = called ++ v.uncalled
  load_suffix : v.load <:+ received

variable {v : Worker π ω} {received begun : List (Job π)} {called : List (Work π)}

theorem Sequenced.notify (h : v.Sequenced received begun called) :
    v.notify.Sequenced received begun called := by
  refine ⟨?_, by simpa using h.begun_eq, by simpa using h.load_suffix⟩
  rcases h.received_eq with heq | ⟨rfl, hlast⟩
  · exact .inl (by simpa using heq)
  · exact .inr ⟨rfl, hlast⟩

theorem Sequenced.pass (h : v.Sequenced received begun called) {v' : Worker π ω} (hgo : v ≠ stopped)
    (hfresh : v'.fresh = v.fresh) (huncalled : v'.uncalled = v.uncalled)
    (hload : v'.load = v.load ∨ v'.load = []) : v'.Sequenced received begun called := by
  refine ⟨.inl ?_, huncalled ▸ h.begun_eq, ?_⟩
  · rw [hfresh]
    exact h.received_eq.resolve_right fun hstopped => hgo hstopped.1
  · rcases hload with heq | heq
    · exact heq ▸ h.load_suffix
    · exact heq ▸ List.nil_suffix

theorem Turn.sequenced {p : Pool π ω} {v' : Worker π ω} (hturn : Turn p v v')
    (h : v.Sequenced received begun called) : v'.Sequenced received begun called := by
  cases hturn with
  | spend id began => exact h.pass (by simp) rfl rfl (.inr rfl)
  | _ => exact h.pass (by simp) rfl rfl (.inl rfl)

/-- What a step takes, begins and executes goes to the ends of the sequences. -/
theorem Step.sequenced {p : Pool π ω} {i : Nat} {l : Label π ω} {v' : Worker π ω}
    {es : List (Event π ω)} (hstep : Step p i l v v' es) (h : v.Sequenced received begun called) :
    v'.Sequenced (received ++ (es.filterMap Event.received?).reverse)
      (begun ++ (es.filterMap Event.begun?).reverse)
      (called ++ (es.filterMap Event.called?).reverse) := by
  have hquiet : ∀ {v' : Worker π ω}, v'.Sequenced received begun called →
      v'.Sequenced (received ++ []) (begun ++ []) (called ++ []) := by simp
  have hreceived : v ≠ stopped → received = begun ++ v.fresh :=
    fun hgo => h.received_eq.resolve_right fun hstopped => hgo hstopped.1
  cases hstep with
  | turn hturn hawake => exact hquiet (hturn.sequenced h)
  | receive j hat =>
    have hnext : (Worker.received j : Worker π ω).Sequenced (received ++ [j]) (begun ++ [])
        (called ++ []) := by
      refine ⟨.inl ?_, by simpa [uncalled] using h.begun_eq, List.suffix_append _ _⟩
      simpa [fresh] using hreceived (by simp)
    exact hnext
  | giveUp j hfired =>
    exact hquiet ⟨.inr ⟨rfl, j, hreceived (by simp)⟩, h.begun_eq, List.nil_suffix⟩
  | begin j =>
    have hnext : (processing j p.now : Worker π ω).Sequenced (received ++ []) (begun ++ [j])
        (called ++ []) := by
      refine ⟨.inl ?_, ?_, by simpa [load] using h.load_suffix⟩
      · simpa [fresh] using hreceived (by simp)
      · have hbegun := h.begun_eq
        cases j <;> simpa [uncalled, Job.work?, List.filterMap_cons] using hbegun
    exact hnext
  | call w began hat =>
    have hat : v.fresh = [] ∧ v.uncalled = [w] ∧ v.load = [.work w] ∧ v ≠ stopped := by
      rcases hat with rfl | rfl <;> simp [fresh, uncalled, load]
    obtain ⟨hfresh, huncalled, hload, hgo⟩ := hat
    have hnext : (executing w began : Worker π ω).Sequenced (received ++ []) (begun ++ [])
        (called ++ [w]) := by
      refine ⟨.inl ?_, ?_, ?_⟩
      · have hall := hreceived hgo
        rw [hfresh] at hall
        simpa [fresh] using hall
      · have hbegun := h.begun_eq
        rw [huncalled] at hbegun
        simpa [uncalled] using hbegun
      · have hsuffix := h.load_suffix
        rw [hload] at hsuffix
        simpa [load] using hsuffix
    exact hnext
  | finish w began => exact hquiet (h.pass (by simp) rfl rfl (.inr rfl))
  | letGo w began =>
    refine hquiet (h.pass (by simp) ?_ ?_ (.inr ?_))
    all_goals cases p.triggered <;> rfl
  | _ => exact hquiet (h.pass (by simp) rfl rfl (.inl rfl))

end Worker

namespace Pool

/-- What the history tells, from the first to the last. -/
def told (p : Pool π ω) (f : Event π ω → Option β) : List β :=
  (p.history.filterMap f).reverse

/-- What is told of one worker. -/
def toldOf (p : Pool π ω) (f : Event π ω → Option β) (i : Nat) : List β :=
  ((p.log i).filterMap f).reverse

def popped (p : Pool π ω) : List (Job π) :=
  p.told Event.popped?

def received (p : Pool π ω) : List (Job π) :=
  p.told Event.received?

def begun (p : Pool π ω) : List (Job π) :=
  p.told Event.begun?

variable {p q : Pool π ω} {l : Label π ω} {ls : List (Label π ω)} {f : Event π ω → Option β}

theorem called_eq_told (p : Pool π ω) : p.called = p.told Event.called? := by
  unfold called told
  congr 2

theorem told_of_history (es : List (Event π ω)) (h : q.history = es ++ p.history) :
    q.told f = p.told f ++ (es.filterMap f).reverse := by
  simp [told, h]

theorem toldOf_of_log {es : List (Event π ω)} {i : Nat} (h : q.log i = es ++ p.log i) :
    q.toldOf f i = p.toldOf f i ++ (es.filterMap f).reverse := by
  simp [toldOf, h]

theorem told_reserve (hf : ∀ ids, f (.reserved ids) = none) (p : Pool π ω) (ids : List JobId) :
    (p.reserve ids).told f = p.told f := by
  rcases p.reserve_cases ids with heq | ⟨-, heq⟩
  · rw [heq]
  · rw [heq]
    simp [told, record, hf]

theorem told_prefix_of_run (h : p.run? ls = some q) : p.told f <+: q.told f := by
  obtain ⟨es, hes⟩ := history_of_run h
  rw [told_of_history es hes]
  exact List.prefix_append _ _

/-- Every worker of a pool goes through its jobs one after the other. -/
def Orderly (p : Pool π ω) : Prop :=
  ∀ (i : Nat) (v : Worker π ω), p.workers[i]? = some v →
    v.Sequenced (p.toldOf Event.received? i) (p.toldOf Event.begun? i) (p.toldOf Event.called? i)

theorem Orderly.move (h : Orderly p) (hmove : Move p l q) : Orderly q := by
  intro i v' hv'
  obtain ⟨v, es, hv, hlog, hstep⟩ := hmove.worker_of_after hv'
  rw [toldOf_of_log hlog, toldOf_of_log hlog, toldOf_of_log hlog]
  have hv := h i v hv
  rcases hstep with hstep | ⟨-, rfl, rfl | ⟨-, rfl⟩⟩
  · exact hstep.sequenced hv
  · simpa using hv
  · simpa using hv.notify

/-- The coordinator has in hand what it has popped and nobody has received. -/
def Handing (p : Pool π ω) : Prop :=
  p.popped = p.received ++ p.coordinator.hand ∨
    p.coordinator = .stopped ∧ ∃ j, p.popped = p.received ++ [j] ∧ .abandoned j ∈ p.history

theorem Handing.frame (h : Handing p) (hpopped : q.popped = p.popped)
    (hreceived : q.received = p.received) (hhistory : p.history ⊆ q.history)
    (hcoordinator : q.coordinator = p.coordinator ∨ q.coordinator = p.coordinator.notify) :
    Handing q := by
  rcases h with heq | ⟨hstopped, j, heq, habandoned⟩
  · left
    rw [hpopped, hreceived, heq]
    rcases hcoordinator with hsame | hsame <;> simp [hsame]
  · right
    refine ⟨?_, j, by rw [hpopped, hreceived, heq], hhistory habandoned⟩
    rcases hcoordinator with hsame | hsame <;> simp [hsame, hstopped, Coordinator.notify]

theorem Handing.move (h : Handing p) (hmove : Move p l q) : Handing q := by
  have hhistory : p.history ⊆ q.history := by
    obtain ⟨es, hes⟩ := hmove.exists_history_eq
    exact hes ▸ List.subset_append_right es p.history
  have hreserve : ∀ ids, (p.reserve ids).popped = p.popped ∧ (p.reserve ids).received = p.received ∧
      ((p.reserve ids).coordinator = p.coordinator ∨
        (p.reserve ids).coordinator = p.coordinator.notify) := by
    intro ids
    refine ⟨told_reserve (fun _ => rfl) p ids, told_reserve (fun _ => rfl) p ids, ?_⟩
    exact (p.coordinator_reserve ids).imp_right And.left
  cases hmove with
  | @reserve k ids count hcall hids =>
    exact h.frame (hreserve ids).1 (hreserve ids).2.1 hhistory (hreserve ids).2.2
  | @prepare i ids w began hat hmode hmore hids =>
    exact h.frame (hreserve ids).1 (hreserve ids).2.1 hhistory (hreserve ids).2.2
  | accept w hw hopen => exact h.frame rfl rfl hhistory (.inr rfl)
  | shut hcall => exact h.frame rfl rfl hhistory (.inr rfl)
  | coordinate hturn hawake =>
    rcases h with heq | ⟨hstopped, -⟩
    · exact .inl (heq.trans (congrArg _ hturn.hand_eq.symm))
    · rw [hstopped] at hturn
      cases hturn
  | @pop j js hat hline =>
    rcases h with heq | ⟨hstopped, -⟩
    · left
      have hpopped : p.popped = p.received := by simpa [hat, Coordinator.hand] using heq
      exact (told_of_history [.popped j] rfl).trans (congrArg (· ++ [j]) hpopped)
    · simp [hat] at hstopped
  | @abandon j hat =>
    rcases h with heq | ⟨hstopped, -⟩
    · rw [hand_eq_of_abandon hat] at heq
      exact .inr ⟨rfl, j, heq, List.mem_cons_self⟩
    · rcases hat with ⟨hat, -⟩ | ⟨hat, -⟩ <;> simp [hat] at hstopped
  | rouse hat =>
    rcases h with heq | ⟨hstopped, -⟩
    · rw [hat] at heq
      exact .inl heq
    · simp [hat] at hstopped
  | @handOver i j hat hi =>
    rcases h with heq | ⟨hstopped, -⟩
    · left
      have hpopped : p.popped = p.received ++ [j] := by simpa [hat, Coordinator.hand] using heq
      have hreceived : (({ p with coordinator := .checking }.setWorker i (.received j)).record
          (.received i j)).received = p.received ++ [j] := told_of_history [.received i j] rfl
      rw [hreceived]
      exact hpopped.trans (List.append_nil _).symm
    · simp [hat] at hstopped
  | _ => exact h.frame rfl rfl hhistory (.inl rfl)

variable {c : Config} {operation : String}

theorem handing_of_run (h : (Pool.start c operation).run? ls = some p) : Handing p :=
  invariant_run? (fun hp hmove => hp.move hmove) (.inl rfl) h

theorem orderly_of_run (h : (Pool.start c operation).run? ls = some p) : Orderly p := by
  refine invariant_run? (fun hp hmove => hp.move hmove) ?_ h
  intro i v hv
  rw [List.eq_of_mem_replicate (List.mem_of_getElem? hv)]
  exact ⟨.inl rfl, rfl, List.nil_suffix⟩

theorem Move.of_stopped (h : Move p l q) (hstopped : p.coordinator = .stopped) :
    q.coordinator = .stopped ∧ q.received = p.received := by
  have hreserve : ∀ ids, (p.reserve ids).coordinator = .stopped ∧
      (p.reserve ids).received = p.received := by
    intro ids
    refine ⟨?_, told_reserve (fun _ => rfl) p ids⟩
    rcases p.coordinator_reserve ids with heq | ⟨heq, -⟩
    · exact heq.trans hstopped
    · rw [heq, hstopped]
      rfl
  cases h with
  | reserve hcall hids => exact hreserve _
  | prepare hat hmode hmore hids => exact hreserve _
  | accept w hw hopen => exact ⟨congrArg Coordinator.notify hstopped, rfl⟩
  | shut hcall => exact ⟨congrArg Coordinator.notify hstopped, rfl⟩
  | coordinate hturn hawake =>
    rw [hstopped] at hturn
    cases hturn
  | pop hat hline => simp [hat] at hstopped
  | abandon hat => exact ⟨rfl, rfl⟩
  | rouse hat => simp [hat] at hstopped
  | handOver hat hi => simp [hat] at hstopped
  | _ => exact ⟨hstopped, rfl⟩

/-- What workers receive is what was in hand, and then what is popped. -/
theorem Handing.received_of_run (hp : Handing p) (hq : Handing q) (hrun : p.run? ls = some q)
    {js : List (Job π)} (hpopped : q.popped = p.popped ++ js) :
    ∃ hs, q.received = p.received ++ hs ∧ hs <+: p.coordinator.hand ++ js := by
  obtain ⟨hs, hreceived⟩ : p.received <+: q.received := told_prefix_of_run hrun
  refine ⟨hs, hreceived.symm, ?_⟩
  obtain ⟨rest, hrest⟩ : ∃ rest, q.popped = q.received ++ rest := by
    rcases hq with heq | ⟨-, j, heq, -⟩
    · exact ⟨_, heq⟩
    · exact ⟨_, heq⟩
  rcases hp with heq | ⟨hstopped, -⟩
  · rw [hrest, ← hreceived, heq, List.append_assoc, List.append_assoc, List.append_cancel_left_eq]
      at hpopped
    exact ⟨rest, hpopped⟩
  · have hstill : q.coordinator = .stopped ∧ q.received = p.received :=
      invariant_run? (I := fun q => q.coordinator = .stopped ∧ q.received = p.received)
        (fun hq hmove => ⟨(hmove.of_stopped hq.1).1, (hmove.of_stopped hq.1).2.trans hq.2⟩)
        ⟨hstopped, rfl⟩ hrun
    rw [← hreceived] at hstill
    exact List.append_right_eq_self.mp hstill.2 ▸ List.nil_prefix

theorem lt_of_mem_history (h : (Pool.start c operation).run? ls = some p) {e : Event π ω} {i : Nat}
    (he : e ∈ p.history) (hi : e.worker? = some i) : i < max c.workers 1 := by
  rw [← length_workers_of_run h]
  by_contra hge
  have hlog : ∀ i, p.workers.length ≤ i → p.log i = [] := by
    refine invariant_run? (I := fun p => ∀ i, p.workers.length ≤ i → p.log i = []) ?_
      (fun _ _ => rfl) h
    intro p l q hp hmove i hle
    rw [hmove.length_workers] at hle
    rw [hmove.log_of_none (List.getElem?_eq_none hle), hp i hle]
  have hmem : e ∈ p.log i := by simp [log, he, hi]
  rw [hlog i (by omega)] at hmem
  cases hmem

/-- In a pool with one worker, what is told of workers is told of that one. -/
theorem toldOf_of_alone (h : (Pool.start c operation).run? ls = some p) (halone : c.workers ≤ 1)
    (hf : ∀ e b, f e = some b → e.worker? ≠ none) : p.toldOf f 0 = p.told f := by
  unfold toldOf told log
  rw [List.filterMap_filter]
  refine congrArg List.reverse (List.filterMap_congr fun e he => ?_)
  cases hfe : f e with
  | none => simp
  | some b =>
    obtain ⟨i, hi⟩ := Option.ne_none_iff_exists'.mp (hf e b hfe)
    have hlt := lt_of_mem_history h he hi
    have hzero : i = 0 := by omega
    simp [hi, hzero]

end Pool
end PacedJobs
