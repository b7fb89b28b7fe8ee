import PacedJobs.Proofs.Pool.Served
import PacedJobs.Session.PoolDesk

/-!
# Sessions over a pool that moves on

Around the requests of a session the coordinator, the workers, the transport and the clock take any
steps. A script says which, and which names are given out. Steps that are not possible are passed
over, so every script can be followed, and every interleaving follows one.
-/

namespace PacedJobs

variable {π ω : Type}

/-- A step that no client takes. The transport answers by itself. -/
inductive Drift where
  | coordinate
  | rouse
  | work (worker : Nat) (ids : List JobId)
  | handOver (worker : Nat)
  | answer (worker : Nat)
  | rouseWorker (worker : Nat)
  | elapse (time : Nat)

def Drift.label? (t : Transport π ω) (p : Pool π ω) : Drift → Option (Label π ω)
  | coordinate => some .coordinate
  | rouse => some .rouse
  | work i ids => some (.work i ids)
  | handOver i => some (.handOver i)
  | answer i =>
    match p.workers[i]? with
    | some (.executing w _) => some (.answer i (t.reply i w))
    | _ => none
  | rouseWorker i => some (.rouseWorker i)
  | elapse time => some (.elapse time)

namespace Pool

def drift (t : Transport π ω) (p : Pool π ω) (d : Drift) : Pool π ω :=
  ((d.label? t p).bind p.step).getD p

def drifts (t : Transport π ω) (p : Pool π ω) (ds : List Drift) : Pool π ω :=
  ds.foldl (drift t) p

def namesFor (p : Pool π ω) (k : Nat) (names : Nat → JobId) : List JobId :=
  match p.calls[k]? with
  | some (.reserving count) => (List.range count).map names
  | _ => []

/-- A client's call goes on, if it has not returned. -/
def goOn (p : Pool π ω) (k : Nat) (names : Nat → JobId) : Pool π ω :=
  (p.resume? k (p.namesFor k names)).getD p

end Pool

/-- What happens around a request: the steps before it, those between its two halves, if it has two,
and the names and the time that it takes. -/
structure Turn where
  before : List Drift
  between : List Drift
  id : JobId
  submittedAt : Nat
  names : Nat → JobId

/-- What happens around each request of a session, in their order. -/
abbrev Script := Nat → Turn

/-- A pool and the number of requests that it has taken. -/
structure Scripted (ω : Type) where
  pool : Pool Json ω
  turn : Nat

/-- A desk over a pool that moves on as the script says. -/
def Script.desk {ω : Type} (script : Script) (t : Transport Json ω) : Desk (Scripted ω) ω where
  submit s payload priority taskCount :=
    let turn := script s.turn
    let p := s.pool.drifts t turn.before
    let q := p.submit turn.id priority (min turn.submittedAt p.now) taskCount payload
    let q := (q.drifts t turn.between).goOn p.calls.length turn.names
    (⟨turn.id, p.tickets.length⟩, ⟨q, s.turn + 1⟩)
  cancel s id :=
    let (removed, q) := (s.pool.drifts t (script s.turn).before).cancel id
    (removed, ⟨q, s.turn + 1⟩)
  cancelBelow s priority :=
    let (jobs, q) := (s.pool.drifts t (script s.turn).before).cancelBelow priority
    (jobs.map Job.id, ⟨q, s.turn + 1⟩)
  await s _ := ⟨s.pool.drifts t (script s.turn).before, s.turn + 1⟩
  result s receipt :=
    ((s.pool.tickets[receipt.ticket]?).bind Ticket.reading?).getD (.error (.dropped receipt.id))

def Label.isDrift : Label π ω → Bool
  | coordinate | rouse | work _ _ | handOver _ | answer _ _ | rouseWorker _ | elapse _ => true
  | _ => false

theorem Drift.isDrift_of_label? {t : Transport π ω} {p : Pool π ω} {d : Drift} {l : Label π ω}
    (h : d.label? t p = some l) : l.isDrift = true ∧ l.Serves t p := by
  cases d with
  | answer i =>
    simp only [label?] at h
    split at h
    next w began hat =>
      cases h
      refine ⟨rfl, ?_⟩
      intro w' began' hat'
      cases hat.symm.trans hat'
      rfl
    next => cases h
  | _ =>
    cases h
    exact ⟨rfl, trivial⟩

namespace Pool

variable {t : Transport π ω} {p q : Pool π ω}

/-- A run that no client takes part in. -/
inductive Drifting (t : Transport π ω) : Pool π ω → Pool π ω → Prop
  | refl (p : Pool π ω) : Drifting t p p
  | step {p q r : Pool π ω} {l : Label π ω} (hl : l.isDrift = true) (hserves : l.Serves t p)
      (h : p.step l = some q) (hrest : Drifting t q r) : Drifting t p r

theorem exists_drift {l : Label π ω} (hl : l.isDrift = true) (hserves : l.Serves t p)
    (h : p.step l = some q) : ∃ d, p.drift t d = q := by
  have hlabel : ∃ d : Drift, d.label? t p = some l := by
    cases l with
    | coordinate => exact ⟨.coordinate, rfl⟩
    | rouse => exact ⟨.rouse, rfl⟩
    | work i ids => exact ⟨.work i ids, rfl⟩
    | handOver i => exact ⟨.handOver i, rfl⟩
    | rouseWorker i => exact ⟨.rouseWorker i, rfl⟩
    | elapse time => exact ⟨.elapse time, rfl⟩
    | answer i x =>
      cases move_of_step h with
      | @answer i w began x hat =>
        exact ⟨.answer i, by rw [Drift.label?, hat, hserves w began hat]⟩
    | _ => cases hl
  obtain ⟨d, hd⟩ := hlabel
  exact ⟨d, by rw [drift, hd, Option.bind_some, h, Option.getD_some]⟩

theorem drift_induction {I : Pool π ω → Prop} {d : Drift} (hp : I p)
    (hstep : ∀ {l q}, l.isDrift = true → l.Serves t p → p.step l = some q → I q) :
    I (p.drift t d) := by
  unfold drift
  cases hlabel : d.label? t p with
  | none => exact hp
  | some l =>
    rw [Option.bind_some]
    cases hq : p.step l with
    | none => exact hp
    | some q =>
      obtain ⟨hl, hserves⟩ := Drift.isDrift_of_label? hlabel
      exact hstep hl hserves hq

/-- A script can have a pool drift to wherever it can get without a client. -/
theorem drifting_iff : Drifting t p q ↔ ∃ ds, p.drifts t ds = q := by
  constructor
  · intro h
    induction h with
    | refl p => exact ⟨[], rfl⟩
    | step hl hserves h hrest ih =>
      obtain ⟨d, rfl⟩ := exists_drift hl hserves h
      obtain ⟨ds, rfl⟩ := ih
      exact ⟨d :: ds, rfl⟩
  · rintro ⟨ds, rfl⟩
    induction ds generalizing p with
    | nil => exact .refl p
    | cons d ds ih =>
      have hrest : Drifting t (p.drift t d) (p.drifts t (d :: ds)) := ih
      refine drift_induction (I := fun q => Drifting t q _ → Drifting t p _) id ?_ hrest
      intro l q hl hserves h hrest
      exact .step hl hserves h hrest

theorem goOn_cases (p : Pool π ω) (k : Nat) (names : Nat → JobId) :
    p.goOn k names = p ∨ ∃ ids, p.step (.resume k ids) = some (p.goOn k names) := by
  unfold goOn
  cases hq : p.resume? k (p.namesFor k names) with
  | none => exact .inl rfl
  | some q => exact .inr ⟨_, hq⟩

end Pool
end PacedJobs
