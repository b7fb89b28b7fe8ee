import PacedJobs.Proofs.Session.Interleaving
import PacedJobs.Proofs.Session.Transcript

/-!
# Acknowledgements and results

The results of a session are foretold by its replies, however the pool moves on between them: a job
has been dropped if a reply has reported it as cancelled, and otherwise its result is the echo of
its payload.
-/

namespace PacedJobs

/-- A job that a session has submitted. -/
structure Submission where
  id : JobId
  payload : Json
  priority : UInt16

namespace Exchange

def submission? : Exchange → Option Submission
  | (.ok (.submit payload priority _), .submitted id) => some ⟨id, payload, priority⟩
  | _ => none

theorem submissions_concat {x : Exchange} (hx : x.submission? = none) (exchanges : List Exchange) :
    (exchanges ++ [x]).filterMap submission? = exchanges.filterMap submission? := by
  rw [List.filterMap_append, List.filterMap_cons_none hx, List.filterMap_nil, List.append_nil]

def cancelled : Exchange → List JobId
  | (_, .cancelled id true) => [id]
  | (_, .cancelledBelow _ ids) => ids
  | _ => []

end Exchange

namespace Submission

def dropped (s : Submission) : Reply :=
  .result s.id none (some ("job " ++ s.id.text ++ " was dropped before it produced a result"))

/-- The result of a job that a worker has executed. A member `fail` of the payload is the reason of
a failure, as it stands if it is a string and else as a compact document. -/
def echoed (s : Submission) (worker : Nat) : Reply :=
  match s.payload.member? "fail" with
  | some reason =>
    .result s.id none (some ("worker " ++ toString worker ++ " failed to echo payload for job " ++
      s.id.text ++ ": " ++ reason.text?.getD reason.text))
  | none =>
    .result s.id (some (.object [("echo", s.payload), ("priority", .integer s.priority.toNat),
      ("worker", .integer worker)])) none

/-- A receipt is for the work of a submission, and its ticket is not among the first. -/
def Covered (since : Nat) (p : Pool Json Json) (s : Submission) (receipt : Receipt) : Prop :=
  receipt.id = s.id ∧ ∃ w, .work w ∈ p.arrivals ∧ w.id = s.id ∧ w.payload = s.payload ∧
    w.priority = s.priority ∧ w.ticket = receipt.ticket ∧ since ≤ w.ticket

theorem covered_of_step {p q : Pool Json Json} {l : Label Json Json} (hq : p.step l = some q)
    {since : Nat} {s : Submission} {receipt : Receipt} (h : s.Covered since p receipt) :
    s.Covered since q receipt := by
  obtain ⟨hid, w, hw, hwork⟩ := h
  obtain ⟨es, hes⟩ := (Pool.move_of_step hq).exists_history_eq
  refine ⟨hid, w, ?_, hwork⟩
  rw [Pool.arrivals, hes, List.flatMap_append]
  exact List.mem_append_right _ hw

theorem covered_of_submit {p q : Pool Json Json} {id : JobId} {priority : UInt16}
    {submittedAt : Nat} {taskCount : UInt32} (payload : Json)
    (hq : p.step (.submit id priority submittedAt taskCount payload) = some q) {since : Nat}
    (hsince : since ≤ p.tickets.length) :
    Covered since q ⟨id, payload, priority⟩ ⟨id, p.tickets.length⟩ := by
  refine ⟨rfl, .ofTaskCount id priority submittedAt taskCount payload p.tickets.length, ?_,
    Work.id_ofTaskCount .., Work.payload_ofTaskCount .., Work.priority_ofTaskCount ..,
    Work.ticket_ofTaskCount .., ?_⟩
  · cases Pool.move_of_step hq with
    | refuse w hw hclosed => exact hw ▸ List.mem_cons_self
    | accept w hw hopen => exact hw ▸ List.mem_cons_self
  · rwa [Work.ticket_ofTaskCount]

theorem covered_concat {p q : Pool Json Json} {id : JobId} {payload : Json} {priority : UInt16}
    {submittedAt : Nat} {taskCount : UInt32} {since : Nat} {receipts : List Receipt}
    {exchanges : List Exchange}
    (hq : p.step (.submit id priority submittedAt taskCount payload) = some q)
    (hsince : since ≤ p.tickets.length)
    (h : List.Forall₂ (Covered since p) (exchanges.filterMap Exchange.submission?) receipts) :
    List.Forall₂ (Covered since q)
      ((exchanges ++ [((.ok (.submit payload priority taskCount), .submitted id) :
        Exchange)]).filterMap Exchange.submission?)
      (receipts ++ [⟨id, p.tickets.length⟩]) := by
  rw [List.filterMap_append]
  exact List.rel_append (h.imp fun _ _ => covered_of_step hq)
    (.cons (covered_of_submit payload hq hsince) .nil)

theorem dropped_ne_echoed (s : Submission) (worker : Nat) : s.echoed worker ≠ s.dropped := by
  unfold echoed dropped
  split
  · intro h
    simp only [Reply.result.injEq, Option.some.injEq, true_and] at h
    have hchars := congrArg (fun text : String => text.toList.head?) h
    simp [String.toList_append] at hchars
  · intro h
    simp at h

end Submission

/-- Where a pool can get that one session has for itself. -/
structure Engaged (c : Config) (p₀ p : Pool Json Json) : Prop where
  reached : ∃ ls, (Pool.start c Transport.echo.operation).run? ls = some p
  served : p.Served Transport.echo p₀.tickets.length
  older : ∃ js, p.arrivals = js ++ p₀.arrivals
  tickets : p₀.tickets.length ≤ p.tickets.length

namespace Engaged

variable {c : Config} {p₀ p q : Pool Json Json} {l : Label Json Json}

theorem sound (h : Engaged c p₀ p) : p.Sound := by
  obtain ⟨ls, hrun⟩ := h.reached
  exact Pool.sound_of_run hrun

theorem step (h : Engaged c p₀ p) (hl : l.Serves Transport.echo p) (hq : p.step l = some q) :
    Engaged c p₀ q where
  reached := by
    obtain ⟨ls, hrun⟩ := h.reached
    refine ⟨ls ++ [l], Pool.run?_append.mpr ⟨p, hrun, ?_⟩⟩
    exact Pool.run?_cons.mpr ⟨q, hq, rfl⟩
  served := h.served.move h.sound (Pool.move_of_step hq) hl
  older := by
    obtain ⟨js, hjs⟩ := h.older
    obtain ⟨es, hes⟩ := (Pool.move_of_step hq).exists_history_eq
    refine ⟨es.flatMap Event.arrivals ++ js, ?_⟩
    rw [List.append_assoc, ← hjs, Pool.arrivals, hes, List.flatMap_append]
    rfl
  tickets := h.tickets.trans (Pool.move_of_step hq).length_tickets_le

theorem not_cancelled_before (h : Engaged c p₀ p) (hsound : p₀.Sound)
    (hnames : (p.arrivals.map Job.id).Nodup) {w : Work Json} (hw : .work w ∈ p.arrivals)
    (hsince : p₀.tickets.length ≤ w.ticket) : w.id ∉ p₀.cancellations.map Job.id := by
  intro hmem
  obtain ⟨j, hj, hid⟩ := List.mem_map.mp hmem
  have hbefore : j ∈ p₀.arrivals := hsound.departures_subset (p₀.cancellations_subset hj)
  obtain ⟨js, hjs⟩ := h.older
  have hj : j ∈ p.arrivals := hjs ▸ List.mem_append_right _ hbefore
  have heq : j = .work w := List.inj_on_of_nodup_map hnames hj hw hid
  subst heq
  obtain ⟨t, ht, -⟩ := hsound.matched.named w hbefore
  exact Nat.not_lt.mpr hsince (List.getElem?_eq_some_iff.mp ht).1

end Engaged

/-- What receipts and replies tell of a pool that one session has for itself. -/
structure Tracks (c : Config) (p₀ p : Pool Json Json) (receipts : List Receipt)
    (exchanges : List Exchange) : Prop where
  engaged : Engaged c p₀ p
  submissions : List.Forall₂ (Submission.Covered p₀.tickets.length p)
    (exchanges.filterMap Exchange.submission?) receipts
  cancelled : (p.cancellations.map Job.id).Perm
    (p₀.cancellations.map Job.id ++ exchanges.flatMap Exchange.cancelled)

namespace Tracks

variable {c : Config} {p₀ p q : Pool Json Json} {l : Label Json Json} {receipts : List Receipt}
  {exchanges : List Exchange}

theorem exchange (h : Tracks c p₀ p receipts exchanges) (hl : l.Serves Transport.echo p)
    (hq : p.step l = some q) (x : Exchange) (hx : x.submission? = none)
    (hcancelled : x.cancelled = p.reported l) : Tracks c p₀ q receipts (exchanges ++ [x]) where
  engaged := h.engaged.step hl hq
  submissions := by
    rw [Exchange.submissions_concat hx]
    exact h.submissions.imp fun _ _ => Submission.covered_of_step hq
  cancelled := by
    rw [Pool.cancellations_of_move (Pool.move_of_step hq), List.flatMap_append, ← List.append_assoc]
    simp only [List.flatMap_cons, List.flatMap_nil, List.append_nil, hcancelled]
    exact List.perm_append_comm.trans (h.cancelled.append_right _)

theorem quiet (h : Tracks c p₀ p receipts exchanges) (hl : l.Serves Transport.echo p)
    (hq : p.step l = some q) (hreported : p.reported l = []) :
    Tracks c p₀ q receipts exchanges where
  engaged := h.engaged.step hl hq
  submissions := h.submissions.imp fun _ _ => Submission.covered_of_step hq
  cancelled := by
    rw [Pool.cancellations_of_move (Pool.move_of_step hq), hreported, List.nil_append]
    exact h.cancelled

theorem drifts (h : Tracks c p₀ p receipts exchanges) (ds : List Drift) :
    Tracks c p₀ (p.drifts Transport.echo ds) receipts exchanges := by
  induction ds generalizing p with
  | nil => exact h
  | cons d ds ih =>
    have hone : Tracks c p₀ (p.drift Transport.echo d) receipts exchanges := by
      refine Pool.drift_induction (I := fun q => Tracks c p₀ q receipts exchanges) h ?_
      intro l q hl hserves hq
      exact h.quiet hserves hq (by cases l <;> first | rfl | cases hl)
    exact ih hone

theorem goOn (h : Tracks c p₀ p receipts exchanges) (k : Nat) (names : Nat → JobId) :
    Tracks c p₀ (p.goOn k names) receipts exchanges := by
  rcases p.goOn_cases k names with heq | ⟨ids, hq⟩
  · rwa [heq]
  · exact h.quiet (l := .resume k ids) trivial hq rfl

theorem cancel (h : Tracks c p₀ p receipts exchanges) (id : JobId) :
    Tracks c p₀ (p.cancel id).2 receipts
      (exchanges ++ [(.ok (.cancel id), .cancelled id (p.cancel id).1)]) := by
  refine h.exchange (l := .cancel id) trivial rfl _ rfl ?_
  have hreported : p.reported (.cancel id) = if (p.cancel id).1 then [id] else [] := rfl
  rw [hreported]
  cases (p.cancel id).1 <;> rfl

theorem cancelBelow (h : Tracks c p₀ p receipts exchanges) (priority : UInt16) :
    Tracks c p₀ (p.cancelBelow priority).2 receipts
      (exchanges ++ [(.ok (.cancelBelow priority),
        .cancelledBelow priority ((p.cancelBelow priority).1.map Job.id))]) :=
  h.exchange
    (l := .cancelWhere (Judge.ofPredicate fun v => !v.isPlaceholder && v.priority < priority))
    trivial rfl _ rfl rfl

theorem refuse (h : Tracks c p₀ p receipts exchanges) (line : UInt64) (refusal : Json.Refusal) :
    Tracks c p₀ p receipts (exchanges ++ [(.error refusal, .rejected line refusal.message)]) where
  engaged := h.engaged
  submissions := by
    rw [Exchange.submissions_concat rfl]
    exact h.submissions
  cancelled := by simpa [Exchange.cancelled] using h.cancelled

theorem submit (h : Tracks c p₀ p receipts exchanges) (id : JobId) (payload : Json)
    (priority : UInt16) (taskCount : UInt32) {submittedAt : Nat} (htime : submittedAt ≤ p.now) :
    Tracks c p₀ (p.submit id priority submittedAt taskCount payload)
      (receipts ++ [⟨id, p.tickets.length⟩])
      (exchanges ++ [(.ok (.submit payload priority taskCount), .submitted id)]) := by
  have hq : p.step (.submit id priority submittedAt taskCount payload) =
      some (p.submit id priority submittedAt taskCount payload) := if_pos htime
  have hquiet := h.quiet (l := .submit id priority submittedAt taskCount payload) trivial hq rfl
  exact ⟨hquiet.engaged, Submission.covered_concat hq h.engaged.tickets h.submissions,
    by simpa [Exchange.cancelled] using hquiet.cancelled⟩

end Tracks

theorem kept_desk (c : Config) (p₀ : Pool Json Json) (script : Script) :
    Session.Kept (script.desk Transport.echo) fun s => Tracks c p₀ s.pool where
  submit payload priority taskCount h :=
    (((h.drifts _).submit _ payload priority taskCount (Nat.min_le_right _ _)).drifts _).goOn _ _
  cancel id h := (h.drifts _).cancel id
  cancelBelow priority h := (h.drifts _).cancelBelow priority
  refuse line refusal h := h.refuse line refusal

theorem resultReply_dropped {s : Submission} {receipt : Receipt} (hid : receipt.id = s.id) :
    Session.resultReply (ω := Json) .ok receipt (.error (.dropped s.id)) = s.dropped := by
  simp [Session.resultReply, Submission.dropped, JobError.failure, JobError.message,
    Failure.ofMessage, Failure.text, Failure.chain, hid]

theorem text_transport (worker : Nat) (id : JobId) (operation reason : String) :
    (JobError.transport worker id operation (.ofMessage reason)).failure.text =
      "worker " ++ toString worker ++ " failed to " ++ operation ++ " for job " ++ id.text ++
        ": " ++ reason := by
  simp [JobError.failure, Failure.text, Failure.within, Failure.chain, Failure.ofMessage,
    JobError.message]

theorem resultReply_echoed {s : Submission} {receipt : Receipt} (hid : receipt.id = s.id)
    {w : Work Json} (hw : w.id = s.id) (hpayload : w.payload = s.payload)
    (hpriority : w.priority = s.priority) (i : Nat) :
    Session.resultReply .ok receipt ((Transport.echo.reply i w).mapError fun f =>
      .transport i w.id Transport.echo.operation f) = s.echoed i := by
  have herror : ∀ reason, Session.resultReply (ω := Json) .ok receipt
      (.error (.transport i w.id Transport.echo.operation (.ofMessage reason))) =
        .result s.id none (some ("worker " ++ toString i ++ " failed to echo payload for job " ++
          s.id.text ++ ": " ++ reason)) := by
    intro reason
    rw [Session.resultReply, text_transport, hid, hw]
    simp [Transport.echo, String.append_assoc]
  unfold Transport.reply Submission.echoed
  cases hfail : s.payload.member? "fail" with
  | none =>
    simp [Transport.echo, hpayload, hfail, Except.mapError, Session.resultReply, hid, hpriority]
  | some reason =>
    cases reason <;> simp only [Transport.echo, hpayload, hfail, Except.mapError] <;>
      exact herror _

/-- A result is what the reported cancellations have led to expect. -/
structure Foretold (workers : Nat) (cancelled : List JobId) (s : Submission) (r : Reply) :
    Prop where
  dropped_iff : r = s.dropped ↔ s.id ∈ cancelled
  echoed : s.id ∉ cancelled → ∃ worker < workers, r = s.echoed worker

/-- A ticket that has been resolved shows what the replies have foretold. -/
theorem Tracks.foretold {c : Config} {p₀ p : Pool Json Json} {receipts : List Receipt}
    {exchanges : List Exchange} (h : Tracks c p₀ p receipts exchanges) (hsound : p₀.Sound)
    (hnames : (p.arrivals.map Job.id).Nodup) (htime : p.now + c.timeSlice < endOfTime)
    {s : Submission} {receipt : Receipt} (hcovered : s.Covered p₀.tickets.length p receipt)
    (hresolved : p.isResolved receipt.ticket = true) :
    Foretold (max c.workers 1) (exchanges.flatMap Exchange.cancelled) s
      (Session.resultReply .ok receipt
        (((p.tickets[receipt.ticket]?).bind Ticket.reading?).getD
          (.error (.dropped receipt.id)))) := by
  obtain ⟨hid, w, hw, hwid, hpayload, hpriority, hticket, hsince⟩ := hcovered
  obtain ⟨ls, hrun⟩ := h.engaged.reached
  have hcancelled : w.id ∈ p.cancellations.map Job.id ↔
      s.id ∈ exchanges.flatMap Exchange.cancelled := by
    rw [h.cancelled.mem_iff, List.mem_append, ← hwid]
    exact or_iff_right (h.engaged.not_cancelled_before hsound hnames hw hsince)
  obtain ⟨t, ht, -⟩ := h.engaged.sound.matched.named w hw
  have hlt : receipt.ticket < p.tickets.length := hticket ▸ (List.getElem?_eq_some_iff.mp ht).1
  obtain ⟨r, hr⟩ : ∃ r, (p.tickets[receipt.ticket]?).bind Ticket.reading? = some r := by
    refine Option.isSome_iff_exists.mp ?_
    simpa [Pool.isResolved, Nat.not_le.mpr hlt] using hresolved
  have hreading := h.engaged.served.reading h.engaged.sound (.of_run hrun)
    (Pool.whole_of_run hrun h.engaged.served.quiet htime) hnames hw hsince (hticket ▸ hr)
  rw [hr, Option.getD_some]
  rcases hreading with ⟨hmem, rfl⟩ | ⟨hnot, i, hcalled, rfl⟩
  · rw [hwid, resultReply_dropped hid]
    exact ⟨iff_of_true rfl (hcancelled.mp hmem), fun hn => absurd (hcancelled.mp hmem) hn⟩
  · rw [resultReply_echoed hid hwid hpayload hpriority]
    rw [hcancelled] at hnot
    exact ⟨iff_of_false (s.dropped_ne_echoed i) hnot,
      fun _ => ⟨i, Pool.called_lt_of_run hrun hcalled, rfl⟩⟩

/-- The replies of a session and its results agree. -/
structure Agrees (workers : Nat) (exchanges : List Exchange) (results : List Reply) : Prop where
  fits : ∀ x ∈ exchanges, x.Fits
  once : (exchanges.flatMap Exchange.cancelled).Nodup
  /-- There is one result for each submission, in their order. -/
  results : List.Forall₂ (Foretold workers (exchanges.flatMap Exchange.cancelled))
    (exchanges.filterMap Exchange.submission?) results

/-- A session over a text answers each line that is not blank, and then reports what the answers
have foretold, whatever the script says about the steps in between. -/
theorem agrees_of_finished {c : Config} {ls : List (Label Json Json)} {p₀ : Pool Json Json}
    (hrun : (Pool.start c Transport.echo.operation).run? ls = some p₀)
    (hopen : p₀.triggered = false) (hidle : ∀ call ∈ p₀.calls, call = .returned) (script : Script)
    (text : String) {s : Session (Scripted Json)}
    (hs : s = Session.run (script.desk Transport.echo) { desk := ⟨p₀, 0⟩ } .ok
      text.toByteArray.data.toList)
    (hfinished : ∀ receipt ∈ s.receipts, s.desk.pool.isResolved receipt.ticket = true)
    (hnames : (s.desk.pool.arrivals.map Job.id).Nodup)
    (htime : s.desk.pool.now + c.timeSlice < endOfTime) :
    s.failure = none ∧ ∃ exchanges results,
      s.sink.text = Reply.lines (exchanges.map Prod.snd ++ results) ∧
        exchanges.map Prod.fst = (Session.texts (Lines.ofText text.toList)).map Action.read ∧
          Agrees (max c.workers 1) exchanges results := by
  have hsound : p₀.Sound := Pool.sound_of_run hrun
  have hstart : Tracks c p₀ p₀ [] [] :=
    ⟨⟨⟨ls, hrun⟩, .of_idle hsound (.of_run hrun) hopen hidle, ⟨[], rfl⟩, le_rfl⟩, .nil, by simp⟩
  obtain ⟨hworking, t, exchanges, hanswered, htext, hdesk, hreceipts⟩ :=
    (kept_desk c p₀ script).run (s := { desk := ⟨p₀, 0⟩ }) ⟨rfl, rfl⟩ rfl hstart .ok text
  rw [← hs] at hworking htext hdesk hreceipts
  have htracks : Tracks c p₀ s.desk.pool s.receipts exchanges := by
    rw [hdesk, hreceipts]
    exact hanswered.kept.drifts _
  refine ⟨hworking.failure, exchanges, t.results (script.desk Transport.echo) .ok, htext,
    hanswered.read_eq, hanswered.fits, ?_, ?_⟩
  · have hgone := htracks.engaged.sound.gone_nodup hnames
    rw [List.map_append] at hgone
    have hboth := htracks.cancelled.nodup_iff.mp hgone.of_append_left
    exact hboth.of_append_right
  · rw [Session.results, List.forall₂_map_right_iff, ← hdesk, ← hreceipts]
    obtain ⟨hlength, hcovered⟩ := List.forall₂_iff_zip.mp htracks.submissions
    refine List.forall₂_iff_zip.mpr ⟨hlength, ?_⟩
    intro submission receipt hmem
    exact htracks.foretold hsound hnames htime (hcovered hmem)
      (hfinished receipt (List.of_mem_zip hmem).2)

/-- Two jobs are submitted, and the second one is cancelled. -/
def submitAndCancel : String :=
  String.ofList ([Action.submit (.string "a") 3 1, .submit .null 0 1, .cancel ⟨2⟩].flatMap
    fun a => a.write ++ ['\n'])

/-- Nobody moves before the input has ended. Then a worker receives a job and executes it. -/
def executeAtEnd : Script := fun n =>
  { before :=
      if n = 3 then
        [.coordinate, .coordinate, .coordinate, .work 0 [], .work 0 [], .handOver 0, .work 0 [],
          .work 0 [], .work 0 [], .answer 0, .work 0 []]
      else []
    between := []
    id := ⟨UInt64.ofNat (n + 1)⟩
    submittedAt := 0
    names := fun _ => ⟨0⟩ }

def submitAndCancelSession : Session (Scripted Json) :=
  Session.run (executeAtEnd.desk Transport.echo)
    { desk := ⟨Pool.start { workers := 1 } Transport.echo.operation, 0⟩ } .ok
    submitAndCancel.toByteArray.data.toList

theorem agrees_submitAndCancel :
    (∀ receipt ∈ submitAndCancelSession.receipts,
      submitAndCancelSession.desk.pool.isResolved receipt.ticket = true) ∧
    (submitAndCancelSession.desk.pool.arrivals.map Job.id).Nodup ∧
    submitAndCancelSession.desk.pool.now + ({ workers := 1 } : Config).timeSlice < endOfTime ∧
    ∃ exchanges results,
      submitAndCancelSession.sink.text = Reply.lines (exchanges.map Prod.snd ++ results) ∧
        exchanges.map Prod.fst =
          (Session.texts (Lines.ofText submitAndCancel.toList)).map Action.read ∧
        Agrees 1 exchanges results := by
  have hrun : (Pool.start { workers := 1 } Transport.echo.operation : Pool Json Json).run? [] =
      some (Pool.start { workers := 1 } Transport.echo.operation) := rfl
  have hfinished : ∀ receipt ∈ submitAndCancelSession.receipts,
      submitAndCancelSession.desk.pool.isResolved receipt.ticket = true := by decide +kernel
  have hnames : (submitAndCancelSession.desk.pool.arrivals.map Job.id).Nodup := by decide +kernel
  have htime : submitAndCancelSession.desk.pool.now + ({ workers := 1 } : Config).timeSlice <
      endOfTime := by decide +kernel
  exact ⟨hfinished, hnames, htime, (agrees_of_finished hrun rfl (by simp [Pool.start]) executeAtEnd
    submitAndCancel (s := submitAndCancelSession) rfl hfinished hnames htime).2⟩

end PacedJobs
