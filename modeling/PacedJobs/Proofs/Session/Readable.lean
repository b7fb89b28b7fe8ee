import PacedJobs.Proofs.Reply.RoundTrip
import PacedJobs.Proofs.Session.Surroundings

/-!
# The output of a session, read again

All that a session writes are replies, and the reader of replies gets them back, but for one case. A
result stands in a bracket of its own, and an echo puts its payload in one more, while an action has
put it in one only. So a payload with as many brackets as an action may hold is accepted, and its
echo is a line that is refused.
-/

namespace PacedJobs

open Json

theorem Exchange.Fits.ofValue {x : Exchange} (h : x.Fits) (P : Json → Prop) : x.2.OfValue P := by
  obtain ⟨a, r⟩ := x
  cases r with
  | result id ok error => cases a with
    | error refusal => cases h
    | ok a => cases a <;> cases h
  | _ => trivial

theorem Exchange.Fits.read_write {x : Exchange} (h : x.Fits) :
    Reply.read x.2.write = .ok x.2 := by
  rw [Reply.read_write (h.ofValue Storable), Reply.withoutNull_eq (h.ofValue (· ≠ .null))]

theorem Reply.read_write_error (id : JobId) (message : String) :
    read (result id none (some message)).write = .ok (result id none (some message)) :=
  read_write (r := result id none (some message)) trivial

namespace Submission

variable {s : Submission} {i : Nat}

/-- What a worker makes of the payload. -/
def echo (s : Submission) (worker : Nat) : Json :=
  .object [("echo", s.payload), ("priority", .integer s.priority.toNat),
    ("worker", .integer worker)]

theorem echoed_eq (h : s.payload.member? "fail" = none) (i : Nat) :
    s.echoed i = .result s.id (some (s.echo i)) none := by
  simp [echoed, h, echo]

theorem ordered_echo (h : s.payload.Ordered) (i : Nat) : (s.echo i).Ordered := by
  refine ⟨?_, h, trivial, trivial, trivial⟩
  have hkeys : ["echo", "priority", "worker"].Pairwise (· < ·) := by decide
  exact List.pairwise_map.mp hkeys

theorem integral_echo (h : s.payload.Integral) (hi : i < 18446744073709551616) :
    (s.echo i).Integral := by
  have hpriority := s.priority.toNat_lt
  exact ⟨trivial, h, Action.fits_of_lt (by omega), Action.fits_of_lt hi, trivial⟩

theorem depth_echo (s : Submission) (i : Nat) : (s.echo i).depth = s.payload.depth + 1 := by
  simp [echo, depth, membersDepth]

/-- An echo is read as itself or not at all. The payload may have one bracket less than in the
action that brought it. -/
theorem read_echoed_eq_ok_iff (h : s.payload.Storable) (hfail : s.payload.member? "fail" = none)
    (hi : i < 18446744073709551616) {x : Reply} :
    Reply.read (s.echoed i).write = .ok x ↔ x = s.echoed i ∧ s.payload.depth ≤ 125 := by
  have hdepth : (s.echo i).depth ≤ 126 ↔ s.payload.depth ≤ 125 := by
    rw [depth_echo, Nat.succ_le_succ_iff]
  have hpresent : (Reply.result s.id (some (s.echo i)) none).OfValue (· ≠ .null) :=
    Json.noConfusion
  rw [echoed_eq hfail, Reply.read_write_eq_ok_iff (r := .result s.id (some (s.echo i)) none)
    (ordered_echo h.ordered i) (integral_echo h.integral hi), Reply.withoutNull_eq hpresent]
  exact and_congr_right fun _ => hdepth

/-- What the line of a result is read as. -/
inductive Recovered (workers : Nat) (s : Submission) (r : Reply) : Prop
  | error (message : String) (hr : r = .result s.id none (some message))
      (hread : Reply.read r.write = .ok r)
  | echoed (worker : Nat) (hworker : worker < workers) (hfail : s.payload.member? "fail" = none)
      (hr : r = s.echoed worker)
      (hread : ∀ x, Reply.read r.write = .ok x ↔ x = r ∧ s.payload.depth ≤ 125)

theorem Recovered.of_error (workers : Nat) {receipt : Receipt} (hid : receipt.id = s.id)
    (e : JobError) :
    s.Recovered workers (Session.resultReply (ω := Json) .ok receipt (.error e)) :=
  .error e.failure.text (by rw [Session.resultReply, hid]) (Reply.read_write_error _ _)

end Submission

theorem Transport.reply_echo_eq_ok {i : Nat} {w : Work Json} {v : Json}
    (h : echo.reply i w = .ok v) :
    w.payload.member? "fail" = none ∧
      v = .object [("echo", w.payload), ("priority", .integer w.priority.toNat),
        ("worker", .integer i)] := by
  simp only [reply, echo] at h
  split at h
  next => cases h
  next => cases h
  next hfail => exact ⟨hfail, (Except.ok.inj h).symm⟩

/-- Whatever a ticket shows, its result is read back or is an echo with too many brackets. -/
theorem Attends.recovered {c : Config} {p : Pool Json Json} {receipts : List Receipt}
    {exchanges : List Exchange} (h : Attends c p receipts exchanges)
    (hworkers : c.workers ≤ 18446744073709551616) {s : Submission} {receipt : Receipt}
    (hcovered : s.Covered 0 p receipt) (hpayload : s.payload.Storable) :
    s.Recovered (max c.workers 1) (Session.resultReply .ok receipt
      (((p.tickets[receipt.ticket]?).bind Ticket.reading?).getD
        (.error (.dropped receipt.id)))) := by
  obtain ⟨hid, w, hw, -, hwpayload, hwpriority, hticket, -⟩ := hcovered
  cases hread : (p.tickets[receipt.ticket]?).bind Ticket.reading? with
  | none => exact .of_error _ hid _
  | some result =>
    rw [Option.getD_some]
    cases result with
    | error e => exact .of_error _ hid e
    | ok v =>
      obtain ⟨i, hi, hreply⟩ := h.reached.reply_eq_ok hw (hticket ▸ hread)
      obtain ⟨hfail, hv⟩ := Transport.reply_echo_eq_ok hreply
      rw [hwpayload] at hfail
      have hr : Session.resultReply .ok receipt (.ok v) = s.echoed i := by
        rw [Submission.echoed_eq hfail, Submission.echo, Session.resultReply, hv, hid, hwpayload,
          hwpriority]
      rw [hr]
      exact .echoed i hi hfail rfl fun x =>
        Submission.read_echoed_eq_ok_iff hpayload hfail (by omega)

namespace Session

theorem storable_of_submission {texts : List (List Char)} {exchanges : List Exchange}
    (hread : exchanges.map Prod.fst = texts.map Action.read)
    (hintegral : ∀ a, .ok a ∈ texts.map Action.read → a.OfPayload Integral) {s : Submission}
    (hs : s ∈ exchanges.filterMap Exchange.submission?) : s.payload.Storable := by
  obtain ⟨⟨a, r⟩, hx, hsubmission⟩ := List.mem_filterMap.mp hs
  have ha : a ∈ texts.map Action.read := hread ▸ List.mem_map_of_mem hx
  unfold Exchange.submission? at hsubmission
  split at hsubmission
  next payload priority taskCount id heq =>
    cases heq
    cases hsubmission
    obtain ⟨text, -, htext⟩ := List.mem_map.mp ha
    exact Action.storable_of_read htext (hintegral _ ha)
  next => cases hsubmission

/-- Each line that a session writes is read as the reply that it was, whatever goes on in the pool,
but for an echo of a payload with as many brackets as an action may hold. The numbers of workers are
machine words, and those in payloads integers. -/
theorem recovered_of_run {c : Config} (hworkers : c.workers ≤ 18446744073709551616)
    {p₀ : Pool Json Json}
    (h₀ : Pool.Reaches Transport.echo (Pool.start c Transport.echo.operation) p₀)
    (e : Surroundings Transport.echo) (text : String)
    (hintegral : ∀ a, .ok a ∈ (texts (Lines.ofText text.toList)).map Action.read →
      a.OfPayload Integral) :
    ∃ (exchanges : List Exchange) (results : List Reply),
      (run e.desk { desk := ⟨p₀, 0⟩ } .ok text.toByteArray.data.toList).sink.text =
          Reply.lines (exchanges.map Prod.snd ++ results) ∧
        exchanges.map Prod.fst = (texts (Lines.ofText text.toList)).map Action.read ∧
        (∀ x ∈ exchanges, x.Fits ∧ Reply.read x.2.write = .ok x.2) ∧
        List.Forall₂ (fun s r => s.payload.depth ≤ 126 ∧ s.Recovered (max c.workers 1) r)
          (exchanges.filterMap Exchange.submission?) results := by
  have hstart : Attends c p₀ [] [] := ⟨h₀, .nil⟩
  obtain ⟨-, t, exchanges, hanswered, htext, -, -⟩ :=
    (e.kept_desk c).run (s := { desk := ⟨p₀, 0⟩ }) ⟨rfl, rfl⟩ rfl hstart .ok text
  refine ⟨exchanges, t.results e.desk .ok, htext, hanswered.read_eq,
    fun x hx => ⟨hanswered.fits x hx, (hanswered.fits x hx).read_write⟩, ?_⟩
  have hattends : Attends c (e.desk.await t.desk t.receipts).pool t.receipts exchanges :=
    Attends.reaches hanswered.kept (e.reaches_before _ _)
  rw [results, List.forall₂_map_right_iff]
  obtain ⟨hlength, hcovered⟩ := List.forall₂_iff_zip.mp hattends.submissions
  refine List.forall₂_iff_zip.mpr ⟨hlength, ?_⟩
  intro s receipt hmem
  have hpayload := storable_of_submission hanswered.read_eq hintegral (List.of_mem_zip hmem).1
  exact ⟨hpayload.depth_le, hattends.recovered hworkers (hcovered hmem) hpayload⟩

end Session

/-- So many brackets, each in the one before. -/
def nested : Nat → Json
  | 0 => .null
  | n + 1 => .array [nested n]

theorem depth_nested (n : Nat) : (nested n).depth = n := by
  induction n with
  | zero => rfl
  | succ n ih => simp [nested, depth, itemsDepth, ih]

theorem storable_nested {n : Nat} (h : n ≤ 126) : (nested n).Storable where
  ordered := by
    induction n with
    | zero => trivial
    | succ n ih => exact ⟨trivial, ih (by omega), trivial⟩
  integral := by
    induction n with
    | zero => trivial
    | succ n ih => exact ⟨trivial, ih (by omega), trivial⟩
  depth_le := (depth_nested n).trans_le h

/-- A payload that leaves room for its echo, and one with as many brackets as are accepted. -/
def deepSubmissions : List Action :=
  [.submit (nested 125) 0 1, .submit (nested 126) 0 1]

def deepSubmissionsText : String :=
  String.ofList (deepSubmissions.flatMap fun a => a.write ++ ['\n'])

theorem toList_deepSubmissionsText :
    deepSubmissionsText.toList = deepSubmissions.flatMap fun a => a.write ++ ['\n'] :=
  String.toList_ofList

/-- After both requests each of two workers executes a job. -/
def executeBoth : Script := fun n =>
  { before :=
      if n = 2 then
        [0, 1].flatMap fun i =>
          [.coordinate, .coordinate, .coordinate, .work i [], .work i [], .handOver i, .work i [],
            .work i [], .work i [], .answer i, .work i []]
      else []
    between := []
    id := ⟨UInt64.ofNat (n + 1)⟩
    submittedAt := 0
    names := fun _ => ⟨0⟩ }

def deepSession : Session (Scripted Json) :=
  Session.run (executeBoth.surroundings Transport.echo).desk
    { desk := ⟨Pool.start { workers := 2 } Transport.echo.operation, 0⟩ } .ok
    deepSubmissionsText.toByteArray.data.toList

theorem texts_deepSubmissionsText :
    Session.texts (Lines.ofText deepSubmissionsText.toList) = deepSubmissions.map Action.write := by
  rw [toList_deepSubmissionsText]
  decide +kernel

theorem text_deepSession :
    deepSession.sink.text = Reply.lines [.submitted ⟨1⟩, .submitted ⟨2⟩,
      Submission.echoed ⟨⟨1⟩, nested 125, 0⟩ 0, Submission.echoed ⟨⟨2⟩, nested 126, 0⟩ 1] := by
  have hstart : Session.Working (σ := Scripted Json)
      { desk := ⟨Pool.start { workers := 2 } Transport.echo.operation, 0⟩ } := ⟨rfl, rfl⟩
  rw [deepSession, Session.run, ← Lines.encode_toList, hstart.feed_endInput rfl,
    toList_deepSubmissionsText]
  decide +kernel

theorem read_deepSubmissions :
    (Session.texts (Lines.ofText deepSubmissionsText.toList)).map Action.read =
      deepSubmissions.map .ok := by
  have hread : ∀ n ≤ 126,
      Action.read (Action.submit (nested n) 0 1).write = .ok (.submit (nested n) 0 1) :=
    fun n hn => Action.read_write (a := .submit (nested n) 0 1) (storable_nested hn)
  rw [texts_deepSubmissionsText]
  simp only [deepSubmissions, List.map_cons, List.map_nil, hread 125 (by decide),
    hread 126 (by decide)]

theorem recovered_deepSession :
    ∃ (exchanges : List Exchange) (results : List Reply),
      deepSession.sink.text = Reply.lines (exchanges.map Prod.snd ++ results) ∧
        exchanges.map Prod.fst =
          (Session.texts (Lines.ofText deepSubmissionsText.toList)).map Action.read ∧
        (∀ x ∈ exchanges, x.Fits ∧ Reply.read x.2.write = .ok x.2) ∧
        List.Forall₂ (fun s r => s.payload.depth ≤ 126 ∧ s.Recovered 2 r)
          (exchanges.filterMap Exchange.submission?) results := by
  refine Session.recovered_of_run (c := { workers := 2 }) (by decide) .refl
    (executeBoth.surroundings Transport.echo) deepSubmissionsText ?_
  intro a ha
  rw [read_deepSubmissions, List.mem_map] at ha
  obtain ⟨a', ha', heq⟩ := ha
  cases heq
  simp only [deepSubmissions, List.mem_cons, List.not_mem_nil, or_false] at ha'
  rcases ha' with rfl | rfl
  · exact (storable_nested (by decide)).integral
  · exact (storable_nested (by decide)).integral

/-- Both payloads are accepted and echoed, and one of the echoes is refused. -/
theorem refused_deepSession :
    (Session.texts (Lines.ofText deepSubmissionsText.toList)).map Action.read =
        deepSubmissions.map .ok ∧
      (∀ a ∈ deepSubmissions, a.OfPayload Integral) ∧
      deepSession.sink.text = Reply.lines [.submitted ⟨1⟩, .submitted ⟨2⟩,
        Submission.echoed ⟨⟨1⟩, nested 125, 0⟩ 0, Submission.echoed ⟨⟨2⟩, nested 126, 0⟩ 1] ∧
      Reply.read (Submission.echoed ⟨⟨1⟩, nested 125, 0⟩ 0).write =
        .ok (Submission.echoed ⟨⟨1⟩, nested 125, 0⟩ 0) ∧
      ∀ x, Reply.read (Submission.echoed ⟨⟨2⟩, nested 126, 0⟩ 1).write ≠ .ok x := by
  have hroom : (nested 125).Storable := storable_nested (by decide)
  have hfull : (nested 126).Storable := storable_nested (by decide)
  refine ⟨read_deepSubmissions, ?_, text_deepSession, ?_, fun x hx => ?_⟩
  · simp only [deepSubmissions, List.forall_mem_cons, List.not_mem_nil, false_implies,
      implies_true, and_true]
    exact ⟨hroom.integral, hfull.integral⟩
  · exact (Submission.read_echoed_eq_ok_iff (s := ⟨⟨1⟩, nested 125, 0⟩) hroom rfl
      (by decide)).mpr ⟨rfl, (depth_nested 125).le⟩
  · have hdepth := ((Submission.read_echoed_eq_ok_iff (s := ⟨⟨2⟩, nested 126, 0⟩) hfull rfl
      (by decide)).mp hx).2
    rw [depth_nested] at hdepth
    exact absurd hdepth (by decide)

end PacedJobs
