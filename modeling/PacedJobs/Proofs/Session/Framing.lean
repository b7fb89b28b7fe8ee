import PacedJobs.Proofs.Json.ControlFree
import PacedJobs.Proofs.Session.Transcript
import PacedJobs.Proofs.Text.DressedLines

/-!
# One line for each line, and one for each job

What a session writes is the lines of its replies, one for each line of input that is not blank, and
of its results, one for each submission. The desk is asked for the actions that were read, in their
order, and for nothing else. Blanks around a line and the way in which it ends make no difference,
and blank lines make one to the numbers of rejected lines only.
-/

namespace PacedJobs

namespace Desk

variable {σ ω : Type} (d : Desk σ ω)

/-- Takes an action: its reply, a receipt if it is a submission, and the desk after it. -/
def take (desk : σ) : Action → Reply × List Receipt × σ
  | .submit payload priority taskCount =>
    let (receipt, desk) := d.submit desk payload priority taskCount
    (.submitted receipt.id, [receipt], desk)
  | .cancel id =>
    let (removed, desk) := d.cancel desk id
    (.cancelled id removed, [], desk)
  | .cancelBelow priority =>
    let (ids, desk) := d.cancelBelow desk priority
    (.cancelledBelow priority ids, [], desk)

def takeAll (desk : σ) : List Action → List Reply × List Receipt × σ
  | [] => ([], [], desk)
  | a :: as =>
    let (r, given, desk) := d.take desk a
    let (rs, receipts, desk) := takeAll desk as
    (r :: rs, given ++ receipts, desk)

/-- Answers numbered texts. A text that is no action does not come to the desk. -/
def answer (desk : σ) : List (List Char × Nat) → List Reply × List Receipt × σ
  | [] => ([], [], desk)
  | (text, n) :: texts =>
    match Action.read text with
    | .error refusal =>
      let (rs, receipts, desk) := answer desk texts
      (.rejected (UInt64.ofNat n) refusal.message :: rs, receipts, desk)
    | .ok a =>
      let (r, given, desk) := d.take desk a
      let (rs, receipts, desk) := answer desk texts
      (r :: rs, given ++ receipts, desk)

end Desk

namespace Reply

def isRejected : Reply → Bool
  | rejected _ _ => true
  | _ => false

def submission? : Reply → Option JobId
  | submitted id => some id
  | _ => none

def resultId? : Reply → Option JobId
  | result id _ _ => some id
  | _ => none

/-- The reply without the number of a rejected line. -/
def unnumbered : Reply → Reply
  | rejected _ message => rejected 0 message
  | r => r

/-- A reply to a numbered text: of the kind that the action asks for, or a rejection of the line. -/
def Answers (text : List Char × Nat) (r : Reply) : Prop :=
  Exchange.Fits (Action.read text.1, r) ∧
    ∀ refusal, Action.read text.1 = .error refusal →
      r = .rejected (UInt64.ofNat text.2) refusal.message

end Reply

/-- The actions among numbered texts, in their order. -/
def Lines.actions (texts : List (List Char × Nat)) : List Action :=
  texts.filterMap fun text => (Action.read text.1).toOption

namespace Desk

variable {σ ω : Type} (d : Desk σ ω)

theorem fits_take (desk : σ) (a : Action) : Exchange.Fits (.ok a, (d.take desk a).1) := by
  cases a <;> simp [take, Exchange.Fits]

theorem isRejected_take (desk : σ) (a : Action) : (d.take desk a).1.isRejected = false := by
  cases a <;> rfl

theorem submissions_take (desk : σ) (a : Action) :
    (d.take desk a).1.submission?.toList = (d.take desk a).2.1.map Receipt.id := by
  cases a <;> rfl

theorem answer_cons_error (desk : σ) {text : List Char} {n : Nat} {refusal : Json.Refusal}
    (hread : Action.read text = .error refusal) (texts : List (List Char × Nat)) :
    d.answer desk ((text, n) :: texts) =
      (.rejected (UInt64.ofNat n) refusal.message :: (d.answer desk texts).1,
        (d.answer desk texts).2) := by
  simp [answer, hread]

theorem answer_cons_ok (desk : σ) {text : List Char} {n : Nat} {a : Action}
    (hread : Action.read text = .ok a) (texts : List (List Char × Nat)) :
    d.answer desk ((text, n) :: texts) =
      ((d.take desk a).1 :: (d.answer (d.take desk a).2.2 texts).1,
        (d.take desk a).2.1 ++ (d.answer (d.take desk a).2.2 texts).2.1,
        (d.answer (d.take desk a).2.2 texts).2.2) := by
  simp [answer, hread]

theorem forall₂_answers (desk : σ) (texts : List (List Char × Nat)) :
    List.Forall₂ Reply.Answers texts (d.answer desk texts).1 := by
  induction texts generalizing desk with
  | nil => exact .nil
  | cons text texts ih =>
    obtain ⟨text, n⟩ := text
    cases hread : Action.read text with
    | error refusal =>
      rw [d.answer_cons_error desk hread]
      refine .cons ⟨by rw [hread]; rfl, fun refusal' h => ?_⟩ (ih desk)
      cases hread.symm.trans h
      rfl
    | ok a =>
      rw [d.answer_cons_ok desk hread]
      refine .cons ⟨by rw [hread]; exact d.fits_take desk a, fun refusal h => ?_⟩ (ih _)
      cases hread.symm.trans h

/-- The desk is asked for the actions and gives the replies that are no rejections. -/
theorem takeAll_actions (desk : σ) (texts : List (List Char × Nat)) :
    d.takeAll desk (Lines.actions texts) =
      ((d.answer desk texts).1.filter fun r => !r.isRejected, (d.answer desk texts).2) := by
  induction texts generalizing desk with
  | nil => rfl
  | cons text texts ih =>
    obtain ⟨text, n⟩ := text
    cases hread : Action.read text with
    | error refusal =>
      have hactions : Lines.actions ((text, n) :: texts) = Lines.actions texts := by
        simp [Lines.actions, hread, Except.toOption]
      rw [hactions, d.answer_cons_error desk hread, ih]
      simp [Reply.isRejected]
    | ok a =>
      have hactions : Lines.actions ((text, n) :: texts) = a :: Lines.actions texts := by
        simp [Lines.actions, hread, Except.toOption]
      have hrest := ih (d.take desk a).2.2
      rw [hactions, d.answer_cons_ok desk hread]
      simp [takeAll, hrest, isRejected_take]

theorem submissions_answer (desk : σ) (texts : List (List Char × Nat)) :
    (d.answer desk texts).1.filterMap Reply.submission? =
      (d.answer desk texts).2.1.map Receipt.id := by
  induction texts generalizing desk with
  | nil => rfl
  | cons text texts ih =>
    obtain ⟨text, n⟩ := text
    cases hread : Action.read text with
    | error refusal =>
      rw [d.answer_cons_error desk hread]
      exact ih desk
    | ok a =>
      rw [d.answer_cons_ok desk hread]
      have htake := d.submissions_take desk a
      rw [List.map_append, ← htake, ← ih, List.filterMap_cons]
      cases (d.take desk a).1.submission? <;> rfl

theorem answer_congr {texts texts' : List (List Char × Nat)}
    (h : texts.map Prod.fst = texts'.map Prod.fst) (desk : σ) :
    (d.answer desk texts).1.map Reply.unnumbered = (d.answer desk texts').1.map Reply.unnumbered ∧
      (d.answer desk texts).2 = (d.answer desk texts').2 := by
  induction texts generalizing desk texts' with
  | nil =>
    cases List.map_eq_nil_iff.mp h.symm
    exact ⟨rfl, rfl⟩
  | cons text texts ih =>
    obtain ⟨text, n⟩ := text
    obtain ⟨⟨text', n'⟩, rest, rfl, htext, hrest⟩ := List.map_eq_cons_iff.mp h.symm
    cases (htext : text' = text)
    cases hread : Action.read text with
    | error refusal =>
      obtain ⟨hreplies, hdesk⟩ := ih hrest.symm desk
      rw [d.answer_cons_error desk hread, d.answer_cons_error desk hread]
      exact ⟨by rw [List.map_cons, List.map_cons, hreplies]; rfl, hdesk⟩
    | ok a =>
      obtain ⟨hreplies, hdesk⟩ := ih hrest.symm (d.take desk a).2.2
      rw [d.answer_cons_ok desk hread, d.answer_cons_ok desk hread, hdesk]
      exact ⟨by rw [List.map_cons, List.map_cons, hreplies], rfl⟩

end Desk

namespace Session

variable {σ ω : Type} {d : Desk σ ω} {s : Session σ}

theorem act_eq (s : Session σ) (a : Action) :
    s.act d a = ((d.take s.desk a).1,
      { s with
        desk := (d.take s.desk a).2.2, receipts := s.receipts ++ (d.take s.desk a).2.1 }) := by
  cases a <;> simp [act, Desk.take]

/-- Lines are answered as the desk answers the texts that they hold. -/
theorem Working.serve_all (h : Working s) (lines : List (List Char)) :
    let t := lines.foldl (Session.serve d) s
    let answered := d.answer s.desk (Lines.numbered (s.lines + 1) lines)
    Working t ∧ t.sink.text = s.sink.text ++ Reply.lines answered.1 ∧
      t.receipts = s.receipts ++ answered.2.1 ∧ t.desk = answered.2.2 := by
  induction lines generalizing s with
  | nil => exact ⟨h, by simp [Desk.answer, Reply.lines], by simp [Desk.answer], rfl⟩
  | cons line lines ih =>
    intro t answered
    have hcount : Working { s with lines := s.lines + 1 } := ⟨h.failure, h.breakage⟩
    cases htrim : Blank.trim line with
    | nil =>
      have hserve : s.serve d line = { s with lines := s.lines + 1 } := by
        simp [Session.serve, answer, htrim]
      have hnumbered : Lines.numbered (s.lines + 1) (line :: lines) =
          Lines.numbered (s.lines + 1 + 1) lines := by
        rw [Lines.numbered_cons, if_pos htrim, List.nil_append]
      have hrest := ih hcount
      rw [← hserve] at hrest
      simp only [t, answered, List.foldl_cons, hnumbered]
      simpa [hserve] using hrest
    | cons c cs =>
      have hnumbered : Lines.numbered (s.lines + 1) (line :: lines) =
          (c :: cs, s.lines + 1) :: Lines.numbered (s.lines + 1 + 1) lines := by
        simp [Lines.numbered_cons, htrim]
      cases hread : Action.read (c :: cs) with
      | error refusal =>
        have hserve : s.serve d line = ({ s with lines := s.lines + 1 } : Session σ).write
            (.rejected (UInt64.ofNat (s.lines + 1)) refusal.message) := by
          simp [Session.serve, answer, htrim, hread]
        obtain ⟨hworking, htext, hreceipts, hdesk⟩ := ih (hcount.write
          (.rejected (UInt64.ofNat (s.lines + 1)) refusal.message))
        rw [hcount.text_write, ← hserve] at htext
        rw [← hserve] at hworking hreceipts hdesk
        have hkept : (s.serve d line).desk = s.desk ∧ (s.serve d line).receipts = s.receipts ∧
            (s.serve d line).lines = s.lines + 1 := by
          rw [hserve, hcount.write_eq]
          exact ⟨rfl, rfl, rfl⟩
        simp only [hkept] at htext hreceipts hdesk
        simp only [t, answered, List.foldl_cons, hnumbered, d.answer_cons_error s.desk hread]
        refine ⟨hworking, ?_, hreceipts, hdesk⟩
        rw [htext, List.append_assoc]
        rfl
      | ok a =>
        have hact := act_eq (d := d) { s with lines := s.lines + 1 } a
        have hserve : s.serve d line =
            (({ s with lines := s.lines + 1 } : Session σ).act d a).2.write
              (({ s with lines := s.lines + 1 } : Session σ).act d a).1 := by
          simp [Session.serve, answer, htrim, hread]
        have hacted : Working (({ s with lines := s.lines + 1 } : Session σ).act d a).2 := by
          rw [hact]
          exact ⟨h.failure, h.breakage⟩
        obtain ⟨hworking, htext, hreceipts, hdesk⟩ :=
          ih (hacted.write (({ s with lines := s.lines + 1 } : Session σ).act d a).1)
        rw [hacted.text_write, ← hserve] at htext
        rw [← hserve] at hworking hreceipts hdesk
        have hkept : (s.serve d line).desk = (d.take s.desk a).2.2 ∧
            (s.serve d line).receipts = s.receipts ++ (d.take s.desk a).2.1 ∧
            (s.serve d line).lines = s.lines + 1 := by
          rw [hserve, hacted.write_eq, hact]
          exact ⟨rfl, rfl, rfl⟩
        simp only [hkept] at htext hreceipts hdesk
        simp only [t, answered, List.foldl_cons, hnumbered, d.answer_cons_ok s.desk hread]
        refine ⟨hworking, ?_, by rw [hreceipts, List.append_assoc], hdesk⟩
        rw [htext, hact, List.append_assoc]
        rfl

theorem Working.run (h : Working s) (hrest : s.unfinished = [])
    (encode : ω → Except String Json) (cs : List Char) :
    let t := s.run d encode (Lines.encode cs)
    let answered := d.answer s.desk (Lines.numbered (s.lines + 1) (Lines.ofText cs))
    let receipts := s.receipts ++ answered.2.1
    let desk := d.await answered.2.2 receipts
    t.failure = none ∧ t.receipts = receipts ∧ t.desk = desk ∧
      t.sink.text = s.sink.text ++ Reply.lines (answered.1 ++ receipts.map fun receipt =>
        resultReply encode receipt (d.result desk receipt)) := by
  obtain ⟨hworking, htext, hreceipts, hdesk⟩ := h.serve_all (d := d) (Lines.ofText cs)
  rw [← h.feed_endInput hrest] at hworking htext hreceipts hdesk
  obtain ⟨hreport, htext', hdesk', hreceipts'⟩ := hworking.report (d := d) encode
  refine ⟨hreport.failure, hreceipts'.trans hreceipts, ?_, ?_⟩
  · rw [Session.run, hdesk', hdesk, hreceipts]
  · rw [Session.run, htext', htext, List.append_assoc, ← Reply.lines_append, results, hreceipts,
      hdesk]

theorem resultId?_resultReply (encode : ω → Except String Json) (receipt : Receipt)
    (r : Except JobError ω) : (resultReply encode receipt r).resultId? = some receipt.id := by
  unfold resultReply
  cases r with
  | error e => rfl
  | ok output =>
    dsimp only
    cases encode output <;> rfl

theorem cut_lines (rs : List Reply) :
    Lines.cut (Lines.encode (Reply.lines rs)) = (rs.map fun r => Lines.encode r.write, []) := by
  have hnone : ∀ line ∈ rs.map Reply.write, '\n' ∉ line := by
    intro line hline
    obtain ⟨r, -, rfl⟩ := List.mem_map.mp hline
    exact r.controlFree_write.newline_not_mem
  have hcut := Lines.cutText_lines hnone (List.not_mem_nil (a := '\n'))
  have hlines : Reply.lines rs =
      ((rs.map Reply.write).flatMap fun line => line ++ ['\n']) ++ [] := by
    rw [List.append_nil, List.flatMap_map]
    rfl
  rw [Lines.cut_encode, hlines, hcut]
  simp [Function.comp_def]

theorem le_toNat_of_mem_encode {cs : List Char} (h : ControlFree cs) {b : UInt8}
    (hb : b ∈ Lines.encode cs) : 0x20 ≤ b.toNat := by
  obtain ⟨c, hc, hb⟩ := List.mem_flatMap.mp hb
  rcases Lines.utf8EncodeChar_cases c with ⟨hsmall, heq⟩ | ⟨-, hlarge⟩
  · rw [heq, List.mem_singleton] at hb
    have := h c hc
    rw [hb, UInt8.toNat_ofNat']
    omega
  · have := hlarge b hb
    omega

/-- What a session has written and done over the lines of an input, when it began with a desk. -/
structure Framed (d : Desk σ ω) (desk : σ) (encode : ω → Except String Json)
    (lines : List (List Char)) (s : Session σ) (replies results : List Reply) : Prop where
  finished : s.failure = none
  /-- The bytes are the lines of the replies and then of the results. -/
  framed : Lines.cut (Lines.encode s.sink.text) =
    ((replies ++ results).map fun r => Lines.encode r.write, [])
  visible : ∀ r ∈ replies ++ results, ∀ b ∈ Lines.encode r.write, 0x20 ≤ b.toNat
  answered : List.Forall₂ Reply.Answers (Lines.numbered 1 lines) replies
  /-- The desk is asked for the actions that were read and gives all replies but the rejections. -/
  served : ∃ served, d.takeAll desk (Lines.actions (Lines.numbered 1 lines)) =
    (replies.filter fun r => !r.isRejected, s.receipts, served) ∧ s.desk = d.await served s.receipts
  results_eq : results = s.receipts.map fun receipt =>
    resultReply encode receipt (d.result s.desk receipt)
  named : results.map Reply.resultId? = (replies.filterMap Reply.submission?).map some

theorem Framed.of_answered {desk : σ} {encode : ω → Except String Json} {lines : List (List Char)}
    (hfailure : s.failure = none)
    (hreceipts : s.receipts = (d.answer desk (Lines.numbered 1 lines)).2.1)
    (hdesk : s.desk = d.await (d.answer desk (Lines.numbered 1 lines)).2.2 s.receipts)
    (htext : s.sink.text = Reply.lines ((d.answer desk (Lines.numbered 1 lines)).1 ++
      s.receipts.map fun receipt => resultReply encode receipt (d.result s.desk receipt))) :
    Framed d desk encode lines s (d.answer desk (Lines.numbered 1 lines)).1
      (s.receipts.map fun receipt => resultReply encode receipt (d.result s.desk receipt)) := by
  constructor
  · exact hfailure
  · rw [htext]
    exact cut_lines _
  · intro r _ b hb
    exact le_toNat_of_mem_encode r.controlFree_write hb
  · exact d.forall₂_answers desk _
  · exact ⟨_, by rw [d.takeAll_actions, hreceipts], hdesk⟩
  · rfl
  · rw [d.submissions_answer, ← hreceipts, List.map_map, List.map_map]
    exact List.map_congr_left fun receipt _ => resultId?_resultReply encode receipt _

theorem framed_run (d : Desk σ ω) (desk : σ) (encode : ω → Except String Json) (cs : List Char) :
    Framed d desk encode (Lines.ofText cs)
      (Session.run d { desk := desk } encode (Lines.encode cs))
      (d.answer desk (Lines.numbered 1 (Lines.ofText cs))).1
      ((Session.run d { desk := desk } encode (Lines.encode cs)).receipts.map fun receipt =>
        resultReply encode receipt (d.result
          (Session.run d { desk := desk } encode (Lines.encode cs)).desk receipt)) := by
  have hworking : Working ({ desk := desk } : Session σ) := ⟨rfl, rfl⟩
  obtain ⟨hfailure, hreceipts, hdesk, htext⟩ := hworking.run (d := d) rfl encode cs
  simp only [List.nil_append, Nat.zero_add] at hreceipts hdesk htext
  refine .of_answered hfailure hreceipts (by rw [hdesk, hreceipts]) ?_
  rw [htext, hreceipts, hdesk]
  rfl

/-- Every input in UTF-8 is answered line by line and job by job. Blanks around the lines and the
way in which they end change nothing that is written or asked for. Blank lines change the numbers of
rejected lines and nothing else. -/
theorem framed_of_run (d : Desk σ ω) (desk : σ) (encode : ω → Except String Json) :
    let run (cs : List Char) := Session.run d { desk := desk } encode (Lines.encode cs)
    (∀ cs, ∃ replies results, Framed d desk encode (Lines.ofText cs) (run cs) replies results) ∧
    (∀ (ls ls' : List Lines.Dressed) (ended ended' : Bool),
      ls.map Lines.Dressed.body = ls'.map Lines.Dressed.body →
      let s := run (Lines.Dressed.input ended ls)
      let s' := run (Lines.Dressed.input ended' ls')
      s.sink.text = s'.sink.text ∧ s.desk = s'.desk ∧ s.receipts = s'.receipts) ∧
    ∀ cs cs', texts (Lines.ofText cs) = texts (Lines.ofText cs') →
      ∃ replies replies' results,
        Framed d desk encode (Lines.ofText cs) (run cs) replies results ∧
        Framed d desk encode (Lines.ofText cs') (run cs') replies' results ∧
        replies.map Reply.unnumbered = replies'.map Reply.unnumbered ∧
        (run cs).desk = (run cs').desk ∧ (run cs).receipts = (run cs').receipts := by
  intro run
  have hworking : Working ({ desk := desk } : Session σ) := ⟨rfl, rfl⟩
  have hrun : ∀ cs, _ := fun cs => hworking.run (d := d) rfl encode cs
  simp only [List.nil_append, Nat.zero_add] at hrun
  refine ⟨fun cs => ⟨_, _, framed_run d desk encode cs⟩, ?_, ?_⟩
  · intro ls ls' ended ended' hbody
    have hnumbered : Lines.numbered 1 (Lines.ofText (Lines.Dressed.input ended ls)) =
        Lines.numbered 1 (Lines.ofText (Lines.Dressed.input ended' ls')) := by
      rw [Lines.Dressed.numbered_input, Lines.Dressed.numbered_input, hbody]
    obtain ⟨-, hreceipts, hdesk, htext⟩ := hrun (Lines.Dressed.input ended ls)
    obtain ⟨-, hreceipts', hdesk', htext'⟩ := hrun (Lines.Dressed.input ended' ls')
    rw [hnumbered] at hreceipts hdesk htext
    exact ⟨htext.trans htext'.symm, hdesk.trans hdesk'.symm, hreceipts.trans hreceipts'.symm⟩
  · intro cs cs' htexts
    have hnumbered : (Lines.numbered 1 (Lines.ofText cs)).map Prod.fst =
        (Lines.numbered 1 (Lines.ofText cs')).map Prod.fst := by
      rw [Lines.map_fst_numbered, Lines.map_fst_numbered]
      exact htexts
    obtain ⟨hreplies, hanswer⟩ := d.answer_congr hnumbered desk
    obtain ⟨-, hreceipts, hdesk, -⟩ := hrun cs
    obtain ⟨-, hreceipts', hdesk', -⟩ := hrun cs'
    have hsame : (run cs).desk = (run cs').desk ∧ (run cs).receipts = (run cs').receipts := by
      rw [hdesk, hreceipts, hdesk', hreceipts', hanswer]
      exact ⟨rfl, rfl⟩
    have hframed := framed_run d desk encode cs'
    refine ⟨_, _, _, framed_run d desk encode cs, ?_, hreplies, hsame⟩
    change Framed d desk encode _ _ _ ((run cs).receipts.map fun receipt =>
      resultReply encode receipt (d.result (run cs).desk receipt))
    rw [hsame.1, hsame.2]
    exact hframed

end Session
end PacedJobs
