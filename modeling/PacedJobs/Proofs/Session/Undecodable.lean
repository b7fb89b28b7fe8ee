import PacedJobs.Proofs.Session.Framing
import PacedJobs.Session.PoolDesk

/-!
# Lines that cannot be decoded

A line of bytes that are not UTF-8 ends a session at once. The lines before it have been answered,
but their jobs are not waited for and no result is written, although a line that holds no action
would have been answered by a rejection. So only an input whose lines can all be decoded is answered
line by line and job by job.
-/

namespace PacedJobs

/-- All lines of a stream of bytes, without their endings. -/
def Lines.ofBytes (bytes : List UInt8) : List (List UInt8) :=
  (cut bytes).1.map chomp ++ if (cut bytes).2 = [] then [] else [(cut bytes).2]

/-- Lines can all be decoded, or there is a first one that cannot. -/
theorem Lines.decoded_or_first (lines : List (List UInt8)) :
    (∃ texts : List String, lines.map decode? = texts.map some) ∨
      ∃ before line after, ∃ texts : List String, lines = before ++ line :: after ∧
        before.map decode? = texts.map some ∧ decode? line = none := by
  induction lines with
  | nil => exact .inl ⟨[], rfl⟩
  | cons line lines ih =>
    cases hdecode : decode? line with
    | none => exact .inr ⟨[], line, lines, [], rfl, rfl, hdecode⟩
    | some text =>
      rcases ih with ⟨texts, htexts⟩ | ⟨before, bad, after, texts, rfl, hbefore, hbad⟩
      · exact .inl ⟨text :: texts, by simp [hdecode, htexts]⟩
      · have hmore : (line :: before).map decode? = (text :: texts).map some := by
          simp [hdecode, hbefore]
        exact .inr ⟨line :: before, bad, after, text :: texts, rfl, hmore, hbad⟩

namespace Session

variable {σ ω : Type} {d : Desk σ ω} {s : Session σ}

theorem readLine_unfinished (s : Session σ) (rest line : List UInt8) :
    ({ s with unfinished := rest } : Session σ).readLine d line =
      { s.readLine d line with unfinished := rest } := by
  by_cases hfailure : s.failure.isSome
  · simp [readLine, hfailure]
  · have hnone : s.failure = none := by simpa using hfailure
    cases hdecode : Lines.decode? line with
    | none => simp [readLine, failReading, hnone, hdecode]
    | some text =>
      have hserve : ∀ t : Session σ, t.failure = none →
          t.readLine d line = t.serve d text.toList := by
        intro t ht
        rw [readLine, if_neg (by simp [ht]), hdecode]
        rfl
      rw [hserve s hnone, hserve { s with unfinished := rest } hnone, serve_unfinished]

theorem foldl_readLine_unfinished (s : Session σ) (rest : List UInt8) (lines : List (List UInt8)) :
    lines.foldl (readLine d) { s with unfinished := rest } =
      { lines.foldl (readLine d) s with unfinished := rest } := by
  induction lines generalizing s with
  | nil => rfl
  | cons line lines ih => rw [List.foldl_cons, List.foldl_cons, readLine_unfinished, ih]

theorem feed_endInput_eq (h : s.unfinished = []) (bytes : List UInt8) :
    (s.feed d bytes).endInput d = (Lines.ofBytes bytes).foldl (readLine d) s := by
  have hclean : ∀ lines : List (List UInt8),
      { lines.foldl (readLine d) s with unfinished := [] } = lines.foldl (readLine d) s := by
    intro lines
    rw [← foldl_readLine_unfinished, ← h]
  have hfeed : s.feed d bytes =
      { ((Lines.cut bytes).1.map Lines.chomp).foldl (readLine d) s with
        unfinished := (Lines.cut bytes).2 } := by
    rw [feed, h, List.nil_append, ← foldl_readLine_unfinished, List.foldl_map]
  rw [hfeed, Lines.ofBytes, List.foldl_append]
  by_cases hend : (Lines.cut bytes).2 = []
  · rw [hend, if_pos rfl]
    exact hclean _
  · rw [if_neg hend, endInput]
    split
    next hnil => exact absurd hnil hend
    next => exact congrArg (fun t => readLine d t (Lines.cut bytes).2) (hclean _)

/-- Lines that can be decoded are answered as the texts that they hold. -/
theorem Working.foldl_readLine_eq (h : Working s) {lines : List (List UInt8)} {texts : List String}
    (hdecode : lines.map Lines.decode? = texts.map some) :
    lines.foldl (readLine d) s = (texts.map String.toList).foldl (Session.serve d) s := by
  induction lines generalizing s texts with
  | nil =>
    cases List.map_eq_nil_iff.mp hdecode.symm
    rfl
  | cons line lines ih =>
    obtain ⟨text, texts, rfl, hline, hlines⟩ := List.map_eq_cons_iff.mp hdecode.symm
    rw [List.map_cons, List.foldl_cons, List.foldl_cons, h.readLine_eq hline.symm]
    exact ih (h.serve _) hlines.symm

theorem foldl_readLine_of_failure (h : s.failure.isSome) (lines : List (List UInt8)) :
    lines.foldl (readLine d) s = s := by
  induction lines with
  | nil => rfl
  | cons line lines ih => rw [List.foldl_cons, readLine, if_pos h, ih]

def undecodable : Failure :=
  (Failure.ofMessage "stream did not contain valid UTF-8").within "failed to read action"

theorem Working.readLine_undecodable (h : Working s) {line : List UInt8}
    (hdecode : Lines.decode? line = none) :
    s.readLine d line = { s with failure := some undecodable } := by
  simp [readLine, failReading, h.failure, hdecode, undecodable]

/-- What a session that met a line it cannot decode has written and done over the texts before. -/
structure Stranded (d : Desk σ ω) (desk : σ) (texts : List String) (s : Session σ)
    (replies : List Reply) : Prop where
  failed : s.failure = some undecodable
  written : s.sink.text = Reply.lines replies
  answered : List.Forall₂ Reply.Answers (Lines.numbered 1 (texts.map String.toList)) replies
  /-- The desk has been asked for the actions that were read and has not been waited for. -/
  served : d.takeAll desk (Lines.actions (Lines.numbered 1 (texts.map String.toList))) =
    (replies.filter fun r => !r.isRejected, s.receipts, s.desk)
  submitted : replies.filterMap Reply.submission? = s.receipts.map Receipt.id
  unreported : ∀ r ∈ replies, r.resultId? = none

theorem resultId?_of_answers {text : List Char × Nat} {r : Reply} (h : Reply.Answers text r) :
    r.resultId? = none := by
  have hfits := h.1
  cases r with
  | result id ok error =>
    cases hread : Action.read text.1 with
    | error refusal =>
      rw [hread] at hfits
      cases hfits
    | ok a =>
      rw [hread] at hfits
      cases a <;> cases hfits
  | _ => rfl

theorem resultId?_of_forall₂_answers {texts : List (List Char × Nat)} {replies : List Reply}
    (h : List.Forall₂ Reply.Answers texts replies) : ∀ r ∈ replies, r.resultId? = none := by
  induction h with
  | nil => simp
  | cons hanswers _ ih => exact List.forall_mem_cons.mpr ⟨resultId?_of_answers hanswers, ih⟩

theorem framed_of_decodable (d : Desk σ ω) (desk : σ) (encode : ω → Except String Json)
    {bytes : List UInt8} {texts : List String}
    (hdecode : (Lines.ofBytes bytes).map Lines.decode? = texts.map some) :
    ∃ replies results, Framed d desk encode (texts.map String.toList)
      (Session.run d { desk := desk } encode bytes) replies results := by
  have hstart : Working ({ desk := desk } : Session σ) := ⟨rfl, rfl⟩
  obtain ⟨hworking, htext, hreceipts, hdesk⟩ :=
    hstart.serve_all (d := d) (texts.map String.toList)
  rw [← hstart.foldl_readLine_eq hdecode, ← feed_endInput_eq rfl] at hworking htext hreceipts hdesk
  simp only [List.nil_append, Nat.zero_add] at htext hreceipts hdesk
  obtain ⟨hreport, htext', hdesk', hreceipts'⟩ := hworking.report (d := d) encode
  refine ⟨_, _, .of_answered hreport.failure (hreceipts'.trans hreceipts) ?_ ?_⟩
  · rw [Session.run, hdesk', hdesk, hreceipts']
  · rw [Session.run, htext', htext, hreceipts', hdesk', results, Reply.lines_append]
    rfl

theorem stranded_of_undecodable (d : Desk σ ω) (desk : σ) (encode : ω → Except String Json)
    {bytes : List UInt8} {before after : List (List UInt8)} {line : List UInt8}
    {texts : List String} (hlines : Lines.ofBytes bytes = before ++ line :: after)
    (hbefore : before.map Lines.decode? = texts.map some) (hline : Lines.decode? line = none) :
    ∃ replies, Stranded d desk texts (Session.run d { desk := desk } encode bytes) replies := by
  have hstart : Working ({ desk := desk } : Session σ) := ⟨rfl, rfl⟩
  obtain ⟨hworking, htext, hreceipts, hdesk⟩ :=
    hstart.serve_all (d := d) (texts.map String.toList)
  simp only [List.nil_append, Nat.zero_add] at htext hreceipts hdesk
  have hrun : Session.run d { desk := desk } encode bytes =
      { (texts.map String.toList).foldl (Session.serve d) { desk := desk } with
        failure := some undecodable } := by
    rw [Session.run, feed_endInput_eq rfl, hlines, List.foldl_append, List.foldl_cons,
      hstart.foldl_readLine_eq hbefore, hworking.readLine_undecodable hline,
      foldl_readLine_of_failure rfl]
    rfl
  rw [hrun]
  refine ⟨_, rfl, htext, d.forall₂_answers desk _, ?_, ?_, ?_⟩
  · rw [d.takeAll_actions, hreceipts, hdesk]
  · rw [d.submissions_answer, hreceipts]
  · exact resultId?_of_forall₂_answers (d.forall₂_answers desk _)

/-- An input of any bytes whose lines can all be decoded is answered line by line and job by job.
Any other input is answered up to its first line that cannot be decoded. Nothing more is written
then, no result of a job that was submitted and no rejection, and the lines behind are not read. -/
theorem framed_or_stranded_of_run (d : Desk σ ω) (desk : σ) (encode : ω → Except String Json)
    (bytes : List UInt8) :
    let s := Session.run d { desk := desk } encode bytes
    (∃ (texts : List String) (replies results : List Reply),
      (Lines.ofBytes bytes).map Lines.decode? = texts.map some ∧
      Framed d desk encode (texts.map String.toList) s replies results) ∨
    ∃ (before : List (List UInt8)) (line : List UInt8) (after : List (List UInt8))
      (texts : List String) (replies : List Reply),
      Lines.ofBytes bytes = before ++ line :: after ∧
      before.map Lines.decode? = texts.map some ∧ Lines.decode? line = none ∧
      Stranded d desk texts s replies := by
  intro s
  rcases Lines.decoded_or_first (Lines.ofBytes bytes) with
    ⟨texts, htexts⟩ | ⟨before, line, after, texts, hlines, hbefore, hline⟩
  · obtain ⟨replies, results, hframed⟩ := framed_of_decodable d desk encode htexts
    exact .inl ⟨texts, replies, results, htexts, hframed⟩
  · obtain ⟨replies, hstranded⟩ := stranded_of_undecodable d desk encode hlines hbefore hline
    exact .inr ⟨before, line, after, texts, replies, hlines, hbefore, hline, hstranded⟩

end Session

/-- A transport that answers at once, and names given in their order. -/
def echoSchedule : Schedule Json Json where
  mayWork _ := true
  answer context payload := some (Transport.echo.execute context payload)
  names n := ⟨UInt64.ofNat (n + 1)⟩

/-- A submission of high priority, one of low priority, and between them a line of two bytes that
are no character. -/
def brokenInput : List UInt8 :=
  Lines.encode ((Action.submit (.string "a") 2 1).write ++ ['\n']) ++
    ([0xc0, 0xaf, Lines.lineFeed] ++
      Lines.encode ((Action.submit (.string "b") 0 1).write ++ ['\n']))

def brokenSession : Session (Run Json Json) :=
  Session.run (echoSchedule.desk id)
    { desk := Run.start { workers := 1 } Transport.echo.operation } .ok brokenInput

/-- Both submissions can be read and the first is acknowledged. Its result is not written, although
it would come, the broken line is not rejected, and the second submission is not taken. -/
theorem unreported_brokenSession :
    Lines.ofBytes brokenInput = [Lines.encode (Action.submit (.string "a") 2 1).write,
        [0xc0, 0xaf], Lines.encode (Action.submit (.string "b") 0 1).write] ∧
      Lines.decode? [0xc0, 0xaf] = none ∧
      Action.read (Action.submit (.string "a") 2 1).write = .ok (.submit (.string "a") 2 1) ∧
      Action.read (Action.submit (.string "b") 0 1).write = .ok (.submit (.string "b") 0 1) ∧
      brokenSession.failure = some Session.undecodable ∧
      brokenSession.sink.text = Reply.lines [.submitted ⟨1⟩] ∧
      brokenSession.receipts = [⟨⟨1⟩, 0⟩] ∧
      Session.resultReply .ok ⟨⟨1⟩, 0⟩ ((echoSchedule.desk id).result
          ((echoSchedule.desk id).await brokenSession.desk brokenSession.receipts) ⟨⟨1⟩, 0⟩) =
        .result ⟨1⟩ (some (.object [("echo", .string "a"), ("priority", .integer 2),
          ("worker", .integer 0)])) none := by
  decide +kernel

end PacedJobs
