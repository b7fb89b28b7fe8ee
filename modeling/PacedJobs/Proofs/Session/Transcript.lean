import PacedJobs.Proofs.Text.EncodedLines
import PacedJobs.Session.Basic

/-!
# What a session writes

A session over a text answers the lines that are not blank one after the other, and then writes one
result for each receipt. What its desk keeps with every request holds of all that it has answered.
-/

namespace PacedJobs

/-- What a line was read as, and the reply to it. -/
abbrev Exchange := Except Json.Refusal Action × Reply

/-- The reply is of the kind that the action asks for. -/
def Exchange.Fits : Exchange → Prop
  | (.ok (.submit _ _ _), .submitted _) => True
  | (.ok (.cancel id), .cancelled id' _) => id' = id
  | (.ok (.cancelBelow priority), .cancelledBelow priority' _) => priority' = priority
  | (.error refusal, .rejected _ message) => message = refusal.message
  | _ => False

def Reply.lines (rs : List Reply) : List Char :=
  rs.flatMap fun r => r.write ++ ['\n']

theorem Reply.lines_append (rs rs' : List Reply) : lines (rs ++ rs') = lines rs ++ lines rs' :=
  List.flatMap_append

theorem Reply.lines_singleton (r : Reply) : lines [r] = r.write ++ ['\n'] := by
  simp [lines]

namespace Session

variable {σ ω : Type} (d : Desk σ ω)

/-- A session that has not failed and can write. -/
structure Working (s : Session σ) : Prop where
  failure : s.failure = none
  breakage : s.sink.breakage = none

def serve (s : Session σ) (line : List Char) : Session σ :=
  match { s with lines := s.lines + 1 }.answer d line with
  | (none, s) => s
  | (some r, s) => s.write r

variable {d} {s : Session σ}

namespace Working

theorem write_eq (h : Working s) (r : Reply) :
    s.write r = { s with
      sink := { s.sink with
        replies := s.sink.replies + 1, written := (r.write ++ ['\n']) :: s.sink.written } } := by
  obtain ⟨hfailure, hbreakage⟩ := h
  cases s
  simp_all [write, Sink.write, Sink.put]

theorem write (h : Working s) (r : Reply) : Working (s.write r) := by
  rw [h.write_eq]
  exact ⟨h.failure, h.breakage⟩

theorem text_write (h : Working s) (r : Reply) :
    (s.write r).sink.text = s.sink.text ++ (r.write ++ ['\n']) := by
  rw [h.write_eq]
  simp [Sink.text]

theorem readLine_eq (h : Working s) {line : List UInt8} {text : String}
    (hdecode : Lines.decode? line = some text) : s.readLine d line = s.serve d text.toList := by
  unfold readLine serve
  rw [h.failure, hdecode]
  rfl

end Working

/-- Invariants of a desk that hold of what a session has answered, too. -/
structure Kept (d : Desk σ ω) (I : σ → List Receipt → List Exchange → Prop) : Prop where
  submit : ∀ {desk receipts exchanges} payload priority taskCount, I desk receipts exchanges →
    I (d.submit desk payload priority taskCount).2
      (receipts ++ [(d.submit desk payload priority taskCount).1])
      (exchanges ++ [(.ok (.submit payload priority taskCount),
        .submitted (d.submit desk payload priority taskCount).1.id)])
  cancel : ∀ {desk receipts exchanges} id, I desk receipts exchanges →
    I (d.cancel desk id).2 receipts
      (exchanges ++ [(.ok (.cancel id), .cancelled id (d.cancel desk id).1)])
  cancelBelow : ∀ {desk receipts exchanges} priority, I desk receipts exchanges →
    I (d.cancelBelow desk priority).2 receipts
      (exchanges ++ [(.ok (.cancelBelow priority),
        .cancelledBelow priority (d.cancelBelow desk priority).1)])
  refuse : ∀ {desk receipts exchanges} line (refusal : Json.Refusal), I desk receipts exchanges →
    I desk receipts (exchanges ++ [(.error refusal, .rejected line refusal.message)])

variable {I : σ → List Receipt → List Exchange → Prop}

/-- A session has gone on and has answered the texts of some lines. -/
structure Answered (I : σ → List Receipt → List Exchange → Prop) (s s' : Session σ)
    (before answered : List Exchange) (texts : List (List Char)) : Prop where
  working : Working s'
  kept : I s'.desk s'.receipts (before ++ answered)
  text_eq : s'.sink.text = s.sink.text ++ Reply.lines (answered.map Prod.snd)
  read_eq : answered.map Prod.fst = texts.map Action.read
  fits : ∀ x ∈ answered, x.Fits

namespace Answered

variable {s' s'' : Session σ} {before answered answered' : List Exchange}
  {texts texts' : List (List Char)}

theorem none (hs : Working s') (hI : I s'.desk s'.receipts before) (hsink : s'.sink = s.sink) :
    Answered I s s' before [] [] where
  working := hs
  kept := by simpa using hI
  text_eq := by simp [hsink, Reply.lines]
  read_eq := rfl
  fits := by simp

theorem one {a : Except Json.Refusal Action} (r : Reply) (hs : Working s')
    (hI : I s'.desk s'.receipts (before ++ [(a, r)])) (hsink : s'.sink = s.sink)
    (hfits : Exchange.Fits (a, r)) {text : List Char} (hread : Action.read text = a) :
    Answered I s (s'.write r) before [(a, r)] [text] where
  working := hs.write r
  kept := by
    rw [hs.write_eq]
    exact hI
  text_eq := by rw [hs.text_write, hsink, List.map_singleton, Reply.lines_singleton]
  read_eq := by simp [hread]
  fits := by simpa using hfits

theorem trans (h : Answered I s s' before answered texts)
    (h' : Answered I s' s'' (before ++ answered) answered' texts') :
    Answered I s s'' before (answered ++ answered') (texts ++ texts') where
  working := h'.working
  kept := by simpa using h'.kept
  text_eq := by
    rw [h'.text_eq, h.text_eq, List.map_append, Reply.lines_append, List.append_assoc]
  read_eq := by simp [h.read_eq, h'.read_eq]
  fits x hx := (List.mem_append.mp hx).elim (h.fits x) (h'.fits x)

end Answered

/-- The texts that lines hold between blanks, but for blank lines. -/
def texts (lines : List (List Char)) : List (List Char) :=
  (lines.map Blank.trim).filter (· ≠ [])

theorem Kept.act (hd : Kept d I) (hs : Working s) {before : List Exchange}
    (h : I s.desk s.receipts before) (a : Action) :
    Working (s.act d a).2 ∧
      I (s.act d a).2.desk (s.act d a).2.receipts (before ++ [(.ok a, (s.act d a).1)]) ∧
      (s.act d a).2.sink = s.sink ∧ Exchange.Fits (.ok a, (s.act d a).1) := by
  cases a with
  | submit payload priority taskCount =>
    exact ⟨⟨hs.failure, hs.breakage⟩, hd.submit payload priority taskCount h, rfl, trivial⟩
  | cancel id => exact ⟨⟨hs.failure, hs.breakage⟩, hd.cancel id h, rfl, rfl⟩
  | cancelBelow priority =>
    exact ⟨⟨hs.failure, hs.breakage⟩, hd.cancelBelow priority h, rfl, rfl⟩

theorem Kept.serve (hd : Kept d I) (hs : Working s) {before : List Exchange}
    (h : I s.desk s.receipts before) (line : List Char) :
    ∃ answered, Answered I s (s.serve d line) before answered (texts [line]) := by
  have hcount : Working { s with lines := s.lines + 1 } := ⟨hs.failure, hs.breakage⟩
  cases htrim : Blank.trim line with
  | nil =>
    have hserve : s.serve d line = { s with lines := s.lines + 1 } := by
      simp [Session.serve, answer, htrim]
    have htexts : texts [line] = [] := by simp [texts, htrim]
    rw [hserve, htexts]
    exact ⟨[], .none hcount h rfl⟩
  | cons c cs =>
    have htexts : texts [line] = [c :: cs] := by simp [texts, htrim]
    rw [htexts]
    cases hread : Action.read (c :: cs) with
    | error refusal =>
      have hserve : s.serve d line = ({ s with lines := s.lines + 1 } : Session σ).write
          (.rejected (UInt64.ofNat (s.lines + 1)) refusal.message) := by
        simp [Session.serve, answer, htrim, hread]
      rw [hserve]
      exact ⟨_, .one (s := s) _ hcount (hd.refuse _ refusal h) rfl rfl hread⟩
    | ok a =>
      have hserve : s.serve d line =
          (({ s with lines := s.lines + 1 } : Session σ).act d a).2.write
            (({ s with lines := s.lines + 1 } : Session σ).act d a).1 := by
        simp [Session.serve, answer, htrim, hread]
      rw [hserve]
      obtain ⟨hs', hI, hsink, hfits⟩ :=
        hd.act (s := { s with lines := s.lines + 1 }) hcount h a
      exact ⟨_, .one (s := s) (a := .ok a) _ hs' hI hsink hfits hread⟩

theorem texts_cons (line : List Char) (lines : List (List Char)) :
    texts (line :: lines) = texts [line] ++ texts lines := by
  unfold texts
  rw [List.map_cons, List.map_singleton, ← List.filter_append]
  rfl

theorem Kept.serve_all (hd : Kept d I) (lines : List (List Char)) (hs : Working s)
    {before : List Exchange} (h : I s.desk s.receipts before) :
    ∃ answered, Answered I s (lines.foldl (Session.serve d) s) before answered (texts lines) := by
  induction lines generalizing s before with
  | nil => exact ⟨[], .none hs h rfl⟩
  | cons line lines ih =>
    obtain ⟨answered, hone⟩ := hd.serve hs h line
    obtain ⟨answered', hrest⟩ := ih hone.working hone.kept
    rw [texts_cons]
    exact ⟨_, hone.trans hrest⟩

theorem Working.serve (h : Working s) (line : List Char) : Working (s.serve d line) := by
  have hd : Kept d fun _ _ _ => True := by constructor <;> simp
  obtain ⟨answered, hone⟩ : ∃ answered, Answered _ s (s.serve d line) [] answered (texts [line]) :=
    hd.serve h trivial line
  exact hone.working

/-- What is read of an unfinished line does not matter to the lines before. -/
theorem serve_unfinished (s : Session σ) (rest : List UInt8) (line : List Char) :
    serve d { s with unfinished := rest } line = { s.serve d line with unfinished := rest } := by
  unfold serve answer
  cases Blank.trim line with
  | nil => rfl
  | cons c cs =>
    dsimp only
    cases Action.read (c :: cs) with
    | error refusal => rfl
    | ok a => cases a <;> rfl

theorem foldl_serve_unfinished (s : Session σ) (rest : List UInt8) (lines : List (List Char)) :
    lines.foldl (serve d) { s with unfinished := rest } =
      { lines.foldl (serve d) s with unfinished := rest } := by
  induction lines generalizing s with
  | nil => rfl
  | cons line lines ih => rw [List.foldl_cons, List.foldl_cons, serve_unfinished, ih]

theorem Working.foldl_readLine (h : Working s) (lines : List (List Char)) :
    (lines.map Lines.encode).foldl (fun s line => s.readLine d (Lines.chomp line)) s =
      (lines.map Lines.chompText).foldl (Session.serve d) s := by
  induction lines generalizing s with
  | nil => rfl
  | cons line lines ih =>
    have hline : s.readLine d (Lines.chomp (Lines.encode line)) =
        s.serve d (Lines.chompText line) := by
      rw [Lines.chomp_encode, h.readLine_eq (Lines.decode?_encode _), String.toList_ofList]
    rw [List.map_cons, List.map_cons, List.foldl_cons, List.foldl_cons, hline]
    exact ih (h.serve _)

theorem Working.feed_endInput (h : Working s) (hrest : s.unfinished = []) (cs : List Char) :
    (s.feed d (Lines.encode cs)).endInput d = (Lines.ofText cs).foldl (Session.serve d) s := by
  have hfeed : s.feed d (Lines.encode cs) =
      { ((Lines.cutText cs).1.map Lines.chompText).foldl (Session.serve d) s with
        unfinished := Lines.encode (Lines.cutText cs).2 } := by
    unfold feed
    rw [hrest, List.nil_append, Lines.cut_encode, ← foldl_serve_unfinished]
    have hworking : Working { s with unfinished := Lines.encode (Lines.cutText cs).2 } :=
      ⟨h.failure, h.breakage⟩
    exact hworking.foldl_readLine _
  have hclean : ∀ lines : List (List Char), lines.foldl (Session.serve d) s =
      { lines.foldl (Session.serve d) s with unfinished := [] } := by
    intro lines
    rw [← foldl_serve_unfinished]
    have hs : s = { s with unfinished := [] } := by
      rw [← hrest]
    rw [← hs]
  rw [hfeed, Lines.ofText, List.foldl_append]
  by_cases hend : (Lines.cutText cs).2 = []
  · rw [hend, if_pos rfl]
    exact (hclean _).symm
  · rw [if_neg hend, endInput]
    split
    next hnil => exact absurd (Lines.encode_eq_nil_iff.mp hnil) hend
    next =>
      have hworking : Working
          (((Lines.cutText cs).1.map Lines.chompText).foldl (Session.serve d) s) := by
        have hall : ∀ lines : List (List Char), Working (lines.foldl (Session.serve d) s) := by
          intro lines
          induction lines using List.reverseRecOn with
          | nil => exact h
          | append_singleton lines line ih =>
            rw [List.foldl_append]
            exact ih.serve line
        exact hall _
      rw [← hclean, hworking.readLine_eq (Lines.decode?_encode _), String.toList_ofList]
      rfl

/-- What a session writes when its input has ended. -/
def results (d : Desk σ ω) (s : Session σ) (encode : ω → Except String Json) : List Reply :=
  s.receipts.map fun receipt =>
    resultReply encode receipt (d.result (d.await s.desk s.receipts) receipt)

/-- A session reports one result for each receipt, in their order. -/
theorem Working.report (h : Working s) (encode : ω → Except String Json) :
    Working (s.report d encode) ∧
      (s.report d encode).sink.text = s.sink.text ++ Reply.lines (s.results d encode) ∧
      (s.report d encode).desk = d.await s.desk s.receipts ∧
      (s.report d encode).receipts = s.receipts := by
  have hfold : ∀ (rs : List Receipt) (t : Session σ), Working t →
      let t' := rs.foldl (fun t receipt =>
        if t.failure.isSome then t
        else t.write (resultReply encode receipt (d.result t.desk receipt))) t
      Working t' ∧ t'.sink.text = t.sink.text ++ Reply.lines (rs.map fun receipt =>
        resultReply encode receipt (d.result t.desk receipt)) ∧ t'.desk = t.desk ∧
        t'.receipts = t.receipts := by
    intro rs
    induction rs with
    | nil =>
      intro t ht
      exact ⟨ht, by simp [Reply.lines], rfl, rfl⟩
    | cons receipt rs ih =>
      intro t ht
      have hreply := ht.write (resultReply encode receipt (d.result t.desk receipt))
      have hdesk : (t.write (resultReply encode receipt (d.result t.desk receipt))).desk =
          t.desk := by rw [ht.write_eq]
      obtain ⟨hworking, htext, hdesk', hreceipts⟩ := ih _ hreply
      simp only [List.foldl_cons, ht.failure, Option.isSome_none, Bool.false_eq_true, if_false]
      refine ⟨hworking, ?_, hdesk'.trans hdesk, hreceipts.trans (by rw [ht.write_eq])⟩
      rw [htext, hdesk, ht.text_write, List.map_cons, List.append_assoc]
      rfl
  have hall := hfold s.receipts { s with desk := d.await s.desk s.receipts }
    ⟨h.failure, h.breakage⟩
  unfold Session.report
  rw [if_neg (by simp [h.failure])]
  exact hall

/-- A session over a text answers its lines, waits, and writes the results. -/
theorem Kept.run (hd : Kept d I) (hs : Working s) (hrest : s.unfinished = [])
    (h : I s.desk s.receipts []) (encode : ω → Except String Json) (text : String) :
    Working (s.run d encode text.toByteArray.data.toList) ∧ ∃ (t : Session σ) (answered : _),
      Answered I s t [] answered (texts (Lines.ofText text.toList)) ∧
        (s.run d encode text.toByteArray.data.toList).sink.text =
          s.sink.text ++ Reply.lines (answered.map Prod.snd ++ t.results d encode) ∧
        (s.run d encode text.toByteArray.data.toList).desk = d.await t.desk t.receipts ∧
        (s.run d encode text.toByteArray.data.toList).receipts = t.receipts := by
  obtain ⟨answered, ht⟩ := hd.serve_all (Lines.ofText text.toList) hs h
  rw [← hs.feed_endInput hrest, Lines.encode_toList] at ht
  obtain ⟨hworking, htext, hdesk, hreceipts⟩ := ht.working.report (d := d) encode
  refine ⟨hworking, _, answered, ht, ?_, hdesk, hreceipts⟩
  rw [Session.run, htext, ht.text_eq, Reply.lines_append, List.append_assoc]

end Session
end PacedJobs
