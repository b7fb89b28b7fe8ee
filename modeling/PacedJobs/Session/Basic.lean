import PacedJobs.Action
import PacedJobs.Json.Remark
import PacedJobs.Session.Desk
import PacedJobs.Session.Sink
import PacedJobs.Text.Blank
import PacedJobs.Text.Lines

/-!
# Sessions

A session reads lines, each an action, and answers each with a reply. Blank lines count but get no
reply. When the input has ended it waits for all jobs and reports their results in the order in
which they were submitted. It ends early when a line cannot be read or a reply cannot be written.
-/

namespace PacedJobs

structure Session (σ : Type) where
  desk : σ
  /-- The number of lines read. -/
  lines : Nat := 0
  /-- Tickets of submitted jobs, in the order of submission. -/
  receipts : List Receipt := []
  /-- The beginning of a line whose end has not come. -/
  unfinished : List UInt8 := []
  sink : Sink := {}
  /-- Why the session has ended early. -/
  failure : Option Failure := none

namespace Session

variable {σ ω : Type} (d : Desk σ ω)

def act (s : Session σ) : Action → Reply × Session σ
  | .submit payload priority taskCount =>
    let (receipt, desk) := d.submit s.desk payload priority taskCount
    (.submitted receipt.id, { s with desk := desk, receipts := s.receipts ++ [receipt] })
  | .cancel id =>
    let (removed, desk) := d.cancel s.desk id
    (.cancelled id removed, { s with desk := desk })
  | .cancelBelow priority =>
    let (ids, desk) := d.cancelBelow s.desk priority
    (.cancelledBelow priority ids, { s with desk := desk })

def answer (s : Session σ) (line : List Char) : Option Reply × Session σ :=
  match Blank.trim line with
  | [] => (none, s)
  | text =>
    match Action.read text with
    | .ok a =>
      let (r, s) := s.act d a
      (some r, s)
    | .error refusal => (some (.rejected (UInt64.ofNat s.lines) refusal.message), s)

def write (s : Session σ) (r : Reply) : Session σ :=
  let (failure, sink) := s.sink.write r
  { s with sink := sink, failure := failure }

def failReading (s : Session σ) (message : String) : Session σ :=
  if s.failure.isSome then s
  else { s with failure := some ((Failure.ofMessage message).within "failed to read action") }

def readLine (s : Session σ) (line : List UInt8) : Session σ :=
  if s.failure.isSome then s
  else
    match Lines.decode? line with
    | none => s.failReading "stream did not contain valid UTF-8"
    | some text =>
      match { s with lines := s.lines + 1 }.answer d text.toList with
      | (none, s) => s
      | (some r, s) => s.write r

/-- Takes in a piece of the input, which may end anywhere. -/
def feed (s : Session σ) (bytes : List UInt8) : Session σ :=
  let (lines, rest) := Lines.cut (s.unfinished ++ bytes)
  lines.foldl (fun s line => s.readLine d (Lines.chomp line)) { s with unfinished := rest }

def endInput (s : Session σ) : Session σ :=
  match s.unfinished with
  | [] => s
  | line => { s with unfinished := [] }.readLine d line

/-- The result of a job as a reply. An output may have no form as a document. -/
def resultReply (encode : ω → Except String Json) (receipt : Receipt) : Except JobError ω → Reply
  | .error e => .result receipt.id none (some e.failure.text)
  | .ok output =>
    match encode output with
    | .ok v => .result receipt.id (some v) none
    | .error reason =>
      let remark := Json.Remark.ofText reason
      .result receipt.id none (some ("unserializable output: " ++ remark.message))

def report (s : Session σ) (encode : ω → Except String Json) : Session σ :=
  if s.failure.isSome then s
  else
    let s := { s with desk := d.await s.desk s.receipts }
    s.receipts.foldl (fun s receipt =>
      if s.failure.isSome then s
      else s.write (resultReply encode receipt (d.result s.desk receipt))) s

def run (s : Session σ) (encode : ω → Except String Json) (input : List UInt8) : Session σ :=
  ((s.feed d input).endInput d).report d encode

def takeText (s : Session σ) : List Char × Session σ :=
  (s.sink.text, { s with sink := { s.sink with written := [] } })

end Session
end PacedJobs
