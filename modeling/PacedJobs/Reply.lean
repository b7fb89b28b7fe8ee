import PacedJobs.Json.Printer
import PacedJobs.Schema.Tagged

/-!
# Replies

A reply is one line of output: the answer to an action or to a line that is none, or the result of
a job. A result holds either a value or the text of an error; what is absent is not written.
-/

namespace PacedJobs

inductive Reply where
  | submitted (id : JobId)
  | cancelled (id : JobId) (removed : Bool)
  | cancelledBelow (priority : UInt16) (ids : List JobId)
  | result (id : JobId) (ok : Option Json) (error : Option String)
  | rejected (line : UInt64) (message : String)
deriving DecidableEq

namespace Reply

def submittedFields : List Field :=
  [⟨"id", .id, none⟩]

def cancelledFields : List Field :=
  [⟨"id", .id, none⟩, ⟨"removed", .flag, none⟩]

def cancelledBelowFields : List Field :=
  [⟨"priority", .word16, none⟩, ⟨"ids", .ids, none⟩]

def resultFields : List Field :=
  [⟨"id", .id, none⟩, ⟨"ok", .optionalPayload, some none⟩, ⟨"error", .optionalText, some none⟩]

def rejectedFields : List Field :=
  [⟨"line", .size, none⟩, ⟨"message", .text, none⟩]

def schema : Schema Reply where
  label := "Reply"
  tag := "event"
  variants :=
    [⟨"submitted", "Submitted", submittedFields, fun (id, ()) => submitted id⟩,
      ⟨"cancelled", "Cancelled", cancelledFields, fun (id, removed, ()) => cancelled id removed⟩,
      ⟨"cancelled-below", "CancelledBelow", cancelledBelowFields,
        fun (priority, ids, ()) => cancelledBelow priority ids⟩,
      ⟨"result", "Result", resultFields, fun (id, ok, error, ()) => result id ok error⟩,
      ⟨"error", "Error", rejectedFields, fun (line, message, ()) => rejected line message⟩]

def read (text : List Char) : Except Json.Refusal Reply :=
  schema.read text

def idJson (id : JobId) : Json :=
  .integer id.word.toNat

/-- The tag and the fields in the order of their declaration. -/
def members : Reply → List (String × Json)
  | submitted id => [("event", .string "submitted"), ("id", idJson id)]
  | cancelled id removed =>
    [("event", .string "cancelled"), ("id", idJson id), ("removed", .bool removed)]
  | cancelledBelow priority ids =>
    [("event", .string "cancelled-below"), ("priority", .integer priority.toNat),
      ("ids", .array (ids.map idJson))]
  | result id ok error =>
    [("event", .string "result"), ("id", idJson id)] ++ (ok.map fun v => ("ok", v)).toList ++
      (error.map fun s => ("error", Json.string s)).toList
  | rejected line message =>
    [("event", .string "error"), ("line", .integer line.toNat), ("message", .string message)]

def write (r : Reply) : List Char :=
  (Json.object r.members).compact

end Reply
end PacedJobs
