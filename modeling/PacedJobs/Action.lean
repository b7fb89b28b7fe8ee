import PacedJobs.Json.Printer
import PacedJobs.Schema.Tagged

/-!
# Actions

An action is one line of input: it submits a job, cancels one, or cancels all jobs below a
priority.
-/

namespace PacedJobs

inductive Action where
  | submit (payload : Json) (priority : UInt16) (taskCount : UInt32)
  | cancel (id : JobId)
  | cancelBelow (priority : UInt16)
deriving DecidableEq

namespace Action

def submitFields : List Field :=
  [⟨"payload", .payload, none⟩, ⟨"priority", .word16, some 0⟩, ⟨"task-count", .word32, some 1⟩]

def cancelFields : List Field :=
  [⟨"id", .id, none⟩]

def cancelBelowFields : List Field :=
  [⟨"priority", .word16, none⟩]

def schema : Schema Action where
  label := "Action"
  tag := "action"
  variants :=
    [⟨"submit", "Submit", submitFields, fun (p, q, n, ()) => submit p q n⟩,
      ⟨"cancel", "Cancel", cancelFields, fun (id, ()) => cancel id⟩,
      ⟨"cancel-below", "CancelBelow", cancelBelowFields, fun (q, ()) => cancelBelow q⟩]

def read (text : List Char) : Except Json.Refusal Action :=
  schema.read text

/-- The tag and the fields in the order of their declaration. -/
def members : Action → List (String × Json)
  | submit payload priority taskCount =>
    [("action", .string "submit"), ("payload", payload), ("priority", .integer priority.toNat),
      ("task-count", .integer taskCount.toNat)]
  | cancel id => [("action", .string "cancel"), ("id", .integer id.word.toNat)]
  | cancelBelow priority =>
    [("action", .string "cancel-below"), ("priority", .integer priority.toNat)]

def write (a : Action) : List Char :=
  (Json.object a.members).compact

end Action
end PacedJobs
