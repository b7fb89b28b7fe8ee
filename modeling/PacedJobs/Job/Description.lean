import PacedJobs.Job.Basic

/-!
# Descriptions of jobs

The fields of a job that do not depend on its payload, on one line or indented over several.
-/

namespace PacedJobs

namespace Description

/-- A name before fields in braces, all on one line. -/
def oneLine (name : String) (fields : List (String × String)) : String :=
  name ++ " \x7b " ++ ", ".intercalate (fields.map fun f => f.1 ++ ": " ++ f.2) ++ " \x7d"

/-- A name before fields in braces, each on a line of its own. -/
def manyLines (name : String) (fields : List (String × String)) : String :=
  name ++ " \x7b\n" ++ String.join (fields.map fun f => "    " ++ f.1 ++ ": " ++ f.2 ++ ",\n") ++
    "\x7d"

end Description

def JobId.description (id : JobId) : String :=
  "JobId(" ++ id.text ++ ")"

namespace Job

variable {π : Type}

def fields (idText : String) (j : Job π) : List (String × String) :=
  [("id", idText), ("priority", toString j.priority.toNat),
    ("task_count", toString j.taskCount.toNat),
    ("placeholder", if j.isPlaceholder then "true" else "false")]

def description (j : Job π) : String :=
  Description.oneLine "Job" (j.fields j.id.description)

def longDescription (j : Job π) : String :=
  Description.manyLines "Job" (j.fields ("JobId(\n        " ++ j.id.text ++ ",\n    )"))

end Job
end PacedJobs
