import PacedJobs.Decimal.Notation

/-!
# Names of jobs

A job is named by a number of 64 bits. Messages and replies show it in base ten.
-/

namespace PacedJobs

structure JobId where
  word : UInt64
deriving DecidableEq, Repr, Inhabited

def JobId.text (id : JobId) : String :=
  String.ofList (Nat.toDigits 10 id.word.toNat)

end PacedJobs
