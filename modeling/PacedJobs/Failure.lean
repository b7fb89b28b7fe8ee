/-!
# Failures

A failure is a message with the messages of what caused it, from the outside in.
-/

namespace PacedJobs

structure Failure where
  message : String
  causes : List String
deriving DecidableEq, Repr

namespace Failure

def ofMessage (message : String) : Failure :=
  ⟨message, []⟩

def within (f : Failure) (message : String) : Failure :=
  ⟨message, f.message :: f.causes⟩

def chain (f : Failure) : List String :=
  f.message :: f.causes

def text (f : Failure) : String :=
  ": ".intercalate f.chain

end Failure
end PacedJobs
