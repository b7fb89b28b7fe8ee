import PacedJobs.CommandLine.Program

/-!
# Running the program

Input is read piece by piece, and every reply is written as soon as its line is complete. The clock
of the pool follows the clock of the machine. Where results have moved it ahead, the program waits
for the machine to catch up before it writes them.
-/

namespace PacedJobs
namespace Program

def flushText (s : Session (Run Json Json)) : IO (Session (Run Json Json)) := do
  let (text, s) := s.takeText
  let stdout ← IO.getStdout
  stdout.putStr (String.ofList text)
  stdout.flush
  return s

/-- Feeds the session until the input ends or the session fails. -/
partial def serve (startedAt : Nat) (s : Session (Run Json Json)) :
    IO (Session (Run Json Json)) := do
  let stdin ← IO.getStdin
  let bytes ← try
      let bytes ← stdin.read 65536
      pure (Except.ok bytes)
    catch e => pure (Except.error (toString e))
  let s := passTime s ((← IO.monoNanosNow) - startedAt)
  match bytes with
  | .error message => return s.failReading message
  | .ok bytes =>
    if bytes.isEmpty then
      let s := finish s
      let ahead := s.desk.pool.now - ((← IO.monoNanosNow) - startedAt)
      IO.sleep (UInt32.ofNat (ahead / nanosecondsPerMillisecond))
      flushText s
    else
      let s ← flushText (feed s bytes.toList)
      if s.failure.isSome then return s else serve startedAt s

def leave (e : Exit) : IO UInt32 := do
  (← IO.getStdout).putStr e.output
  (← IO.getStderr).putStr e.errors
  return UInt32.ofNat e.code

end Program
end PacedJobs

open PacedJobs in
def main (arguments : List String) : IO UInt32 := do
  match Program.configure arguments with
  | .error e => Program.leave e
  | .ok c =>
    let s ← Program.serve (← IO.monoNanosNow) (Program.start c)
    Program.leave (Program.exit s)
