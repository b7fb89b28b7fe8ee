import PacedJobs.Text.Unseen

/-!
# Text in quotes, as messages show it

A quotation mark, a backslash and the usual controls have an escape of two characters. Other
characters that show nothing are written by number in base sixteen, and all the rest as they are.
-/

namespace PacedJobs
namespace Quoted

def escapeChar (c : Char) : List Char :=
  match c with
  | '"' => ['\\', '"']
  | '\\' => ['\\', '\\']
  | '\n' => ['\\', 'n']
  | '\r' => ['\\', 'r']
  | '\t' => ['\\', 't']
  | '\x00' => ['\\', '0']
  | c =>
    if Unseen.isUnseen c then
      ['\\', 'u', '\x7b'] ++ Nat.toDigits 16 c.toNat ++ ['\x7d']
    else [c]

def write (s : String) : List Char :=
  '"' :: s.toList.flatMap escapeChar ++ ['"']

end Quoted
end PacedJobs
