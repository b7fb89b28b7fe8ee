/-!
# Lines and columns of a text

A place in a text is reached after a number of bytes of its UTF-8 form. Lines are counted by the
line feeds before it, columns by the bytes since the last of them.
-/

namespace PacedJobs

/-- The number of bytes that the characters take in UTF-8. -/
def byteLength : List Char → Nat
  | [] => 0
  | c :: s => c.utf8Size + byteLength s

structure Position where
  line : Nat := 1
  column : Nat := 0
deriving DecidableEq, Repr

namespace Position

def ending (p : Position) : String :=
  " at line " ++ toString p.line ++ " column " ++ toString p.column

def past (p : Position) (c : Char) : Position :=
  if c = '\n' then ⟨p.line + 1, 0⟩ else ⟨p.line, p.column + c.utf8Size⟩

/-- The position behind the first `n` bytes. A character that the count cuts in two adds the
bytes before the cut. -/
def after (p : Position) : List Char → Nat → Position
  | [], _ => p
  | c :: s, n =>
    if n < c.utf8Size then ⟨p.line, p.column + n⟩ else after (p.past c) s (n - c.utf8Size)

end Position
end PacedJobs
