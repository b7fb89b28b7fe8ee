/-!
# What a terminal shows

Escape sequences and controls steer a terminal and show nothing; only blank controls take room.
Once a character has been shown, the characters behind it are taken as plain text, until one of
them shows nothing there. From then on the sequence that was under way goes on.
-/

namespace PacedJobs
namespace Terminal

/-- Where a terminal stands in an escape sequence. -/
inductive Mode where
  /-- Outside of any sequence. -/
  | ground
  /-- Behind the escape character. -/
  | escape
  /-- Behind a further character that leaves the sequence open. -/
  | escapeTail
  /-- In a control sequence, which a letter or another late sign ends. -/
  | control
  /-- At the start of a string for a device. -/
  | device
  /-- In the numbers that open a string for a device. -/
  | deviceNumbers
  /-- Behind the numbers that open a string for a device. -/
  | deviceTail
  /-- In a string that only its closing byte ends. -/
  | string
  /-- In a string that the bell ends. -/
  | title
deriving DecidableEq, Repr

def isBlankControl (c : Char) : Bool :=
  c = '\t' || c = '\n' || c = '\x0c' || c = '\r'

/-- Characters beyond the controls, the delete character left out. -/
def isGraphic (c : Char) : Bool :=
  ' ' ≤ c && c ≠ '\x7f'

/-- The byte that ends a string wherever it occurs, even inside a character. -/
def closing : UInt8 := 0x9c

namespace Mode

def shows (m : Mode) (c : Char) : Bool :=
  match m with
  | .ground => isGraphic c || isBlankControl c
  | .escape | .escapeTail | .control => isBlankControl c
  | _ => false

/-- The mode behind the character that follows the escape character. -/
def opened (c : Char) : Mode :=
  if c = '[' then .control
  else if c = ']' then .title
  else if c = 'P' then .device
  else if c = 'X' || c = '^' || c = '_' then .string
  else if ' ' ≤ c && c ≤ '/' then .escapeTail
  else if '0' ≤ c && c ≤ '~' then .ground
  else .escape

/-- The mode behind a character that shows nothing. -/
def next (m : Mode) (c : Char) : Mode :=
  if c = '\x18' || c = '\x1a' then .ground
  else if c = '\x1b' then .escape
  else
    match m with
    | .ground => .ground
    | .escape => opened c
    | .escapeTail => if '0' ≤ c && c ≤ '~' then .ground else .escapeTail
    | .control => if '@' ≤ c && c ≤ '~' then .ground else .control
    | .device =>
      if ' ' ≤ c && c ≤ '/' then .deviceTail
      else if '0' ≤ c && c ≤ '?' then .deviceNumbers
      else if '@' ≤ c && c ≤ '~' then .string
      else .device
    | .deviceNumbers =>
      if ' ' ≤ c && c ≤ '/' then .deviceTail
      else if '<' ≤ c && c ≤ '~' then .string
      else .deviceNumbers
    | .deviceTail => if '0' ≤ c && c ≤ '~' then .string else .deviceTail
    | .string => if (String.utf8EncodeChar c).contains closing then .ground else .string
    | .title => if c = '\x07' then .ground else .title

/-- The mode behind a character that is shown. One of several bytes leads out of any sequence. -/
def past (m : Mode) (c : Char) : Mode :=
  if c ≤ '\x7f' then m else .ground

end Mode

/-- What is shown of a text in a mode. The flag says whether the character before was shown. -/
def showFrom (shown : Bool) (m : Mode) : List Char → List Char
  | [] => []
  | c :: s =>
    if (if shown then Mode.ground else m).shows c then c :: showFrom true (m.past c) s
    else showFrom false (m.next c) s

def visible (s : List Char) : List Char :=
  showFrom false .ground s

end Terminal
end PacedJobs
