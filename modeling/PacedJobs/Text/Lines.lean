/-!
# Lines of a stream of bytes

A line ends with a line feed; a carriage return before it belongs to the ending. What stands
behind the last line feed is a line only once the stream has ended, and only if it is not empty.
-/

namespace PacedJobs
namespace Lines

def lineFeed : UInt8 := 10

def carriageReturn : UInt8 := 13

/-- Puts a byte in front of lines and an unfinished rest. -/
def addByte (b : UInt8) (cut : List (List UInt8) × List UInt8) : List (List UInt8) × List UInt8 :=
  if b = lineFeed then ([] :: cut.1, cut.2)
  else
    match cut.1 with
    | [] => ([], b :: cut.2)
    | l :: ls => ((b :: l) :: ls, cut.2)

/-- Cuts the bytes into the lines that end in them and the unfinished rest. -/
def cut (bytes : List UInt8) : List (List UInt8) × List UInt8 :=
  bytes.foldr addByte ([], [])

/-- Takes off a carriage return at the end of a line that a line feed has ended. -/
def chomp (line : List UInt8) : List UInt8 :=
  if line.getLast? = some carriageReturn then line.dropLast else line

/-- The text that the bytes are in UTF-8, if they are one. -/
def decode? (line : List UInt8) : Option String :=
  String.fromUTF8? (ByteArray.mk line.toArray)

end Lines
end PacedJobs
