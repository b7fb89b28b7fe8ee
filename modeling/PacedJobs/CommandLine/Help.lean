import PacedJobs.CommandLine.Options

/-!
# Help

The short help has a line per option, the long one a paragraph.
-/

namespace PacedJobs
namespace Help

def about : String :=
  "Priority-ordered, self-throttling job dispatcher for rate-limited transports.\n\n" ++
    UsageError.synopsis [] ++ "\n\nOptions:\n"

def version : String := "dispatchd 0.1.0\n"

def padded (width : Nat) (s : String) : String :=
  s ++ String.ofList (List.replicate (width - s.length) ' ')

def default : Flag → String
  | .workers => "4"
  | .timeSlice => "1000"
  | .selection => Selection.choice.name Inhabited.default
  | .reservation => Reservation.choice.name Inhabited.default

def shortLine (flag : Flag) : String :=
  let values := match flag.choices with
    | [] => ""
    | vs => " [possible values: " ++ ", ".intercalate (vs.map Prod.fst) ++ "]"
  "      " ++ padded 29 flag.usage ++ flag.summary ++ " [default: " ++ default flag ++ "]" ++
    values ++ "\n"

def short : String :=
  about ++ String.join (Flag.all.map shortLine) ++
    "  -h, --help                       Print help (see more with '--help')\n" ++
    "  -V, --version                    Print version\n"

def indent : String := "          "

/-- The values to choose from, their meanings set in one column. -/
def choiceLines (choices : List (String × String)) : String :=
  let width := choices.foldl (fun w c => max w (c.1.length + 2)) 0
  String.join (choices.map fun c => indent ++ "- " ++ padded width (c.1 ++ ": ") ++ c.2 ++ "\n")

def longParagraph (flag : Flag) : String :=
  let values := match flag.choices with
    | [] => ""
    | vs => "\n" ++ indent ++ "Possible values:\n" ++ choiceLines vs
  "      " ++ flag.usage ++ "\n" ++ indent ++ flag.summary ++ "\n" ++ values ++ indent ++ "\n" ++
    indent ++ "[default: " ++ default flag ++ "]\n\n"

def long : String :=
  about ++ String.join (Flag.all.map longParagraph) ++
    "  -h, --help\n" ++ indent ++ "Print help (see a summary with '-h')\n\n" ++
    "  -V, --version\n" ++ indent ++ "Print version\n"

end Help
end PacedJobs
