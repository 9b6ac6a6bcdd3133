import ChipEight.CommandLine.Scanner
import ChipEight.Screen

/-!
# The terminal

Texts for a terminal: the screen drawn with block characters, and what is said about a
command line that cannot be used.
-/

namespace ChipEight

/-- A row of the screen, two characters for each pixel. -/
def Screen.rowText (s : Screen) (y : Nat) : String :=
  String.join ((List.range 64).map fun x => if s.pixel x y then "██" else "  ")

/-- The screen as lines of text. -/
def Screen.text (s : Screen) : String := "\n".intercalate ((List.range 32).map s.rowText)

/-- How the program is called. -/
def usage : String :=
  "Usage: chipeight [--profile modern|vip] [--cpu-hz RATE] [--seed SEED] [PROGRAM]"

/-- What is said about a command line that cannot be used. -/
def UsageError.message : UsageError → String
  | unknownArgument => "unknown argument"
  | invalidValue => "missing or invalid value"
  | badNumber => "not a number of the kind wanted"
  | repeated => "option given twice"
  | unexpectedValue => "option takes no value"
  | helpWanted => usage

end ChipEight
