import ChipEight.Binary32.Shortest
import ChipEight.Journal.Basic

/-!
# Lines of the journal

The wording of each record. The fetched word of an instruction is shown with its
address and with what it decodes to.
-/

namespace ChipEight.Record

/-- The text of a record. -/
def text : Record → String
  | created dialect => "Creating CHIP-8 VM with " ++ dialect.text
  | loaded size => "Loaded " ++ toString size ++ " byte ROM at 0x200"
  | fetched pc word =>
    hexText 3 pc.val ++ ": " ++ hexText 4 word.toNat ++ " " ++ (Instruction.decode word).text
  | faulted fault => fault.message
  | rateReplaced clock rate replacement =>
    "Invalid " ++ clock.text ++ " rate " ++ rate.text ++ "Hz, using " ++ replacement.text ++ "Hz"

/-- The line of a record. -/
def line (r : Record) : String := r.level.text ++ " " ++ r.text

end ChipEight.Record
