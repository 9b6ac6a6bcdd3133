import ChipEight.Hexadecimal

/-!
# Faults

What can go wrong: an instruction that cannot be carried out, and a program that
cannot be loaded. Each cause has one wording.
-/

namespace ChipEight

/-- Why an instruction could not be carried out, with its address. -/
inductive Fault where
  /-- A call while sixteen calls were open. -/
  | stackOverflow (pc : UInt16)
  /-- A return while no call was open. -/
  | stackUnderflow (pc : UInt16)
  /-- A word that stands for no instruction. -/
  | unassigned (word pc : UInt16)
  deriving DecidableEq

/-- An address as it is shown in messages. -/
def Fault.addressText (pc : UInt16) : String := "0x" ++ hexText 3 pc.toNat

/-- The wording of a fault. -/
def Fault.message : Fault → String
  | stackOverflow pc => "Stack overflow at " ++ addressText pc ++ ": call depth exceeds 16"
  | stackUnderflow pc =>
    "Stack underflow at " ++ addressText pc ++
      ": attempted to return from a subroutine with empty call stack"
  | unassigned word pc =>
    "Unknown opcode 0x" ++ hexText 4 word.toNat ++ " at " ++ addressText pc

/-- Why a program could not be loaded. -/
inductive LoadFault where
  /-- The program has more bytes than there is room for. -/
  | tooLarge (size room : Nat)
  /-- The file with the program could not be read. -/
  | unreadable (path : String)
  deriving DecidableEq

/-- The wording of a load fault. -/
def LoadFault.message : LoadFault → String
  | tooLarge size room =>
    "ROM is too large (" ++ toString size ++ " bytes), max size is " ++ toString room ++ " bytes"
  | unreadable path => "Failed to read ROM file " ++ path

end ChipEight
