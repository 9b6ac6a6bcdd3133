import ChipEight.Address

/-!
# Instructions

The CHIP-8 instruction set. Operands are typed by what they can be: register and key
numbers are digits, jump targets are addresses. In comments `X` and `Y` stand for
register digits, `N` for a digit, `NN` for a byte and `NNN` for an address.
-/

namespace ChipEight

/-- Operations on two registers, the last digit of `8XYN`. -/
inductive Alu where
  /-- `8XY0`: copy. -/
  | copy
  /-- `8XY1`: bitwise or. -/
  | or
  /-- `8XY2`: bitwise and. -/
  | and
  /-- `8XY3`: bitwise exclusive or. -/
  | xor
  /-- `8XY4`: sum, with carry. -/
  | add
  /-- `8XY5`: first less second, flagged unless it borrows. -/
  | sub
  /-- `8XY6`: shift right by one bit. -/
  | shiftRight
  /-- `8XY7`: second less first, flagged unless it borrows. -/
  | subFrom
  /-- `8XYE`: shift left by one bit. -/
  | shiftLeft
  deriving DecidableEq

/-- One instruction with its operands. -/
inductive Instruction where
  /-- `00E0`: clear the screen. -/
  | clearScreen
  /-- `00EE`: return from a subroutine. -/
  | ret
  /-- `1NNN`: continue at an address. -/
  | jump (target : Address)
  /-- `2NNN`: call the subroutine at an address. -/
  | call (target : Address)
  /-- `3XNN`: skip the next instruction if a register equals a byte. -/
  | skipIfByte (x : Nibble) (byte : UInt8)
  /-- `4XNN`: skip the next instruction unless a register equals a byte. -/
  | skipUnlessByte (x : Nibble) (byte : UInt8)
  /-- `5XY0`: skip the next instruction if two registers are equal. -/
  | skipIfSame (x y : Nibble)
  /-- `6XNN`: store a byte in a register. -/
  | setByte (x : Nibble) (byte : UInt8)
  /-- `7XNN`: add a byte to a register, without carry. -/
  | addByte (x : Nibble) (byte : UInt8)
  /-- `8XYN`: combine two registers. -/
  | combine (op : Alu) (x y : Nibble)
  /-- `9XY0`: skip the next instruction unless two registers are equal. -/
  | skipUnlessSame (x y : Nibble)
  /-- `ANNN`: point the index register at an address. -/
  | setIndex (target : Address)
  /-- `BNNN`: continue at an address plus a register. -/
  | jumpBy (target : Address)
  /-- `CXNN`: store a random byte, masked, in a register. -/
  | random (x : Nibble) (mask : UInt8)
  /-- `DXYN`: draw the sprite at the index register. -/
  | draw (x y height : Nibble)
  /-- `EX9E`: skip the next instruction if the key in a register is held. -/
  | skipIfHeld (x : Nibble)
  /-- `EXA1`: skip the next instruction unless the key in a register is held. -/
  | skipUnlessHeld (x : Nibble)
  /-- `FX07`: read the delay timer. -/
  | readDelay (x : Nibble)
  /-- `FX0A`: wait until a key is pressed and released. -/
  | awaitKey (x : Nibble)
  /-- `FX15`: set the delay timer. -/
  | setDelay (x : Nibble)
  /-- `FX18`: set the sound timer. -/
  | setSound (x : Nibble)
  /-- `FX1E`: add a register to the index register. -/
  | addToIndex (x : Nibble)
  /-- `FX29`: point the index register at the glyph for a digit. -/
  | pointAtGlyph (x : Nibble)
  /-- `FX33`: store the three decimal digits of a register. -/
  | storeDecimal (x : Nibble)
  /-- `FX55`: store the registers up to one of them in memory. -/
  | storeRegisters (x : Nibble)
  /-- `FX65`: load the registers up to one of them from memory. -/
  | loadRegisters (x : Nibble)
  /-- A word that stands for no instruction. -/
  | unassigned (word : UInt16)
  deriving DecidableEq

/-- The register digit of `BXNN`, which is also the top digit of its address. -/
def Instruction.topDigit (target : Address) : Nibble := ⟨target.val / 256, by omega⟩

end ChipEight
