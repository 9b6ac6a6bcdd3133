import ChipEight.Memory
import ChipEight.NibbleTable

/-!
# Registers

Sixteen byte registers, the last of which is also the flag; the index register,
which points at data in memory; and the program counter.
-/

namespace ChipEight

/-- The contents of all registers. -/
structure Registers where
  /-- The sixteen byte registers. -/
  v : NibbleTable UInt8
  /-- The index register. -/
  i : Address
  /-- The program counter. -/
  pc : Address
  deriving DecidableEq

/-- What the flag register holds for a condition: one if it is met, else zero. -/
def flagByte (condition : Bool) : UInt8 := if condition then 1 else 0

namespace Registers

/-- All zero, except for the program counter, which is at the start of the program. -/
def initial : Registers := ⟨.replicate 0, .zero, Memory.programStart⟩

/-- Number of the register that holds carry, borrow and collision. -/
def flag : Nibble := .ofNat 15

/-- The byte in a register. -/
def get (r : Registers) (x : Nibble) : UInt8 := r.v.get x

/-- Stores a byte in a register. -/
def set (r : Registers) (x : Nibble) (value : UInt8) : Registers := { r with v := r.v.set x value }

/-- Tells in the flag register whether a condition is met. -/
def setFlag (r : Registers) (condition : Bool) : Registers := r.set flag (flagByte condition)

/-- Points the index register at the address that a word names. -/
def setIndex (r : Registers) (word : UInt16) : Registers := { r with i := .ofWord word }

/-- Continues at the address that a word names. -/
def setCounter (r : Registers) (word : UInt16) : Registers := { r with pc := .ofWord word }

/-- Moves the program counter past one instruction. -/
def advance (r : Registers) : Registers := { r with pc := r.pc.forward 2 }

/-- What was stored in a register is found there and no other byte register changes. -/
theorem get_set (r : Registers) (x y : Nibble) (value : UInt8) :
    (r.set x value).get y = if x = y then value else r.get y :=
  r.v.get_set x y value

end Registers

end ChipEight
