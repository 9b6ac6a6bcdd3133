import ChipEight.Instruction.Basic

/-!
# Names of instructions

How instructions are shown: a name, and the operands with their labels. Operands
that are digits and operands that are plain numbers are written differently.
-/

namespace ChipEight

/-- The name of an operation. -/
def Alu.name : Alu → String
  | copy => "Set"
  | or => "Or"
  | and => "And"
  | xor => "Xor"
  | add => "Add"
  | sub => "Sub"
  | shiftRight => "ShiftRight"
  | subFrom => "SubReverse"
  | shiftLeft => "ShiftLeft"

/-- An operand as it is shown. -/
inductive Operand where
  /-- A register number or another single digit. -/
  | digit (n : Nibble)
  /-- A byte or an address. -/
  | number (n : Nat)
  /-- An operation on two registers. -/
  | operation (op : Alu)

/-- Text of an operand. -/
def Operand.text : Operand → String
  | digit n => "u4(" ++ toString n.val ++ ")"
  | number n => toString n
  | operation op => op.name

namespace Instruction

/-- The name of an instruction. -/
def name : Instruction → String
  | clearScreen => "ClearDisplay"
  | ret => "Return"
  | jump _ => "Jump"
  | call _ => "Call"
  | skipIfByte _ _ => "SkipRegEqualImm"
  | skipUnlessByte _ _ => "SkipRegNotEqualImm"
  | skipIfSame _ _ => "SkipRegEqualReg"
  | setByte _ _ => "SetRegImm"
  | addByte _ _ => "AddRegImm"
  | combine _ _ _ => "ALU"
  | skipUnlessSame _ _ => "SkipRegNotEqualReg"
  | setIndex _ => "SetIndexImm"
  | jumpBy _ => "JumpWithOffset"
  | random _ _ => "Random"
  | draw _ _ _ => "Draw"
  | skipIfHeld _ => "SkipIfPressed"
  | skipUnlessHeld _ => "SkipIfNotPressed"
  | readDelay _ => "ReadDelayTimer"
  | awaitKey _ => "WaitForKey"
  | setDelay _ => "SetDelayTimer"
  | setSound _ => "SetSoundTimer"
  | addToIndex _ => "AddIndexReg"
  | pointAtGlyph _ => "FontChar"
  | storeDecimal _ => "BCD"
  | storeRegisters _ => "StoreRegs"
  | loadRegisters _ => "LoadRegs"
  | unassigned _ => "Unknown"

/-- The operands of an instruction with their labels, in the order in which they are
shown. An unassigned word has none: it is shown by itself. -/
def operands : Instruction → List (String × Operand)
  | clearScreen | ret | unassigned _ => []
  | jump target | call target | setIndex target => [("nnn", .number target.val)]
  | jumpBy target => [("x", .digit (topDigit target)), ("nnn", .number target.val)]
  | skipIfByte x byte | skipUnlessByte x byte | setByte x byte | addByte x byte
  | random x byte => [("x", .digit x), ("nn", .number byte.toNat)]
  | skipIfSame x y | skipUnlessSame x y => [("x", .digit x), ("y", .digit y)]
  | combine op x y => [("x", .digit x), ("y", .digit y), ("op", .operation op)]
  | draw x y height => [("x", .digit x), ("y", .digit y), ("n", .digit height)]
  | skipIfHeld x | skipUnlessHeld x | readDelay x | awaitKey x | setDelay x | setSound x
  | addToIndex x | pointAtGlyph x | storeDecimal x | storeRegisters x
  | loadRegisters x => [("x", .digit x)]

/-- Text of an instruction in the log. -/
def text (i : Instruction) : String :=
  match i, i.operands with
  | unassigned word, _ => i.name ++ "(" ++ toString word.toNat ++ ")"
  | _, [] => i.name
  | _, operands =>
    i.name ++ " \x7b " ++
      ", ".intercalate (operands.map fun (label, operand) => label ++ ": " ++ operand.text) ++
      " \x7d"

end Instruction

end ChipEight
