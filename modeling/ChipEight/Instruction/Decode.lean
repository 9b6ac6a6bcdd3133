import ChipEight.Instruction.Basic

/-!
# Instruction words

Each instruction is one 16-bit word. The top digit selects the family; `encode`
writes the word of an instruction and `decode` finds the instruction of a word.
Every word decodes: those outside the instruction set are unassigned.
-/

namespace ChipEight

namespace Alu

/-- The last digit of the word. -/
def digit : Alu → Nibble
  | copy => .ofNat 0x0
  | or => .ofNat 0x1
  | and => .ofNat 0x2
  | xor => .ofNat 0x3
  | add => .ofNat 0x4
  | sub => .ofNat 0x5
  | shiftRight => .ofNat 0x6
  | subFrom => .ofNat 0x7
  | shiftLeft => .ofNat 0xE

/-- The operation of a last digit, if it has one. -/
def ofDigit? : Nibble → Option Alu
  | 0x0 => some copy
  | 0x1 => some or
  | 0x2 => some and
  | 0x3 => some xor
  | 0x4 => some add
  | 0x5 => some sub
  | 0x6 => some shiftRight
  | 0x7 => some subFrom
  | 0xE => some shiftLeft
  | _ => none

/-- The digit of an operation names that operation. -/
@[simp] theorem ofDigit?_digit (op : Alu) : ofDigit? op.digit = some op := by
  cases op <;> rfl

end Alu

namespace Instruction

/-- The operands that a word can hold, whatever its instruction. -/
structure Fields where
  /-- The top digit. -/
  family : Nibble
  /-- The second digit. -/
  x : Nibble
  /-- The third digit. -/
  y : Nibble
  /-- The last digit. -/
  n : Nibble

/-- The four digits of a word. -/
def Fields.ofWord (word : UInt16) : Fields where
  family := ⟨word.toNat / 0x1000, by have := word.toNat_lt; omega⟩
  x := ⟨word.toNat / 0x100 % 16, by omega⟩
  y := ⟨word.toNat / 0x10 % 16, by omega⟩
  n := ⟨word.toNat % 16, by omega⟩

/-- Instructions of the family `8`. -/
def decodeCombine (word : UInt16) (x y n : Nibble) : Instruction :=
  match Alu.ofDigit? n with
  | some op => combine op x y
  | none => unassigned word

/-- Instructions of the family `F`, selected by the low byte. -/
def decodeMiscellaneous (word : UInt16) (x : Nibble) : Instruction :=
  match word.toNat % 0x100 with
  | 0x07 => readDelay x
  | 0x0A => awaitKey x
  | 0x15 => setDelay x
  | 0x18 => setSound x
  | 0x1E => addToIndex x
  | 0x29 => pointAtGlyph x
  | 0x33 => storeDecimal x
  | 0x55 => storeRegisters x
  | 0x65 => loadRegisters x
  | _ => unassigned word

/-- The instruction of a word. -/
def decode (word : UInt16) : Instruction :=
  let fields := Fields.ofWord word
  let x := fields.x
  let y := fields.y
  let n := fields.n
  let byte := word.toUInt8
  let target := Address.ofWord word
  match fields.family with
  | 0x0 =>
    if word = 0x00E0 then clearScreen
    else if word = 0x00EE then ret
    else unassigned word
  | 0x1 => jump target
  | 0x2 => call target
  | 0x3 => skipIfByte x byte
  | 0x4 => skipUnlessByte x byte
  | 0x5 => if n.val = 0 then skipIfSame x y else unassigned word
  | 0x6 => setByte x byte
  | 0x7 => addByte x byte
  | 0x8 => decodeCombine word x y n
  | 0x9 => if n.val = 0 then skipUnlessSame x y else unassigned word
  | 0xA => setIndex target
  | 0xB => jumpBy target
  | 0xC => random x byte
  | 0xD => draw x y n
  | 0xE =>
    if byte = 0x9E then skipIfHeld x
    else if byte = 0xA1 then skipUnlessHeld x
    else unassigned word
  | _ => decodeMiscellaneous word x

/-- The word with the given family and three low digits. -/
def wordOf (family : Nat) (low : Nat) : UInt16 := .ofNat (family * 0x1000 + low)

/-- The word with the given family, register and low byte. -/
def wordOfByte (family : Nat) (x : Nibble) (byte : UInt8) : UInt16 :=
  wordOf family (x.val * 0x100 + byte.toNat)

/-- The word with the given family, two registers and last digit. -/
def wordOfDigits (family : Nat) (x y n : Nibble) : UInt16 :=
  wordOf family (x.val * 0x100 + y.val * 0x10 + n.val)

/-- The word of an instruction. -/
def encode : Instruction → UInt16
  | clearScreen => 0x00E0
  | ret => 0x00EE
  | jump target => wordOf 0x1 target.val
  | call target => wordOf 0x2 target.val
  | skipIfByte x byte => wordOfByte 0x3 x byte
  | skipUnlessByte x byte => wordOfByte 0x4 x byte
  | skipIfSame x y => wordOfDigits 0x5 x y (.ofNat 0)
  | setByte x byte => wordOfByte 0x6 x byte
  | addByte x byte => wordOfByte 0x7 x byte
  | combine op x y => wordOfDigits 0x8 x y op.digit
  | skipUnlessSame x y => wordOfDigits 0x9 x y (.ofNat 0)
  | setIndex target => wordOf 0xA target.val
  | jumpBy target => wordOf 0xB target.val
  | random x mask => wordOfByte 0xC x mask
  | draw x y height => wordOfDigits 0xD x y height
  | skipIfHeld x => wordOfByte 0xE x 0x9E
  | skipUnlessHeld x => wordOfByte 0xE x 0xA1
  | readDelay x => wordOfByte 0xF x 0x07
  | awaitKey x => wordOfByte 0xF x 0x0A
  | setDelay x => wordOfByte 0xF x 0x15
  | setSound x => wordOfByte 0xF x 0x18
  | addToIndex x => wordOfByte 0xF x 0x1E
  | pointAtGlyph x => wordOfByte 0xF x 0x29
  | storeDecimal x => wordOfByte 0xF x 0x33
  | storeRegisters x => wordOfByte 0xF x 0x55
  | loadRegisters x => wordOfByte 0xF x 0x65
  | unassigned word => word

end Instruction

end ChipEight
