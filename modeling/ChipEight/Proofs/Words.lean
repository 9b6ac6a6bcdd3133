import ChipEight.Proofs.Forms
import ChipEight.Proofs.Steps

/-!
# Words and their instructions

The word of an instruction is decoded to this instruction, whatever its operands are: the digits of
a word are those that it was made of, its family selects the instruction, and the operands are read
back from the other digits. So a machine that has the word at its program counter carries out the
instruction, and what the next step does to it can be told from the instruction alone.
-/

namespace ChipEight

namespace Instruction

section fields

/-- The number that a word stands for whose family and other digits are given. -/
theorem toNat_wordOf (family low : Nat) :
    (wordOf family low).toNat = (family * 0x1000 + low) % 0x10000 :=
  UInt16.toNat_ofNat'

/-- A word has the family that it was made of. -/
theorem family_wordOf {family low : Nat} (hfamily : family < 0x10) (hlow : low < 0x1000) :
    (Fields.ofWord (wordOf family low)).family = ⟨family, hfamily⟩ := by
  apply Fin.ext
  simp only [Fields.ofWord, toNat_wordOf]
  omega

/-- A word made of an address names this address. -/
theorem ofWord_wordOf (family : Nat) (target : Address) :
    Address.ofWord (wordOf family target.val) = target := by
  have htarget := target.isLt
  apply Fin.ext
  simp only [Address.ofWord, toNat_wordOf]
  omega

variable (family : Nat) (x : Nibble) (byte : UInt8)

/-- A word made of a register and a byte has the family that it was made of. -/
theorem family_wordOfByte {family : Nat} (hfamily : family < 0x10) :
    (Fields.ofWord (wordOfByte family x byte)).family = ⟨family, hfamily⟩ := by
  have hx := x.isLt
  have hbyte := byte.toNat_lt
  exact family_wordOf hfamily (by omega)

/-- A word made of a register and a byte has this register for its second digit. -/
theorem x_wordOfByte : (Fields.ofWord (wordOfByte family x byte)).x = x := by
  have hx := x.isLt
  have hbyte := byte.toNat_lt
  apply Fin.ext
  simp only [Fields.ofWord, wordOfByte, toNat_wordOf]
  omega

/-- A word made of a register and a byte has this byte for its low half. -/
theorem low_wordOfByte : (wordOfByte family x byte).toNat % 0x100 = byte.toNat := by
  have hbyte := byte.toNat_lt
  simp only [wordOfByte, toNat_wordOf]
  omega

/-- The low byte of a word made of a register and a byte is this byte. -/
theorem toUInt8_wordOfByte : (wordOfByte family x byte).toUInt8 = byte := by
  rw [← UInt8.toNat_inj, UInt16.toNat_toUInt8]
  exact low_wordOfByte family x byte

/-- A word made of digits has these digits. -/
theorem fields_wordOfDigits {family : Nat} (hfamily : family < 0x10) (x y n : Nibble) :
    Fields.ofWord (wordOfDigits family x y n) = ⟨⟨family, hfamily⟩, x, y, n⟩ := by
  have hx := x.isLt
  have hy := y.isLt
  have hn := n.isLt
  simp only [Fields.ofWord, wordOfDigits, toNat_wordOf, Fields.mk.injEq, Fin.ext_iff]
  omega

end fields

/-- Words of the family `F` are told apart by their low byte. -/
theorem decode_wordOfByte_miscellaneous (x : Nibble) (byte : UInt8) :
    decode (wordOfByte 0xF x byte) = decodeMiscellaneous (wordOfByte 0xF x byte) x := by
  rw [decode, family_wordOfByte x byte (by decide), x_wordOfByte]
  rfl

/-- The word of an instruction is decoded to this instruction. -/
theorem decode_encode {i : Instruction} (h : i.form?.isSome = true) : decode (encode i) = i := by
  cases i with
  | unassigned word => cases h
  | clearScreen | ret => rfl
  | jump target | call target | setIndex target | jumpBy target =>
    rw [encode, decode, family_wordOf (by decide) target.isLt, ofWord_wordOf]
    rfl
  | skipIfByte x byte | skipUnlessByte x byte | setByte x byte | addByte x byte | random x byte =>
    rw [encode, decode, family_wordOfByte x byte (by decide), x_wordOfByte, toUInt8_wordOfByte]
    rfl
  | skipIfSame x y | skipUnlessSame x y | draw x y n =>
    rw [encode, decode, fields_wordOfDigits (by decide)]
    rfl
  | combine op x y =>
    rw [encode, decode, fields_wordOfDigits (by decide)]
    change decodeCombine _ x y op.digit = combine op x y
    rw [decodeCombine, Alu.ofDigit?_digit]
  | skipIfHeld x | skipUnlessHeld x =>
    rw [encode, decode, family_wordOfByte x _ (by decide), x_wordOfByte, toUInt8_wordOfByte]
    rfl
  | readDelay x | awaitKey x | setDelay x | setSound x | addToIndex x | pointAtGlyph x
  | storeDecimal x | storeRegisters x | loadRegisters x =>
    rw [encode, decode_wordOfByte_miscellaneous, decodeMiscellaneous, low_wordOfByte]
    rfl

end Instruction

namespace Machine

/-- The machine is about to carry out an instruction: it waits for no key, and the word at its
program counter is that of the instruction. -/
structure Faces (m : Machine) (i : Instruction) : Prop where
  /-- The machine waits for no key. -/
  ready : m.keyWait = none
  /-- The word at the program counter. -/
  word : m.fetch = i.encode

/-- With the word of an instruction stored at its program counter, a machine that waits for no key
is about to carry out this instruction. -/
theorem faces_facing {m : Machine} (hready : m.keyWait = none) (i : Instruction) :
    (m.facing i.encode).Faces i :=
  ⟨hready, m.fetch_facing i.encode⟩

/-- The instruction that a machine is about to carry out is that at its program counter. -/
theorem Faces.instruction_eq {m : Machine} {i : Instruction} (h : m.Faces i)
    (hform : i.form?.isSome = true) : m.instruction = i := by
  rw [instruction, h.word, Instruction.decode_encode hform]

/-- The next step carries out the instruction, if this does not fail. -/
theorem Faces.step_eq {m : Machine} {i : Instruction} {signal : Signal} (h : m.Faces i)
    (hform : i.form?.isSome = true) (hout : (m.execute m.pc i).outcome = .ok signal) :
    m.step.outcome = .ok signal ∧ m.step.machine = (m.execute m.pc i).machine :=
  step_of_instruction h.ready (h.instruction_eq hform) hout

end Machine

end ChipEight
