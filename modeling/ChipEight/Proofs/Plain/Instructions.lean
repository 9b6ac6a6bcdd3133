import ChipEight.Instruction.Decode
import ChipEight.Proofs.Plain.Parts
import Mathlib.Logic.Basic

/-!
# Instructions in plain words

Here the operands of an instruction are bytes and words. A word is decoded by masking and
shifting its four digits out of it; each digit that can become an operand is checked. The
instruction that this gives is always the plain form of the one that the machine decodes.
-/

namespace ChipEight

open ChipEight.Instruction (Fields)

namespace Plain

/-- One instruction with its operands. -/
inductive Instruction where
  /-- `00E0`: clear the screen. -/
  | clearScreen
  /-- `00EE`: return from a subroutine. -/
  | ret
  /-- `1NNN`: continue at an address. -/
  | jump (target : UInt16)
  /-- `2NNN`: call the subroutine at an address. -/
  | call (target : UInt16)
  /-- `3XNN`: skip the next instruction if a register equals a byte. -/
  | skipIfByte (x byte : UInt8)
  /-- `4XNN`: skip the next instruction unless a register equals a byte. -/
  | skipUnlessByte (x byte : UInt8)
  /-- `5XY0`: skip the next instruction if two registers are equal. -/
  | skipIfSame (x y : UInt8)
  /-- `6XNN`: store a byte in a register. -/
  | setByte (x byte : UInt8)
  /-- `7XNN`: add a byte to a register, without carry. -/
  | addByte (x byte : UInt8)
  /-- `8XYN`: combine two registers. -/
  | combine (op : Alu) (x y : UInt8)
  /-- `9XY0`: skip the next instruction unless two registers are equal. -/
  | skipUnlessSame (x y : UInt8)
  /-- `ANNN`: point the index register at an address. -/
  | setIndex (target : UInt16)
  /-- `BNNN`: continue at an address plus a register. -/
  | jumpBy (x : UInt8) (target : UInt16)
  /-- `CXNN`: store a random byte, masked, in a register. -/
  | random (x mask : UInt8)
  /-- `DXYN`: draw the sprite at the index register. -/
  | draw (x y height : UInt8)
  /-- `EX9E`: skip the next instruction if the key in a register is held. -/
  | skipIfHeld (x : UInt8)
  /-- `EXA1`: skip the next instruction unless the key in a register is held. -/
  | skipUnlessHeld (x : UInt8)
  /-- `FX07`: read the delay timer. -/
  | readDelay (x : UInt8)
  /-- `FX0A`: wait until a key is pressed and released. -/
  | awaitKey (x : UInt8)
  /-- `FX15`: set the delay timer. -/
  | setDelay (x : UInt8)
  /-- `FX18`: set the sound timer. -/
  | setSound (x : UInt8)
  /-- `FX1E`: add a register to the index register. -/
  | addToIndex (x : UInt8)
  /-- `FX29`: point the index register at the glyph for a digit. -/
  | pointAtGlyph (x : UInt8)
  /-- `FX33`: store the three decimal digits of a register. -/
  | storeDecimal (x : UInt8)
  /-- `FX55`: store the registers up to one of them in memory. -/
  | storeRegisters (x : UInt8)
  /-- `FX65`: load the registers up to one of them from memory. -/
  | loadRegisters (x : UInt8)
  /-- A word that stands for no instruction. -/
  | unassigned (word : UInt16)

/-- The plain form of an instruction. -/
def ofInstruction : ChipEight.Instruction → Instruction
  | .clearScreen => .clearScreen
  | .ret => .ret
  | .jump target => .jump target.toWord
  | .call target => .call target.toWord
  | .skipIfByte x byte => .skipIfByte x.toByte byte
  | .skipUnlessByte x byte => .skipUnlessByte x.toByte byte
  | .skipIfSame x y => .skipIfSame x.toByte y.toByte
  | .setByte x byte => .setByte x.toByte byte
  | .addByte x byte => .addByte x.toByte byte
  | .combine op x y => .combine op x.toByte y.toByte
  | .skipUnlessSame x y => .skipUnlessSame x.toByte y.toByte
  | .setIndex target => .setIndex target.toWord
  | .jumpBy target => .jumpBy (ChipEight.Instruction.topDigit target).toByte target.toWord
  | .random x mask => .random x.toByte mask
  | .draw x y height => .draw x.toByte y.toByte height.toByte
  | .skipIfHeld x => .skipIfHeld x.toByte
  | .skipUnlessHeld x => .skipUnlessHeld x.toByte
  | .readDelay x => .readDelay x.toByte
  | .awaitKey x => .awaitKey x.toByte
  | .setDelay x => .setDelay x.toByte
  | .setSound x => .setSound x.toByte
  | .addToIndex x => .addToIndex x.toByte
  | .pointAtGlyph x => .pointAtGlyph x.toByte
  | .storeDecimal x => .storeDecimal x.toByte
  | .storeRegisters x => .storeRegisters x.toByte
  | .loadRegisters x => .loadRegisters x.toByte
  | .unassigned word => .unassigned word

/-- The operation of the last digit of `8XYN`. -/
def alu? (n : UInt8) : Option Alu :=
  match n.toNat with
  | 0x0 => some .copy
  | 0x1 => some .or
  | 0x2 => some .and
  | 0x3 => some .xor
  | 0x4 => some .add
  | 0x5 => some .sub
  | 0x6 => some .shiftRight
  | 0x7 => some .subFrom
  | 0xE => some .shiftLeft
  | _ => none

/-- Instructions of the family `F`, selected by the last two digits. -/
def miscellaneous (word : UInt16) (x y n : UInt8) : Instruction :=
  match y.toNat, n.toNat with
  | 0x0, 0x7 => .readDelay x
  | 0x0, 0xA => .awaitKey x
  | 0x1, 0x5 => .setDelay x
  | 0x1, 0x8 => .setSound x
  | 0x1, 0xE => .addToIndex x
  | 0x2, 0x9 => .pointAtGlyph x
  | 0x3, 0x3 => .storeDecimal x
  | 0x5, 0x5 => .storeRegisters x
  | 0x6, 0x5 => .loadRegisters x
  | _, _ => .unassigned word

/-- The instruction with the given digits. -/
def ofDigits (word : UInt16) (top x y n : UInt8) : Instruction :=
  let byte := (word &&& 0x00FF).toUInt8
  let target := word &&& 0x0FFF
  match top.toNat with
  | 0x0 =>
    if x = 0x0 ∧ y = 0xE ∧ n = 0x0 then .clearScreen
    else if x = 0x0 ∧ y = 0xE ∧ n = 0xE then .ret
    else .unassigned word
  | 0x1 => .jump target
  | 0x2 => .call target
  | 0x3 => .skipIfByte x byte
  | 0x4 => .skipUnlessByte x byte
  | 0x5 => if n = 0x0 then .skipIfSame x y else .unassigned word
  | 0x6 => .setByte x byte
  | 0x7 => .addByte x byte
  | 0x8 =>
    match alu? n with
    | some op => .combine op x y
    | none => .unassigned word
  | 0x9 => if n = 0x0 then .skipUnlessSame x y else .unassigned word
  | 0xA => .setIndex target
  | 0xB => .jumpBy x target
  | 0xC => .random x byte
  | 0xD => .draw x y n
  | 0xE =>
    if y = 0x9 ∧ n = 0xE then .skipIfHeld x
    else if y = 0xA ∧ n = 0x1 then .skipUnlessHeld x
    else .unassigned word
  | 0xF => miscellaneous word x y n
  | _ => .unassigned word

/-- The instruction of a word. The three low digits have to be digits. -/
def decode (word : UInt16) : Option Instruction := do
  let x ← digit ((word &&& 0x0F00) >>> 8).toUInt8
  let y ← digit ((word &&& 0x00F0) >>> 4).toUInt8
  let n ← digit (word &&& 0x000F).toUInt8
  some (ofDigits word ((word &&& 0xF000) >>> 12).toUInt8 x y n)

/-- A digit that is masked and shifted out of a word. -/
theorem toUInt8_masked {word mask shift : UInt16} {x : Nibble} (hshift : shift.toNat < 16)
    (hmask : mask.toNat >>> shift.toNat = 15)
    (h : x.val = (word.toNat >>> shift.toNat) % 16) :
    ((word &&& mask) >>> shift).toUInt8 = x.toByte := by
  have hlow := Nat.and_two_pow_sub_one_eq_mod (word.toNat >>> shift.toNat) 4
  change word.toNat >>> shift.toNat &&& 15 = _ at hlow
  apply UInt8.toNat_inj.1
  rw [UInt16.toNat_toUInt8, UInt16.toNat_shiftRight, UInt16.toNat_and, Nat.mod_eq_of_lt hshift,
    Nat.shiftRight_and_distrib, hmask, x.toNat_toByte, h, hlow]
  omega

section digits

variable (word : UInt16)

/-- The four digits of a word. -/
theorem masked_digits :
    ((word &&& 0xF000) >>> 12).toUInt8 = (Fields.ofWord word).family.toByte ∧
      ((word &&& 0x0F00) >>> 8).toUInt8 = (Fields.ofWord word).x.toByte ∧
      ((word &&& 0x00F0) >>> 4).toUInt8 = (Fields.ofWord word).y.toByte ∧
      (word &&& 0x000F).toUInt8 = (Fields.ofWord word).n.toByte := by
  have hlt := word.toNat_lt
  have hlast : (word &&& 0x000F).toUInt8 = ((word &&& 0x000F) >>> 0).toUInt8 := by
    rw [UInt16.shiftRight_zero]
  rw [hlast]
  refine ⟨toUInt8_masked (by decide) (by decide) ?_, toUInt8_masked (by decide) (by decide) ?_,
    toUInt8_masked (by decide) (by decide) ?_, toUInt8_masked (by decide) (by decide) ?_⟩
  all_goals
    simp only [Fields.ofWord, Nat.shiftRight_eq_div_pow]
  · change word.toNat / 0x1000 = word.toNat / 0x1000 % 16
    omega
  · rfl
  · rfl
  · change word.toNat % 16 = word.toNat / 1 % 16
    omega

/-- The low byte of a word. -/
theorem masked_byte : (word &&& 0x00FF).toUInt8 = word.toUInt8 := by
  apply UInt8.toNat_inj.1
  have hlow := Nat.and_two_pow_sub_one_eq_mod word.toNat 8
  change word.toNat &&& 255 = _ at hlow
  rw [UInt16.toNat_toUInt8, UInt16.toNat_toUInt8, UInt16.toNat_and]
  change (word.toNat &&& 255) % 256 = _
  rw [hlow]
  omega

/-- The low byte of a word is made of its last two digits. -/
theorem toUInt8_eq_iff {value : UInt8} : word.toUInt8 = value ↔
    16 * (Fields.ofWord word).y.val + (Fields.ofWord word).n.val = value.toNat := by
  rw [← UInt8.toNat_inj, UInt16.toNat_toUInt8]
  simp only [Fields.ofWord]
  omega

/-- A word of the family `0` is made of its last three digits. -/
theorem eq_iff_of_family_zero (h : (Fields.ofWord word).family.val = 0) {value : UInt16} :
    word = value ↔ 256 * (Fields.ofWord word).x.val + 16 * (Fields.ofWord word).y.val +
      (Fields.ofWord word).n.val = value.toNat := by
  rw [← UInt16.toNat_inj]
  simp only [Fields.ofWord] at h ⊢
  omega

end digits

/-- The byte of a digit is a given one if the digit is. -/
theorem toByte_eq_iff (x : Nibble) {value : UInt8} : x.toByte = value ↔ x.val = value.toNat := by
  rw [← UInt8.toNat_inj, x.toNat_toByte]

/-- The operation of a last digit. -/
theorem alu?_toByte : ∀ n : Nibble, alu? n.toByte = Alu.ofDigit? n := by decide

/-- The register digit of a jump by a register. -/
theorem topDigit_ofWord (word : UInt16) :
    ChipEight.Instruction.topDigit (.ofWord word) = (Fields.ofWord word).x := by
  apply Fin.ext
  change word.toNat % 4096 / 256 = word.toNat / 0x100 % 16
  omega

section families

variable {word : UInt16}

/-- Instructions of the family `0`. -/
theorem ofDigits_family_zero (h : (Fields.ofWord word).family.val = 0) :
    (if (Fields.ofWord word).x.toByte = 0x0 ∧ (Fields.ofWord word).y.toByte = 0xE ∧
        (Fields.ofWord word).n.toByte = 0x0 then Instruction.clearScreen
      else if (Fields.ofWord word).x.toByte = 0x0 ∧ (Fields.ofWord word).y.toByte = 0xE ∧
        (Fields.ofWord word).n.toByte = 0xE then .ret
      else .unassigned word) =
    ofInstruction (if word = 0x00E0 then .clearScreen else if word = 0x00EE then .ret
      else .unassigned word) := by
  have hx := (Fields.ofWord word).x.isLt
  have hy := (Fields.ofWord word).y.isLt
  have hn := (Fields.ofWord word).n.isLt
  have hclear : ((Fields.ofWord word).x.toByte = 0x0 ∧ (Fields.ofWord word).y.toByte = 0xE ∧
      (Fields.ofWord word).n.toByte = 0x0) ↔ word = 0x00E0 := by
    rw [eq_iff_of_family_zero word h, toByte_eq_iff, toByte_eq_iff, toByte_eq_iff]
    change (_ = 0 ∧ _ = 14 ∧ _ = 0) ↔ _ = 224
    omega
  have hret : ((Fields.ofWord word).x.toByte = 0x0 ∧ (Fields.ofWord word).y.toByte = 0xE ∧
      (Fields.ofWord word).n.toByte = 0xE) ↔ word = 0x00EE := by
    rw [eq_iff_of_family_zero word h, toByte_eq_iff, toByte_eq_iff, toByte_eq_iff]
    change (_ = 0 ∧ _ = 14 ∧ _ = 14) ↔ _ = 238
    omega
  rw [apply_ite ofInstruction, apply_ite ofInstruction]
  exact if_congr hclear rfl (if_congr hret rfl rfl)

/-- Instructions of the families `5` and `9`, whose last digit has to be zero. -/
theorem ofDigits_last_zero (i : ChipEight.Instruction) :
    (if (Fields.ofWord word).n.toByte = 0x0 then ofInstruction i else .unassigned word) =
      ofInstruction (if (Fields.ofWord word).n.val = 0 then i else .unassigned word) := by
  rw [apply_ite ofInstruction]
  exact if_congr (toByte_eq_iff _) rfl rfl

/-- Instructions of the family `8`. -/
theorem ofDigits_combine :
    (match alu? (Fields.ofWord word).n.toByte with
      | some op => Instruction.combine op (Fields.ofWord word).x.toByte
          (Fields.ofWord word).y.toByte
      | none => .unassigned word) =
    ofInstruction (.decodeCombine word (Fields.ofWord word).x (Fields.ofWord word).y
      (Fields.ofWord word).n) := by
  rw [alu?_toByte, ChipEight.Instruction.decodeCombine]
  cases Alu.ofDigit? (Fields.ofWord word).n <;> rfl

/-- Instructions of the family `E`. -/
theorem ofDigits_keySkip :
    (if (Fields.ofWord word).y.toByte = 0x9 ∧ (Fields.ofWord word).n.toByte = 0xE then
        Instruction.skipIfHeld (Fields.ofWord word).x.toByte
      else if (Fields.ofWord word).y.toByte = 0xA ∧ (Fields.ofWord word).n.toByte = 0x1 then
        .skipUnlessHeld (Fields.ofWord word).x.toByte
      else .unassigned word) =
    ofInstruction (if word.toUInt8 = 0x9E then .skipIfHeld (Fields.ofWord word).x
      else if word.toUInt8 = 0xA1 then .skipUnlessHeld (Fields.ofWord word).x
      else .unassigned word) := by
  have hy := (Fields.ofWord word).y.isLt
  have hn := (Fields.ofWord word).n.isLt
  have hheld : ((Fields.ofWord word).y.toByte = 0x9 ∧ (Fields.ofWord word).n.toByte = 0xE) ↔
      word.toUInt8 = 0x9E := by
    rw [toUInt8_eq_iff, toByte_eq_iff, toByte_eq_iff]
    change (_ = 9 ∧ _ = 14) ↔ _ = 158
    omega
  have hfree : ((Fields.ofWord word).y.toByte = 0xA ∧ (Fields.ofWord word).n.toByte = 0x1) ↔
      word.toUInt8 = 0xA1 := by
    rw [toUInt8_eq_iff, toByte_eq_iff, toByte_eq_iff]
    change (_ = 10 ∧ _ = 1) ↔ _ = 161
    omega
  rw [apply_ite ofInstruction, apply_ite ofInstruction]
  exact if_congr hheld rfl (if_congr hfree rfl rfl)

/-- Instructions of the family `F`. -/
theorem miscellaneous_fields :
    miscellaneous word (Fields.ofWord word).x.toByte (Fields.ofWord word).y.toByte
      (Fields.ofWord word).n.toByte =
    ofInstruction (.decodeMiscellaneous word (Fields.ofWord word).x) := by
  have hlow : word.toNat % 0x100 =
      16 * (Fields.ofWord word).y.val + (Fields.ofWord word).n.val := by
    simp only [Fields.ofWord]
    omega
  rw [miscellaneous, ChipEight.Instruction.decodeMiscellaneous, Nibble.toNat_toByte,
    Nibble.toNat_toByte, hlow]
  have hy := (Fields.ofWord word).y.isLt
  have hn := (Fields.ofWord word).n.isLt
  generalize (Fields.ofWord word).y.val = y at hy ⊢
  generalize (Fields.ofWord word).n.val = n at hn ⊢
  split
  case h_10 =>
    -- No pair of digits is left that makes one of the nine low bytes.
    split
    case h_10 => rfl
    all_goals
      next hbyte => grind
  all_goals rfl

end families

/-- The instruction of the digits of a word. -/
theorem ofDigits_fields (word : UInt16) :
    ofDigits word (Fields.ofWord word).family.toByte (Fields.ofWord word).x.toByte
      (Fields.ofWord word).y.toByte (Fields.ofWord word).n.toByte =
        ofInstruction (.decode word) := by
  obtain ⟨i, hi⟩ : ∃ i, i = ChipEight.Instruction.decode word := ⟨_, rfl⟩
  rw [← hi]
  unfold ChipEight.Instruction.decode at hi
  dsimp only at hi
  unfold ofDigits
  rw [masked_byte, ← Address.toWord_ofWord]
  dsimp only
  split at hi
  case h_1 hfamily =>
    rw [hfamily, hi]
    exact ofDigits_family_zero (congrArg Fin.val hfamily)
  case h_6 hfamily =>
    rw [hfamily, hi]
    exact ofDigits_last_zero (.skipIfSame (Fields.ofWord word).x (Fields.ofWord word).y)
  case h_9 hfamily =>
    rw [hfamily, hi]
    exact ofDigits_combine
  case h_10 hfamily =>
    rw [hfamily, hi]
    exact ofDigits_last_zero (.skipUnlessSame (Fields.ofWord word).x (Fields.ofWord word).y)
  case h_12 hfamily =>
    rw [hfamily, hi, ofInstruction, topDigit_ofWord]
    rfl
  case h_15 hfamily =>
    rw [hfamily, hi]
    exact ofDigits_keySkip
  case h_16 =>
    have hfamily : (Fields.ofWord word).family = 0xF := by grind
    rw [hfamily, hi]
    exact miscellaneous_fields
  all_goals
    next hfamily =>
      rw [hfamily, hi]
      rfl

/-- Decoding agrees. -/
theorem decode_eq (word : UInt16) : decode word = some (ofInstruction (.decode word)) := by
  obtain ⟨htop, hx, hy, hn⟩ := masked_digits word
  rw [decode, htop, hx, hy, hn, digit_toByte, digit_toByte, digit_toByte]
  exact congrArg some (ofDigits_fields word)

end Plain

end ChipEight
