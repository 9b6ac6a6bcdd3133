import ChipEight.Proofs.Plain.Safety
import ChipEight.Proofs.Words

/-!
# Words and instructions correspond

Decoding loses nothing: the word of the instruction that a word is decoded to is this word. It
invents nothing either: the word of an instruction is decoded to this instruction, with the one
exception of an unassigned word that does stand for an instruction. So decoding and encoding are
inverse to each other, no two words have the same instruction, and no two instructions or choices of
operands share a word.

In plain words, instructions can have operands that no word can hold: digits above 15, addresses
above `0xFFF`, and a jump by a register that is not the top digit of its address. Those without such
operands are the ones that correspond to words.
-/

namespace ChipEight

namespace Instruction

section parts

variable (word : UInt16)

/-- A word is made of its family and of the address that it names. -/
theorem wordOf_ofWord :
    wordOf (Fields.ofWord word).family.val (Address.ofWord word).val = word := by
  have hlt := word.toNat_lt
  rw [← UInt16.toNat_inj, toNat_wordOf]
  simp only [Fields.ofWord, Address.ofWord]
  omega

/-- A word is made of its family, its second digit and its low byte. -/
theorem wordOfByte_ofWord {byte : UInt8} (h : word.toNat % 0x100 = byte.toNat) :
    wordOfByte (Fields.ofWord word).family.val (Fields.ofWord word).x byte = word := by
  have hlt := word.toNat_lt
  rw [← UInt16.toNat_inj, wordOfByte, toNat_wordOf, ← h]
  simp only [Fields.ofWord]
  omega

/-- A word is made of its digits. -/
theorem wordOfDigits_ofWord : wordOfDigits (Fields.ofWord word).family.val
    (Fields.ofWord word).x (Fields.ofWord word).y (Fields.ofWord word).n = word := by
  have hlt := word.toNat_lt
  rw [← UInt16.toNat_inj, wordOfDigits, toNat_wordOf]
  simp only [Fields.ofWord]
  omega

end parts

section families

variable {word : UInt16}

/-- The word of an instruction of the family `8` is the word that it was decoded from. -/
theorem encode_decodeCombine (hfamily : (Fields.ofWord word).family = 0x8) :
    encode (decodeCombine word (Fields.ofWord word).x (Fields.ofWord word).y
      (Fields.ofWord word).n) = word := by
  have hword := wordOfDigits_ofWord word
  rw [hfamily] at hword
  unfold decodeCombine
  split
  · next op hop => rwa [encode, digit_of_ofDigit? hop]
  · rfl

/-- The word of an instruction of the family `F` is the word that it was decoded from. -/
theorem encode_decodeMiscellaneous (hfamily : (Fields.ofWord word).family = 0xF) :
    encode (decodeMiscellaneous word (Fields.ofWord word).x) = word := by
  have hword : ∀ {byte : UInt8}, word.toNat % 0x100 = byte.toNat →
      wordOfByte 0xF (Fields.ofWord word).x byte = word := by
    intro byte hlow
    have hparts := wordOfByte_ofWord word hlow
    rwa [hfamily] at hparts
  unfold decodeMiscellaneous
  split
  case h_10 => rfl
  all_goals
    next hlow => exact hword hlow

end families

/-- The word of the instruction that a word is decoded to is this word. -/
theorem encode_decode (word : UInt16) : encode (decode word) = word := by
  have haddress := wordOf_ofWord word
  have hbyte := wordOfByte_ofWord word (UInt16.toNat_toUInt8 word).symm
  have hdigits := wordOfDigits_ofWord word
  unfold decode
  dsimp only
  split
  case h_1 =>
    split
    · next hword => exact hword.symm
    split
    · next hword => exact hword.symm
    · rfl
  case h_6 hfamily | h_10 hfamily =>
    rw [hfamily] at hdigits
    split
    · next hn =>
      have hlast : (Fields.ofWord word).n = .ofNat 0 := Fin.ext hn
      rw [hlast] at hdigits
      exact hdigits
    · rfl
  case h_9 hfamily => exact encode_decodeCombine hfamily
  case h_15 hfamily =>
    rw [hfamily] at hbyte
    split
    · next hheld =>
      rw [hheld] at hbyte
      exact hbyte
    split
    · next hfree =>
      rw [hfree] at hbyte
      exact hbyte
    · rfl
  case h_16 =>
    have hfamily : (Fields.ofWord word).family = 0xF := by grind
    exact encode_decodeMiscellaneous hfamily
  case h_2 hfamily | h_3 hfamily | h_11 hfamily | h_12 hfamily =>
    rw [hfamily] at haddress
    exact haddress
  case h_4 hfamily | h_5 hfamily | h_7 hfamily | h_8 hfamily | h_13 hfamily =>
    rw [hfamily] at hbyte
    exact hbyte
  case h_14 hfamily =>
    rw [hfamily] at hdigits
    exact hdigits

/-- An instruction is well-formed if a word that it holds as unassigned fits no form of the
instruction set. Its other operands are such that a word can hold them. -/
def WellFormed (i : Instruction) : Prop :=
  ∀ word, i = unassigned word → ∀ form ∈ forms, ¬form.Fits word

/-- An instruction has a form, or it is an unassigned word. -/
theorem form?_cases (i : Instruction) :
    (∃ form, i.form? = some form) ∨ ∃ word, i = unassigned word := by
  cases i with
  | unassigned word => exact .inr ⟨word, rfl⟩
  | _ => exact .inl ⟨_, rfl⟩

/-- Words are decoded to instructions that are well-formed. -/
theorem wellFormed_decode (word : UInt16) : (decode word).WellFormed := by
  intro other hother
  have hnone : (decode word).form? = none := by rw [hother]; rfl
  obtain ⟨hword, hfits⟩ := decode_of_form?_eq_none hnone
  obtain rfl : word = other := unassigned.inj (hword.symm.trans hother)
  exact hfits

/-- A word that fits no form is decoded to an unassigned word. -/
theorem decode_of_not_fits {word : UInt16} (h : ∀ form ∈ forms, ¬form.Fits word) :
    decode word = unassigned word := by
  cases hform : (decode word).form? with
  | none => exact (decode_of_form?_eq_none hform).1
  | some form =>
    have hmem := mem_forms hform
    exact absurd ((fits_iff hmem word).2 hform) (h form hmem)

/-- The word of an instruction that is well-formed is decoded to this instruction. -/
theorem WellFormed.decode_encode {i : Instruction} (h : i.WellFormed) :
    decode (encode i) = i := by
  rcases form?_cases i with ⟨form, hform⟩ | ⟨word, rfl⟩
  · exact Instruction.decode_encode (by rw [hform]; rfl)
  · exact decode_of_not_fits (h word rfl)

/-- The word of an instruction has the form of this instruction. -/
theorem fits_encode {i : Instruction} {form : Form} (h : i.form? = some form) :
    form.Fits (encode i) := by
  rw [fits_iff (mem_forms h), Instruction.decode_encode (by rw [h]; rfl), h]

end Instruction

namespace Plain

namespace Instruction

open ChipEight.Instruction (forms wordOf)

/-- The word of an instruction in plain words: its family, and the digits of its operands in
order. -/
def encode : Instruction → UInt16
  | clearScreen => 0x00E0
  | ret => 0x00EE
  | jump target => wordOf 0x1 target.toNat
  | call target => wordOf 0x2 target.toNat
  | skipIfByte x byte => wordOf 0x3 (x.toNat * 0x100 + byte.toNat)
  | skipUnlessByte x byte => wordOf 0x4 (x.toNat * 0x100 + byte.toNat)
  | skipIfSame x y => wordOf 0x5 (x.toNat * 0x100 + y.toNat * 0x10)
  | setByte x byte => wordOf 0x6 (x.toNat * 0x100 + byte.toNat)
  | addByte x byte => wordOf 0x7 (x.toNat * 0x100 + byte.toNat)
  | combine op x y => wordOf 0x8 (x.toNat * 0x100 + y.toNat * 0x10 + op.digit.val)
  | skipUnlessSame x y => wordOf 0x9 (x.toNat * 0x100 + y.toNat * 0x10)
  | setIndex target => wordOf 0xA target.toNat
  | jumpBy _ target => wordOf 0xB target.toNat
  | random x mask => wordOf 0xC (x.toNat * 0x100 + mask.toNat)
  | draw x y height => wordOf 0xD (x.toNat * 0x100 + y.toNat * 0x10 + height.toNat)
  | skipIfHeld x => wordOf 0xE (x.toNat * 0x100 + 0x9E)
  | skipUnlessHeld x => wordOf 0xE (x.toNat * 0x100 + 0xA1)
  | readDelay x => wordOf 0xF (x.toNat * 0x100 + 0x07)
  | awaitKey x => wordOf 0xF (x.toNat * 0x100 + 0x0A)
  | setDelay x => wordOf 0xF (x.toNat * 0x100 + 0x15)
  | setSound x => wordOf 0xF (x.toNat * 0x100 + 0x18)
  | addToIndex x => wordOf 0xF (x.toNat * 0x100 + 0x1E)
  | pointAtGlyph x => wordOf 0xF (x.toNat * 0x100 + 0x29)
  | storeDecimal x => wordOf 0xF (x.toNat * 0x100 + 0x33)
  | storeRegisters x => wordOf 0xF (x.toNat * 0x100 + 0x55)
  | loadRegisters x => wordOf 0xF (x.toNat * 0x100 + 0x65)
  | unassigned word => word

/-- An instruction in plain words is well-formed if its registers and its height are digits, its
address has three digits, the first of which is the register of a jump by a register, and the word
that it holds as unassigned fits no form of the instruction set. -/
def WellFormed : Instruction → Prop
  | clearScreen | ret => True
  | jump target | call target | setIndex target => target ≤ 0x0FFF
  | jumpBy x target => target ≤ 0x0FFF ∧ x.toNat = target.toNat / 0x100
  | skipIfByte x _ | skipUnlessByte x _ | setByte x _ | addByte x _ | random x _ => x ≤ 0x0F
  | skipIfSame x y | skipUnlessSame x y | combine _ x y => x ≤ 0x0F ∧ y ≤ 0x0F
  | draw x y height => x ≤ 0x0F ∧ y ≤ 0x0F ∧ height ≤ 0x0F
  | skipIfHeld x | skipUnlessHeld x | readDelay x | awaitKey x | setDelay x | setSound x
  | addToIndex x | pointAtGlyph x | storeDecimal x | storeRegisters x | loadRegisters x => x ≤ 0x0F
  | unassigned word => ∀ form ∈ forms, ¬form.Fits word

end Instruction

/-- An instruction and its plain form have the same word. -/
theorem encode_ofInstruction (i : ChipEight.Instruction) :
    (ofInstruction i).encode = i.encode := by
  cases i with
  | clearScreen | ret | unassigned word => rfl
  | jump target | call target | setIndex target | jumpBy target =>
    simp only [ofInstruction, Instruction.encode, Address.toNat_toWord,
      ChipEight.Instruction.encode]
  | skipIfSame x y | skipUnlessSame x y | combine op x y | draw x y height =>
    simp [ofInstruction, Instruction.encode, Nibble.toNat_toByte, Nibble.ofNat,
      ChipEight.Instruction.encode, ChipEight.Instruction.wordOfDigits]
  | _ =>
    simp [ofInstruction, Instruction.encode, Nibble.toNat_toByte,
      ChipEight.Instruction.encode, ChipEight.Instruction.wordOfByte]

/-- The plain form of a well-formed instruction is well-formed. -/
theorem wellFormed_ofInstruction {i : ChipEight.Instruction} (h : i.WellFormed) :
    (ofInstruction i).WellFormed := by
  cases i with
  | clearScreen | ret => trivial
  | jump target | call target | setIndex target => exact toWord_le target
  | jumpBy target =>
    refine ⟨toWord_le target, ?_⟩
    rw [Nibble.toNat_toByte, Address.toNat_toWord]
    rfl
  | skipIfSame x y | skipUnlessSame x y | combine op x y =>
    exact ⟨toByte_le x, toByte_le y⟩
  | draw x y height => exact ⟨toByte_le x, toByte_le y, toByte_le height⟩
  | unassigned word => exact h word rfl
  | _ => exact toByte_le _

/-- The instruction whose operands have the last digits of those of an instruction in plain
words. -/
def toInstruction : Instruction → ChipEight.Instruction
  | .clearScreen => .clearScreen
  | .ret => .ret
  | .jump target => .jump (.ofWord target)
  | .call target => .call (.ofWord target)
  | .skipIfByte x byte => .skipIfByte (.ofByte x) byte
  | .skipUnlessByte x byte => .skipUnlessByte (.ofByte x) byte
  | .skipIfSame x y => .skipIfSame (.ofByte x) (.ofByte y)
  | .setByte x byte => .setByte (.ofByte x) byte
  | .addByte x byte => .addByte (.ofByte x) byte
  | .combine op x y => .combine op (.ofByte x) (.ofByte y)
  | .skipUnlessSame x y => .skipUnlessSame (.ofByte x) (.ofByte y)
  | .setIndex target => .setIndex (.ofWord target)
  | .jumpBy _ target => .jumpBy (.ofWord target)
  | .random x mask => .random (.ofByte x) mask
  | .draw x y height => .draw (.ofByte x) (.ofByte y) (.ofByte height)
  | .skipIfHeld x => .skipIfHeld (.ofByte x)
  | .skipUnlessHeld x => .skipUnlessHeld (.ofByte x)
  | .readDelay x => .readDelay (.ofByte x)
  | .awaitKey x => .awaitKey (.ofByte x)
  | .setDelay x => .setDelay (.ofByte x)
  | .setSound x => .setSound (.ofByte x)
  | .addToIndex x => .addToIndex (.ofByte x)
  | .pointAtGlyph x => .pointAtGlyph (.ofByte x)
  | .storeDecimal x => .storeDecimal (.ofByte x)
  | .storeRegisters x => .storeRegisters (.ofByte x)
  | .loadRegisters x => .loadRegisters (.ofByte x)
  | .unassigned word => .unassigned word

section toInstruction

variable {op : Instruction}

/-- Well-formed operands have no other digits than the last ones. -/
theorem ofInstruction_toInstruction (h : op.WellFormed) :
    ofInstruction (toInstruction op) = op := by
  cases op with
  | clearScreen | ret | unassigned word => rfl
  | jump target | call target | setIndex target =>
    simp only [toInstruction, ofInstruction, toWord_ofWord_of_le h]
  | jumpBy x target =>
    obtain ⟨htarget, hx⟩ := h
    have htop : (ChipEight.Instruction.topDigit (.ofWord target)).toByte = x := by
      have hword := congrArg UInt16.toNat (toWord_ofWord_of_le htarget)
      rw [Address.toNat_toWord] at hword
      rw [← UInt8.toNat_inj, Nibble.toNat_toByte, hx, ← hword]
      rfl
    simp only [toInstruction, ofInstruction, toWord_ofWord_of_le htarget, htop]
  | skipIfSame x y | skipUnlessSame x y | combine op x y =>
    simp only [toInstruction, ofInstruction, toByte_ofByte_of_le h.1, toByte_ofByte_of_le h.2]
  | draw x y height =>
    simp only [toInstruction, ofInstruction, toByte_ofByte_of_le h.1,
      toByte_ofByte_of_le h.2.1, toByte_ofByte_of_le h.2.2]
  | _ => simp only [toInstruction, ofInstruction, toByte_ofByte_of_le h]

/-- What is well-formed in plain words stands for an instruction that is. -/
theorem wellFormed_toInstruction (h : op.WellFormed) : (toInstruction op).WellFormed := by
  intro word hword
  cases op with
  | unassigned other =>
    obtain rfl := ChipEight.Instruction.unassigned.inj hword
    exact h
  | _ => cases hword

/-- The word of an instruction in plain words that is well-formed is decoded to this
instruction. -/
theorem decode_encode (h : op.WellFormed) : decode op.encode = some op := by
  have hop := ofInstruction_toInstruction h
  have hword : op.encode = (toInstruction op).encode := by rw [← encode_ofInstruction, hop]
  rw [decode_eq, hword, (wellFormed_toInstruction h).decode_encode, hop]

end toInstruction

/-- A word is decoded, in plain words, to an instruction that is well-formed and whose word it
is. -/
theorem exists_decode (word : UInt16) :
    ∃ op, decode word = some op ∧ op.WellFormed ∧ op.encode = word := by
  refine ⟨_, decode_eq word, ?_, ?_⟩
  · exact wellFormed_ofInstruction (ChipEight.Instruction.wellFormed_decode word)
  · rw [encode_ofInstruction, ChipEight.Instruction.encode_decode]

end Plain

namespace Instruction

/-- Decoding and encoding are inverse to each other, so that words and well-formed instructions
correspond. An instruction is decoded from its own word only, and this word has the form of the
instruction, or is the unassigned word that it holds. The same is true in plain words, where an
instruction is well-formed if its digits are below 16, its address is below 4096, a jump by a
register names the top digit of its address, and an unassigned word fits no form. -/
theorem words_correspond_to_instructions :
    (∀ word, (decode word).WellFormed ∧ encode (decode word) = word) ∧
    (∀ i : Instruction, i.WellFormed → decode (encode i) = i) ∧
    (∀ word other, decode word = decode other → word = other) ∧
    (∀ i j : Instruction, i.WellFormed → j.WellFormed → encode i = encode j → i = j) ∧
    (∀ i : Instruction, (∃ form, i.form? = some form ∧ form.Fits (encode i)) ∨
      i = unassigned (encode i)) ∧
    (∀ word, ∃ op : Plain.Instruction,
      Plain.decode word = some op ∧ op.WellFormed ∧ op.encode = word) ∧
    (∀ op : Plain.Instruction, op.WellFormed → Plain.decode op.encode = some op) := by
  refine ⟨fun word => ⟨wellFormed_decode word, encode_decode word⟩,
    fun i h => h.decode_encode, fun word other h => ?_, fun i j hi hj h => ?_, fun i => ?_,
    Plain.exists_decode, fun op h => Plain.decode_encode h⟩
  · rw [← encode_decode word, h, encode_decode]
  · rw [← hi.decode_encode, h, hj.decode_encode]
  · rcases form?_cases i with ⟨form, hform⟩ | ⟨word, rfl⟩
    · exact .inl ⟨form, hform, fits_encode hform⟩
    · exact .inr rfl

/-- The word `8AB8` differs in one digit from those of two instructions and stands for none itself,
and in plain words `BA21` is the jump by register 10 only. -/
theorem words_correspond_near_instructions :
    (unassigned 0x8AB8).WellFormed ∧ decode (encode (unassigned 0x8AB8)) = unassigned 0x8AB8 ∧
      (Plain.Instruction.jumpBy 0xA 0xA21).WellFormed ∧
      Plain.decode (Plain.Instruction.jumpBy 0xA 0xA21).encode =
        some (Plain.Instruction.jumpBy 0xA 0xA21) := by
  have hdecode : decode 0x8AB8 = unassigned 0x8AB8 := by decide +kernel
  have hword : (unassigned 0x8AB8).WellFormed := hdecode ▸ wellFormed_decode 0x8AB8
  have hjump : (Plain.Instruction.jumpBy 0xA 0xA21).WellFormed := ⟨by decide, by decide⟩
  obtain ⟨-, hback, -, -, -, -, hplain⟩ := words_correspond_to_instructions
  exact ⟨hword, hback _ hword, hjump, hplain _ hjump⟩

end Instruction

end ChipEight
