import ChipEight.Instruction.Decode

/-!
# Instruction forms

The instruction set as it is written in manuals: one form for each kind of word, such as
`5XY0` or `FX33`, in which some digits are fixed and the others are operands. The table
says nothing about how words are decoded. Decoding agrees with it: the instruction of a
word has the form that the word fits, and a word that fits no form is unassigned. As no two
forms share a word, a form of the table tells exactly which words are decoded to its
instruction.
-/

namespace ChipEight

namespace Instruction

/-- One digit of a form. -/
inductive Place where
  /-- A fixed digit, which tells the instruction from others. -/
  | digit (value : Nibble)
  /-- Part of an operand, which can be any digit. -/
  | operand
  deriving DecidableEq

instance (n : Nat) : OfNat Place n := ⟨.digit (.ofNat n)⟩

/-- Whether a digit can stand at a place. -/
def Place.Admits (d : Nibble) : Place → Prop
  | digit value => d = value
  | operand => True

/-- Whether no digit can stand at both of two places. -/
def Place.Apart : Place → Place → Prop
  | digit value, digit other => value ≠ other
  | _, _ => False

instance : DecidableRel Place.Apart
  | .digit value, .digit other => inferInstanceAs (Decidable (value ≠ other))
  | .digit _, .operand | .operand, .digit _ | .operand, .operand =>
    inferInstanceAs (Decidable False)

/-- A digit at both of two places is evidence that they are not apart. -/
theorem Place.not_apart {p q : Place} {d : Nibble} (hp : p.Admits d) (hq : q.Admits d) :
    ¬p.Apart q := by
  cases p with
  | operand => exact id
  | digit value =>
    cases q with
    | operand => exact id
    | digit other =>
      intro hapart
      exact hapart (hp.symm.trans hq)

/-- A form: the four digits of a word. -/
structure Form where
  /-- The top digit. -/
  family : Place
  /-- The second digit. -/
  x : Place
  /-- The third digit. -/
  y : Place
  /-- The last digit. -/
  n : Place
  deriving DecidableEq

namespace Form

/-- The digit of the first register. -/
def X : Place := .operand

/-- The digit of the second register. -/
def Y : Place := .operand

/-- A digit of a height, a byte or an address. -/
def N : Place := .operand

/-- A word fits a form if it has the fixed digits of the form. -/
structure Fits (form : Form) (word : UInt16) : Prop where
  /-- The top digit is as the form has it. -/
  family : form.family.Admits (Fields.ofWord word).family
  /-- The second digit is as the form has it. -/
  x : form.x.Admits (Fields.ofWord word).x
  /-- The third digit is as the form has it. -/
  y : form.y.Admits (Fields.ofWord word).y
  /-- The last digit is as the form has it. -/
  n : form.n.Admits (Fields.ofWord word).n

/-- Whether two forms differ in a digit that both of them fix. -/
def Apart (form other : Form) : Prop :=
  form.family.Apart other.family ∨ form.x.Apart other.x ∨ form.y.Apart other.y ∨
    form.n.Apart other.n

instance : DecidableRel Apart := fun form other =>
  inferInstanceAs (Decidable (form.family.Apart other.family ∨ form.x.Apart other.x ∨
    form.y.Apart other.y ∨ form.n.Apart other.n))

/-- A word that fits two forms is evidence that they are not apart. -/
theorem Fits.not_apart {form other : Form} {word : UInt16} (h : form.Fits word)
    (h' : other.Fits word) : ¬form.Apart other := by
  rintro (hfamily | hx | hy | hn)
  · exact Place.not_apart h.family h'.family hfamily
  · exact Place.not_apart h.x h'.x hx
  · exact Place.not_apart h.y h'.y hy
  · exact Place.not_apart h.n h'.n hn

/-- All words of a family fit the form that fixes only the family. -/
theorem fits_family {word : UInt16} {family : Nibble}
    (h : (Fields.ofWord word).family = family) : Fits ⟨.digit family, X, N, N⟩ word :=
  ⟨h, trivial, trivial, trivial⟩

/-- The words of a family with a certain last digit fit the form that fixes these two. -/
theorem fits_last {word : UInt16} {family n : Nibble}
    (hfamily : (Fields.ofWord word).family = family) (hn : (Fields.ofWord word).n = n) :
    Fits ⟨.digit family, X, Y, .digit n⟩ word :=
  ⟨hfamily, trivial, trivial, hn⟩

/-- Only one word fits a form without operands. -/
theorem Fits.toNat_word {word : UInt16} {family x y n : Nibble}
    (h : Fits ⟨.digit family, .digit x, .digit y, .digit n⟩ word) :
    word.toNat = 0x1000 * family.val + 0x100 * x.val + 0x10 * y.val + n.val := by
  have hfamily := congrArg Fin.val h.family
  have hx := congrArg Fin.val h.x
  have hy := congrArg Fin.val h.y
  have hn := congrArg Fin.val h.n
  simp only [Fields.ofWord] at hfamily hx hy hn
  omega

/-- The form that fixes the family and the low byte. -/
def ofLowByte (family : Nibble) (low : Nat) : Form :=
  ⟨.digit family, X, .digit (.ofNat (low / 0x10)), .digit (.ofNat low)⟩

/-- The words of a family with a certain low byte fit the form that fixes these two. -/
theorem fits_ofLowByte_iff {word : UInt16} {family : Nibble} {low : Nat} (hlow : low < 0x100) :
    (ofLowByte family low).Fits word ↔
      (Fields.ofWord word).family = family ∧ word.toNat % 0x100 = low := by
  constructor
  · intro h
    have hy := congrArg Fin.val h.y
    have hn := congrArg Fin.val h.n
    simp only [Fields.ofWord, Nibble.ofNat] at hy hn
    exact ⟨h.family, by omega⟩
  · rintro ⟨hfamily, hbyte⟩
    refine ⟨hfamily, trivial, Fin.ext ?_, Fin.ext ?_⟩
    · simp only [Fields.ofWord, Nibble.ofNat]
      omega
    · simp only [Fields.ofWord, Nibble.ofNat]
      omega

end Form

open Form in
/-- The instruction set. -/
def forms : List Form := [
  ⟨0x0, 0x0, 0xE, 0x0⟩, ⟨0x0, 0x0, 0xE, 0xE⟩,
  ⟨0x1, N, N, N⟩, ⟨0x2, N, N, N⟩,
  ⟨0x3, X, N, N⟩, ⟨0x4, X, N, N⟩, ⟨0x5, X, Y, 0x0⟩,
  ⟨0x6, X, N, N⟩, ⟨0x7, X, N, N⟩,
  ⟨0x8, X, Y, 0x0⟩, ⟨0x8, X, Y, 0x1⟩, ⟨0x8, X, Y, 0x2⟩, ⟨0x8, X, Y, 0x3⟩, ⟨0x8, X, Y, 0x4⟩,
  ⟨0x8, X, Y, 0x5⟩, ⟨0x8, X, Y, 0x6⟩, ⟨0x8, X, Y, 0x7⟩, ⟨0x8, X, Y, 0xE⟩,
  ⟨0x9, X, Y, 0x0⟩, ⟨0xA, N, N, N⟩, ⟨0xB, N, N, N⟩, ⟨0xC, X, N, N⟩, ⟨0xD, X, Y, N⟩,
  ⟨0xE, X, 0x9, 0xE⟩, ⟨0xE, X, 0xA, 0x1⟩,
  ⟨0xF, X, 0x0, 0x7⟩, ⟨0xF, X, 0x0, 0xA⟩, ⟨0xF, X, 0x1, 0x5⟩, ⟨0xF, X, 0x1, 0x8⟩,
  ⟨0xF, X, 0x1, 0xE⟩, ⟨0xF, X, 0x2, 0x9⟩, ⟨0xF, X, 0x3, 0x3⟩, ⟨0xF, X, 0x5, 0x5⟩,
  ⟨0xF, X, 0x6, 0x5⟩]

open Form in
/-- The form of the words of an instruction, if it has any. -/
def form? : Instruction → Option Form
  | clearScreen => some ⟨0x0, 0x0, 0xE, 0x0⟩
  | ret => some ⟨0x0, 0x0, 0xE, 0xE⟩
  | jump _ => some ⟨0x1, N, N, N⟩
  | call _ => some ⟨0x2, N, N, N⟩
  | skipIfByte _ _ => some ⟨0x3, X, N, N⟩
  | skipUnlessByte _ _ => some ⟨0x4, X, N, N⟩
  | skipIfSame _ _ => some ⟨0x5, X, Y, 0x0⟩
  | setByte _ _ => some ⟨0x6, X, N, N⟩
  | addByte _ _ => some ⟨0x7, X, N, N⟩
  | combine op _ _ => some ⟨0x8, X, Y, .digit op.digit⟩
  | skipUnlessSame _ _ => some ⟨0x9, X, Y, 0x0⟩
  | setIndex _ => some ⟨0xA, N, N, N⟩
  | jumpBy _ => some ⟨0xB, N, N, N⟩
  | random _ _ => some ⟨0xC, X, N, N⟩
  | draw _ _ _ => some ⟨0xD, X, Y, N⟩
  | skipIfHeld _ => some ⟨0xE, X, 0x9, 0xE⟩
  | skipUnlessHeld _ => some ⟨0xE, X, 0xA, 0x1⟩
  | readDelay _ => some ⟨0xF, X, 0x0, 0x7⟩
  | awaitKey _ => some ⟨0xF, X, 0x0, 0xA⟩
  | setDelay _ => some ⟨0xF, X, 0x1, 0x5⟩
  | setSound _ => some ⟨0xF, X, 0x1, 0x8⟩
  | addToIndex _ => some ⟨0xF, X, 0x1, 0xE⟩
  | pointAtGlyph _ => some ⟨0xF, X, 0x2, 0x9⟩
  | storeDecimal _ => some ⟨0xF, X, 0x3, 0x3⟩
  | storeRegisters _ => some ⟨0xF, X, 0x5, 0x5⟩
  | loadRegisters _ => some ⟨0xF, X, 0x6, 0x5⟩
  | unassigned _ => none

/-- Different forms of the instruction set differ in a digit that both of them fix. -/
theorem forms_apart : ∀ form ∈ forms, ∀ other ∈ forms, form = other ∨ form.Apart other := by
  decide +kernel

/-- The form of an instruction is in the table. -/
theorem mem_forms {i : Instruction} {form : Form} (h : i.form? = some form) : form ∈ forms := by
  cases i with
  | unassigned word => cases h
  | combine op x y =>
    obtain rfl := Option.some.inj h
    cases op <;> decide
  | _ =>
    obtain rfl := Option.some.inj h
    decide

/-- The digit that names an operation is the digit of that operation. -/
theorem digit_of_ofDigit? {n : Nibble} {op : Alu} (h : Alu.ofDigit? n = some op) :
    op.digit = n := by
  revert n
  cases op <;> decide

open Form in
/-- A last digit that names no operation is in no form of the family `8`. -/
theorem apart_of_ofDigit?_eq_none {n : Nibble} (h : Alu.ofDigit? n = none) :
    ∀ form ∈ forms, form.Apart ⟨0x8, X, Y, .digit n⟩ := by
  revert n
  decide +kernel

open Form in
/-- Only one form of the family `5` and one of the family `9` are in the table; their last
digit is zero. -/
theorem apart_of_last_ne_zero {n : Nibble} (h : n.val ≠ 0) :
    ∀ form ∈ forms, form.Apart ⟨0x5, X, Y, .digit n⟩ ∧ form.Apart ⟨0x9, X, Y, .digit n⟩ := by
  revert n
  decide +kernel

/-- Low bytes of the instructions of the family `E`. -/
def keySkipBytes : List Nat := [0x9E, 0xA1]

/-- Low bytes of the instructions of the family `F`. -/
def miscellaneousBytes : List Nat := [0x07, 0x0A, 0x15, 0x18, 0x1E, 0x29, 0x33, 0x55, 0x65]

/-- Three families fix more than one digit of their words, and these in few ways. -/
theorem forms_of_family : ∀ form ∈ forms,
    (form.family.Apart 0x0 ∨ form = ⟨0x0, 0x0, 0xE, 0x0⟩ ∨ form = ⟨0x0, 0x0, 0xE, 0xE⟩) ∧
    (form.family.Apart 0xE ∨ ∃ low ∈ keySkipBytes, form = .ofLowByte 0xE low) ∧
    (form.family.Apart 0xF ∨ ∃ low ∈ miscellaneousBytes, form = .ofLowByte 0xF low) := by
  decide +kernel

/-- An instruction suits a word if the word fits its form; an instruction without a form
suits the word that it holds if that word fits no form of the table. -/
def Suits (i : Instruction) (word : UInt16) : Prop :=
  match i.form? with
  | some form => form.Fits word
  | none => i = unassigned word ∧ ∀ form ∈ forms, ¬form.Fits word

/-- A word that stands for no instruction may be one that fits a form apart from all those
of the table. -/
theorem suits_unassigned {word : UInt16} {other : Form} (hfits : other.Fits word)
    (hapart : ∀ form ∈ forms, form.Apart other) : (unassigned word).Suits word :=
  ⟨rfl, fun form hform h => h.not_apart hfits (hapart form hform)⟩

/-- Words whose low byte is none of those that occur in their family. -/
theorem suits_unassigned_of_lowByte {word : UInt16} {family : Nibble} {bytes : List Nat}
    (hfamily : (Fields.ofWord word).family = family) (hlow : word.toNat % 0x100 ∉ bytes)
    (hbytes : ∀ low ∈ bytes, low < 0x100)
    (hforms : ∀ form ∈ forms, form.family.Apart (.digit family) ∨
      ∃ low ∈ bytes, form = .ofLowByte family low) : (unassigned word).Suits word := by
  refine ⟨rfl, fun form hform h => ?_⟩
  obtain hapart | ⟨low, hmem, rfl⟩ := hforms form hform
  · exact Place.not_apart h.family (Form.fits_family hfamily).family hapart
  · have hword := ((Form.fits_ofLowByte_iff (hbytes low hmem)).1 h).2
    rw [hword] at hlow
    exact hlow hmem

/-- The two words of the family `0`. -/
theorem suits_family_zero {word : UInt16} (hfamily : (Fields.ofWord word).family = 0x0) :
    (if word = 0x00E0 then clearScreen else if word = 0x00EE then ret
      else unassigned word).Suits word := by
  split
  · next hword =>
    subst hword
    exact ⟨rfl, rfl, rfl, rfl⟩
  split
  · next hword =>
    subst hword
    exact ⟨rfl, rfl, rfl, rfl⟩
  · next hclear hret =>
    refine ⟨rfl, fun form hform h => ?_⟩
    obtain hapart | rfl | rfl := (forms_of_family form hform).1
    · exact Place.not_apart h.family (Form.fits_family hfamily).family hapart
    · exact hclear (UInt16.toNat_inj.1 h.toNat_word)
    · exact hret (UInt16.toNat_inj.1 h.toNat_word)

/-- Decoding the family `8`. -/
theorem suits_decodeCombine {word : UInt16} (hfamily : (Fields.ofWord word).family = 0x8) :
    (decodeCombine word (Fields.ofWord word).x (Fields.ofWord word).y
      (Fields.ofWord word).n).Suits word := by
  unfold decodeCombine
  split
  · next op hop => exact Form.fits_last hfamily (digit_of_ofDigit? hop).symm
  · next hnone =>
    exact suits_unassigned (Form.fits_last hfamily rfl) (apart_of_ofDigit?_eq_none hnone)

/-- Decoding the family `E`. -/
theorem suits_keySkip {word : UInt16} (hfamily : (Fields.ofWord word).family = 0xE) :
    (if word.toUInt8 = 0x9E then skipIfHeld (Fields.ofWord word).x
      else if word.toUInt8 = 0xA1 then skipUnlessHeld (Fields.ofWord word).x
      else unassigned word).Suits word := by
  have hbyte : ∀ byte : UInt8, word.toUInt8 = byte ↔ word.toNat % 0x100 = byte.toNat := by
    intro byte
    rw [← UInt8.toNat_inj, UInt16.toNat_toUInt8]
  simp only [hbyte]
  split
  · next hlow => exact (Form.fits_ofLowByte_iff (by decide)).2 ⟨hfamily, hlow⟩
  split
  · next hlow => exact (Form.fits_ofLowByte_iff (by decide)).2 ⟨hfamily, hlow⟩
  · next hheld hfree =>
    refine suits_unassigned_of_lowByte hfamily ?_ (by decide)
      fun form hform => (forms_of_family form hform).2.1
    simp only [keySkipBytes, List.mem_cons, List.not_mem_nil, or_false, not_or]
    exact ⟨hheld, hfree⟩

/-- Decoding the family `F`. -/
theorem suits_decodeMiscellaneous {word : UInt16}
    (hfamily : (Fields.ofWord word).family = 0xF) :
    (decodeMiscellaneous word (Fields.ofWord word).x).Suits word := by
  have hfits : ∀ {low : Nat}, low < 0x100 → word.toNat % 0x100 = low →
      (Form.ofLowByte 0xF low).Fits word :=
    fun hlow h => (Form.fits_ofLowByte_iff hlow).2 ⟨hfamily, h⟩
  unfold decodeMiscellaneous
  split
  case h_10 =>
    refine suits_unassigned_of_lowByte hfamily ?_ (by decide)
      fun form hform => (forms_of_family form hform).2.2
    simp only [miscellaneousBytes, List.mem_cons, List.not_mem_nil, or_false, not_or]
    refine ⟨?_, ?_, ?_, ?_, ?_, ?_, ?_, ?_, ?_⟩ <;> assumption
  all_goals
    next hlow => exact hfits (by decide) hlow

/-- Decoding agrees with the table: the instruction of a word suits the word. -/
theorem suits_decode (word : UInt16) : (decode word).Suits word := by
  unfold decode
  dsimp only
  split
  case h_1 hfamily => exact suits_family_zero hfamily
  case h_6 hfamily =>
    split
    · next hn => exact Form.fits_last hfamily (Fin.ext hn)
    · next hn =>
      exact suits_unassigned (Form.fits_last hfamily rfl)
        fun form hform => (apart_of_last_ne_zero hn form hform).1
  case h_9 hfamily => exact suits_decodeCombine hfamily
  case h_10 hfamily =>
    split
    · next hn => exact Form.fits_last hfamily (Fin.ext hn)
    · next hn =>
      exact suits_unassigned (Form.fits_last hfamily rfl)
        fun form hform => (apart_of_last_ne_zero hn form hform).2
  case h_15 hfamily => exact suits_keySkip hfamily
  case h_16 =>
    -- The fifteen other families are excluded.
    have hfamily : (Fields.ofWord word).family = 0xF := by grind
    exact suits_decodeMiscellaneous hfamily
  all_goals
    next hfamily => exact Form.fits_family hfamily

/-- A form of the table tells exactly which words are decoded to its instruction. -/
theorem fits_iff {form : Form} (hform : form ∈ forms) (word : UInt16) :
    form.Fits word ↔ (decode word).form? = some form := by
  have hsuits := suits_decode word
  unfold Suits at hsuits
  constructor
  · intro h
    cases hother : (decode word).form? with
    | none =>
      rw [hother] at hsuits
      exact absurd h (hsuits.2 form hform)
    | some other =>
      rw [hother] at hsuits
      obtain rfl | hapart := forms_apart form hform other (mem_forms hother)
      · rfl
      · exact absurd hapart (h.not_apart hsuits)
  · intro h
    rw [h] at hsuits
    exact hsuits

/-- An instruction without a form is unassigned, and its word fits no form of the table. -/
theorem decode_of_form?_eq_none {word : UInt16} (h : (decode word).form? = none) :
    decode word = unassigned word ∧ ∀ form ∈ forms, ¬form.Fits word := by
  have hsuits := suits_decode word
  unfold Suits at hsuits
  rw [h] at hsuits
  exact hsuits

/-- A word fits one form of the table at most. -/
theorem Form.Fits.eq_iff {form other : Form} {word : UInt16} (h : form.Fits word)
    (hform : form ∈ forms) (hother : other ∈ forms) : other.Fits word ↔ form = other := by
  rw [fits_iff hother, (fits_iff hform word).1 h, Option.some.injEq]

end Instruction

end ChipEight
