import ChipEight.Decimal
import Mathlib.Data.List.TakeWhile
import Mathlib.Tactic.FieldSimp
import Mathlib.Tactic.NormNum
import Mathlib.Tactic.Ring

/-!
# Decimal literals and their values

A decimal literal by its parts: an optional sign, digits before an optional point and behind it, at
least one in all, and an optional exponent. What the parts are worth is told by the places of the
digits, without reading any text. The reader of numerals finds a decimal in exactly the texts that
such parts spell, and the decimal has their value. All else that it finds is one of three words, in
any mixture of cases and with an optional sign.
-/

namespace ChipEight

/-- A sign that may be written in front of a number. -/
inductive Sign where
  /-- No sign. -/
  | absent
  /-- A plus sign. -/
  | plus
  /-- A minus sign. -/
  | minus

namespace Sign

/-- How a sign is written. -/
def text : Sign → List Char
  | absent => []
  | plus => ['+']
  | minus => ['-']

/-- What a sign multiplies a number by. -/
def factor : Sign → Int
  | absent | plus => 1
  | minus => -1

/-- Whether a sign makes a number negative. -/
def isMinus : Sign → Bool
  | absent | plus => false
  | minus => true

end Sign

/-- A row of decimal digits. -/
structure DigitRow where
  /-- The digits. -/
  chars : List Char
  /-- They are digits. -/
  isDigit : ∀ c ∈ chars, c.isDigit = true

namespace DigitRow

/-- A row of characters that all are digits. -/
def ofAll (chars : List Char) (h : chars.all Char.isDigit = true) : DigitRow :=
  ⟨chars, List.all_eq_true.1 h⟩

/-- The number that a single digit stands for. -/
def digit (c : Char) : Nat := c.toNat - '0'.toNat

/-- What a row of digits is worth before a point: each digit counts a power of ten, by the number
of digits behind it. -/
def wholeValue : List Char → Nat
  | [] => 0
  | c :: rest => digit c * 10 ^ rest.length + wholeValue rest

/-- What a row of digits is worth behind a point: a tenth of the first digit and of what the others
are worth there. -/
def fractionValue : List Char → Rat
  | [] => 0
  | c :: rest => (digit c + fractionValue rest) / 10

end DigitRow

/-- An exponent with at least one digit. -/
structure Exponent where
  /-- The letter in front. -/
  letter : Char
  /-- The sign behind the letter. -/
  sign : Sign
  /-- The digits. -/
  row : DigitRow
  /-- The letter may be of either case. -/
  isLetter : letter = 'e' ∨ letter = 'E'
  /-- There is a digit. -/
  hasDigit : row.chars ≠ []

namespace Exponent

/-- How an exponent is written, if there is one. -/
def text : Option Exponent → List Char
  | none => []
  | some e => e.letter :: (e.sign.text ++ e.row.chars)

/-- The power of ten that an exponent stands for, if there is one. -/
def power : Option Exponent → Int
  | none => 0
  | some e => e.sign.factor * DigitRow.wholeValue e.row.chars

end Exponent

/-- A decimal literal with at least one digit. -/
structure Literal where
  /-- The sign in front. -/
  sign : Sign
  /-- The digits before the point. -/
  whole : DigitRow
  /-- The digits behind the point, if there is a point. -/
  point : Option DigitRow
  /-- The exponent, if there is one. -/
  exponent : Option Exponent
  /-- There is a digit before or behind the point. -/
  hasDigit : whole.chars ≠ [] ∨ ∃ row, point = some row ∧ row.chars ≠ []

namespace Literal

/-- How a point and the digits behind it are written, if there is a point. -/
def pointText : Option DigitRow → List Char
  | none => []
  | some row => '.' :: row.chars

/-- How a literal is written. -/
def text (l : Literal) : List Char :=
  l.sign.text ++ (l.whole.chars ++ (pointText l.point ++ Exponent.text l.exponent))

/-- The digits behind a point, if there is one. -/
def fraction : Option DigitRow → List Char
  | none => []
  | some row => row.chars

/-- The exact value of a literal. -/
def value (l : Literal) : Rat :=
  l.sign.factor * (DigitRow.wholeValue l.whole.chars + DigitRow.fractionValue (fraction l.point)) *
    10 ^ Exponent.power l.exponent

end Literal

/-- The words among the numerals. -/
inductive NumeralWord where
  /-- The short word for infinity. -/
  | inf
  /-- The long word for infinity. -/
  | infinity
  /-- The word for what is not a number. -/
  | nan

/-- The letters of a word, in lower case. -/
def NumeralWord.letters : NumeralWord → List Char
  | inf => ['i', 'n', 'f']
  | infinity => ['i', 'n', 'f', 'i', 'n', 'i', 't', 'y']
  | nan => ['n', 'a', 'n']

/-- A word with an optional sign, in any mixture of cases. -/
structure SignedWord where
  /-- The sign in front. -/
  sign : Sign
  /-- The word. -/
  word : NumeralWord
  /-- The letters as they are written. -/
  letters : List Char
  /-- They are the letters of the word. -/
  spells : letters.map Char.toLower = word.letters

/-- How a word is written. -/
def SignedWord.text (w : SignedWord) : List Char := w.sign.text ++ w.letters

namespace DigitRow

/-- Reading digits from the left goes on with what was read before. -/
theorem foldl_digits (digits : List Char) (n : Nat) :
    digits.foldl (fun n c => 10 * n + (c.toNat - '0'.toNat)) n =
      n * 10 ^ digits.length + wholeValue digits := by
  induction digits generalizing n with
  | nil => simp [wholeValue]
  | cons c rest ih =>
    rw [List.foldl_cons, ih, wholeValue, digit, List.length_cons]
    ring

/-- A row of digits is read as the whole number that it is worth. -/
theorem wholeNumber_eq (digits : List Char) :
    Numeral.wholeNumber digits = wholeValue digits := by
  rw [Numeral.wholeNumber, foldl_digits, Nat.zero_mul, Nat.zero_add]

/-- The first of two rows counts higher powers of ten than it does alone. -/
theorem wholeValue_append (first second : List Char) :
    wholeValue (first ++ second) = wholeValue first * 10 ^ second.length + wholeValue second := by
  rw [← wholeNumber_eq, Numeral.wholeNumber, List.foldl_append, ← Numeral.wholeNumber,
    wholeNumber_eq, foldl_digits]

/-- Behind a point, digits are worth a fraction of what they are worth before it. -/
theorem fractionValue_eq (digits : List Char) :
    fractionValue digits = wholeValue digits / 10 ^ digits.length := by
  induction digits with
  | nil => simp [fractionValue, wholeValue]
  | cons c rest ih =>
    rw [fractionValue, ih, wholeValue, List.length_cons]
    push_cast
    field_simp
    ring

end DigitRow

/-- The exact value of a decimal. -/
def Decimal.value (d : Decimal) : Rat :=
  (if d.negative then -1 else 1) * d.digits * 10 ^ d.exponent

/-- The decimal that a literal spells. -/
def Literal.decimal (l : Literal) : Decimal :=
  ⟨l.sign.isMinus, Numeral.wholeNumber (l.whole.chars ++ fraction l.point),
    Exponent.power l.exponent - (fraction l.point).length⟩

/-- It has the value of the literal. -/
theorem Literal.value_decimal (l : Literal) : l.decimal.value = l.value := by
  have hsign : (if l.sign.isMinus then -1 else 1 : Rat) = l.sign.factor := by
    cases l.sign <;> simp [Sign.isMinus, Sign.factor]
  have hten : (10 : Rat) ≠ 0 := by norm_num
  rw [Decimal.value, value, decimal]
  dsimp only
  rw [hsign, DigitRow.wholeNumber_eq, DigitRow.wholeValue_append, DigitRow.fractionValue_eq,
    zpow_sub₀ hten, zpow_natCast]
  push_cast
  field_simp

/-- A text that does not begin with a sign. -/
def Unsigned (text : List Char) : Prop := ∀ c ∈ text.head?, c ≠ '-' ∧ c ≠ '+'

/-- A text that does not begin with a digit. -/
def Digitless (text : List Char) : Prop := ∀ c ∈ text.head?, c.isDigit = false

namespace DigitRow

/-- What begins with a digit does not begin with a sign. -/
theorem unsigned_append {row : DigitRow} (h : row.chars ≠ []) (rest : List Char) :
    Unsigned (row.chars ++ rest) := by
  obtain ⟨first, others, hchars⟩ := List.exists_cons_of_ne_nil h
  have hdigit : first.isDigit = true := row.isDigit first (by rw [hchars]; exact List.mem_cons_self)
  rw [hchars]
  rintro c hc
  obtain rfl : first = c := by simpa using hc
  constructor <;> rintro rfl <;> simp at hdigit

/-- The digits at the beginning of a text. -/
def ofPrefix (text : List Char) : DigitRow :=
  ⟨text.takeWhile Char.isDigit, fun _ => List.mem_takeWhile_imp⟩

/-- A row of digits ends where no digit follows. -/
theorem takeWhile_append (row : DigitRow) {rest : List Char} (h : Digitless rest) :
    (row.chars ++ rest).takeWhile Char.isDigit = row.chars ∧
      (row.chars ++ rest).dropWhile Char.isDigit = rest := by
  have hrest : rest.takeWhile Char.isDigit = [] ∧ rest.dropWhile Char.isDigit = rest := by
    cases rest with
    | nil => exact ⟨rfl, rfl⟩
    | cons c others =>
      have hc : c.isDigit = false := h c rfl
      simp [hc]
  rw [List.takeWhile_append_of_pos row.isDigit, List.dropWhile_append_of_pos row.isDigit, hrest.1,
    hrest.2, List.append_nil]
  exact ⟨rfl, rfl⟩

end DigitRow

namespace Numeral

/-- A sign is read if it is written. -/
theorem splitSign_append (sign : Sign) {rest : List Char} (h : Unsigned rest) :
    splitSign (sign.text ++ rest) = (sign.isMinus, rest) := by
  cases sign with
  | plus => rfl
  | minus => rfl
  | absent =>
    change splitSign rest = (false, rest)
    unfold splitSign
    split
    · exact absurd rfl (h '-' rfl).1
    · exact absurd rfl (h '+' rfl).2
    · rfl

/-- Every text has a sign that may be absent. -/
theorem exists_sign (text : List Char) :
    ∃ sign : Sign, text = sign.text ++ (splitSign text).2 ∧
      (splitSign text).1 = sign.isMinus := by
  unfold splitSign
  split
  · exact ⟨.minus, rfl, rfl⟩
  · exact ⟨.plus, rfl, rfl⟩
  · exact ⟨.absent, rfl, rfl⟩

/-- An exponent is read as the power that it stands for. -/
theorem readExponent_text (e : Option Exponent) :
    readExponent (Exponent.text e) = some (Exponent.power e) := by
  cases e with
  | none => rfl
  | some e =>
    have hunsigned := DigitRow.unsigned_append e.hasDigit []
    rw [List.append_nil] at hunsigned
    have hdigits : e.row.chars ≠ [] ∧ e.row.chars.all Char.isDigit = true :=
      ⟨e.hasDigit, List.all_eq_true.2 e.row.isDigit⟩
    rw [Exponent.text, readExponent, if_pos e.isLetter, splitSign_append e.sign hunsigned]
    dsimp only
    rw [if_pos hdigits, DigitRow.wholeNumber_eq, Exponent.power]
    cases e.sign <;> simp [Sign.isMinus, Sign.factor]

/-- What is read as an exponent is one. -/
theorem exists_of_readExponent {text : List Char} {power : Int}
    (h : readExponent text = some power) : ∃ e, text = Exponent.text e := by
  cases text with
  | nil => exact ⟨none, rfl⟩
  | cons letter rest =>
    obtain ⟨sign, hrest, -⟩ := exists_sign rest
    rw [readExponent] at h
    dsimp only at h
    split at h
    · next hletter =>
      split at h
      · next hdigits =>
        obtain ⟨hne, hall⟩ := hdigits
        exact ⟨some ⟨letter, sign, .ofAll _ hall, hletter, hne⟩, congrArg (letter :: ·) hrest⟩
      · cases h
    · cases h

/-- No digit follows the digits before a point or an exponent. -/
theorem digitless_exponent (e : Option Exponent) : Digitless (Exponent.text e) := by
  rintro c hc
  cases e with
  | none => cases hc
  | some e =>
    obtain rfl : e.letter = c := by simpa [Exponent.text] using hc
    rcases e.isLetter with hletter | hletter
    all_goals rw [hletter]; rfl

/-- A point and the digits behind it are read up to the exponent. -/
theorem splitFraction_append (point : Option DigitRow) (e : Option Exponent) :
    splitFraction (Literal.pointText point ++ Exponent.text e) =
      (Literal.fraction point, Exponent.text e) := by
  cases point with
  | none =>
    change splitFraction (Exponent.text e) = ([], Exponent.text e)
    cases e with
    | none => rfl
    | some e =>
      have hletter : e.letter ≠ '.' := by
        rcases e.isLetter with hletter | hletter
        all_goals rw [hletter]; decide
      rw [Exponent.text, splitFraction]
      simpa using hletter
  | some row =>
    obtain ⟨htake, hdrop⟩ := row.takeWhile_append (digitless_exponent e)
    rw [Literal.pointText, List.cons_append, splitFraction, htake, hdrop, Literal.fraction]

/-- Every text has a point and digits behind it that may be absent. -/
theorem exists_point (text : List Char) :
    ∃ point, text = Literal.pointText point ++ (splitFraction text).2 ∧
      (splitFraction text).1 = Literal.fraction point := by
  unfold splitFraction
  split
  · next rest =>
    refine ⟨some (.ofPrefix rest), ?_, rfl⟩
    rw [Literal.pointText, DigitRow.ofPrefix, List.cons_append, List.takeWhile_append_dropWhile]
  · exact ⟨none, rfl, rfl⟩

/-- No digit follows the digits before a point or an exponent. -/
theorem digitless_point (point : Option DigitRow) (e : Option Exponent) :
    Digitless (Literal.pointText point ++ Exponent.text e) := by
  cases point with
  | none => exact digitless_exponent e
  | some row =>
    rintro c hc
    obtain rfl : '.' = c := by simpa [Literal.pointText] using hc
    rfl

/-- The size of a literal does not begin with a sign. -/
theorem unsigned_size (l : Literal) :
    Unsigned (l.whole.chars ++ (Literal.pointText l.point ++ Exponent.text l.exponent)) := by
  by_cases hwhole : l.whole.chars = []
  · obtain hdigit | ⟨row, hpoint, -⟩ := l.hasDigit
    · exact absurd hwhole hdigit
    · rw [hwhole, hpoint]
      rintro c hc
      obtain rfl : '.' = c := by simpa [Literal.pointText] using hc
      decide
  · exact DigitRow.unsigned_append hwhole _

/-- The size of a literal is read with its sign. -/
theorem readDecimal_size (l : Literal) : readDecimal l.sign.isMinus
      (l.whole.chars ++ (Literal.pointText l.point ++ Exponent.text l.exponent)) =
    some l.decimal := by
  obtain ⟨htake, hdrop⟩ := l.whole.takeWhile_append (digitless_point l.point l.exponent)
  have hdigit : ¬(l.whole.chars = [] ∧ Literal.fraction l.point = []) := by
    rintro ⟨hwhole, hfraction⟩
    obtain hdigit | ⟨row, hpoint, hdigit⟩ := l.hasDigit
    · exact hdigit hwhole
    · rw [hpoint] at hfraction
      exact hdigit hfraction
  rw [readDecimal, htake, hdrop, splitFraction_append]
  dsimp only
  rw [if_neg hdigit, readExponent_text]
  rfl

/-- What is read as a decimal is the size of a literal with any sign. -/
theorem exists_of_readDecimal {negative : Bool} {text : List Char} {d : Decimal}
    (h : readDecimal negative text = some d) (sign : Sign) :
    ∃ l : Literal, l.text = sign.text ++ text := by
  rw [readDecimal] at h
  dsimp only at h
  obtain ⟨point, hpoint, hfraction⟩ := exists_point (text.dropWhile Char.isDigit)
  rw [hfraction] at h
  split at h
  · cases h
  · next hdigit =>
    obtain ⟨power, hpower, -⟩ := Option.map_eq_some_iff.1 h
    obtain ⟨e, he⟩ := exists_of_readExponent hpower
    have hsome : (DigitRow.ofPrefix text).chars ≠ [] ∨
        ∃ row, point = some row ∧ row.chars ≠ [] := by
      rcases not_and_or.1 hdigit with hwhole | hbehind
      · exact .inl hwhole
      · cases point with
        | none => exact absurd rfl hbehind
        | some row => exact .inr ⟨row, rfl, hbehind⟩
    have hwhole : (DigitRow.ofPrefix text).chars ++ text.dropWhile Char.isDigit = text :=
      List.takeWhile_append_dropWhile
    refine ⟨⟨sign, .ofPrefix text, point, e, hsome⟩, ?_⟩
    rw [Literal.text, ← he, ← hpoint, hwhole]

end Numeral

section words

/-- What is a letter in lower case is a letter. -/
theorem isAlpha_of_isLower_toLower {c : Char} (h : c.toLower.isLower = true) :
    c.isAlpha = true := by
  by_cases hupper : c.isUpper = true
  · exact Bool.or_eq_true_iff.2 (.inl hupper)
  · have hsame : c.toLower = c := dif_neg fun hrange => hupper (decide_eq_true hrange)
    rw [hsame] at h
    exact Bool.or_eq_true_iff.2 (.inr h)

/-- No letter is a digit. -/
theorem isDigit_of_isAlpha {c : Char} (h : c.isAlpha = true) : c.isDigit = false := by
  have hcase : c.isUpper = true ∨ c.isLower = true := Bool.or_eq_true_iff.1 h
  unfold Char.isUpper Char.isLower at hcase
  unfold Char.isDigit
  grind

/-- A word begins with a letter. -/
theorem NumeralWord.exists_letter {word : NumeralWord} {letters : List Char}
    (h : letters.map Char.toLower = word.letters) :
    ∃ first rest, letters = first :: rest ∧ first.isAlpha = true := by
  cases letters with
  | nil => cases word <;> cases h
  | cons first rest =>
    refine ⟨first, rest, rfl, isAlpha_of_isLower_toLower ?_⟩
    have hhead := congrArg List.head? h
    rw [List.map_cons, List.head?_cons] at hhead
    cases word
    all_goals
      obtain hfirst := Option.some.inj hhead
      rw [hfirst]
      rfl

/-- What a word stands for, when a minus sign may have been written. -/
def NumeralWord.numeral (negative : Bool) : NumeralWord → Numeral
  | inf | infinity => .infinity negative
  | nan => .nan

namespace Numeral

variable {word : NumeralWord} {text letters : List Char} {negative : Bool} {numeral : Numeral}

/-- A word does not begin with a sign. -/
theorem unsigned_word (h : letters.map Char.toLower = word.letters) : Unsigned letters := by
  obtain ⟨first, rest, rfl, halpha⟩ := NumeralWord.exists_letter h
  rintro c hc
  obtain rfl : first = c := by simpa using hc
  constructor <;> rintro rfl <;> revert halpha <;> decide

/-- A word is not read as a decimal. -/
theorem readDecimal_word (h : letters.map Char.toLower = word.letters) :
    readDecimal negative letters = none := by
  obtain ⟨first, rest, rfl, halpha⟩ := NumeralWord.exists_letter h
  have hdigit := isDigit_of_isAlpha halpha
  have hpoint : first ≠ '.' := by
    rintro rfl
    revert halpha
    decide
  have hsplit : splitFraction (first :: rest) = ([], first :: rest) := by
    unfold splitFraction
    split
    · next heq => exact absurd (List.cons.inj heq).1 hpoint
    · rfl
  rw [readDecimal, List.takeWhile_cons_of_neg (by rw [hdigit]; exact Bool.false_ne_true),
    List.dropWhile_cons_of_neg (by rw [hdigit]; exact Bool.false_ne_true), hsplit]
  rfl

/-- What is read as a word are the words. -/
theorem readWord_eq_some_iff : readWord negative text = some numeral ↔
    ∃ word : NumeralWord, text.map Char.toLower = word.letters ∧
      numeral = word.numeral negative := by
  constructor
  · intro h
    unfold readWord at h
    dsimp only at h
    split at h
    · next hword =>
      obtain rfl := Option.some.inj h
      rcases hword with hshort | hlong
      · exact ⟨.inf, hshort, rfl⟩
      · exact ⟨.infinity, hlong, rfl⟩
    · split at h
      · next hword =>
        obtain rfl := Option.some.inj h
        exact ⟨.nan, hword, rfl⟩
      · cases h
  · rintro ⟨word, hword, rfl⟩
    unfold readWord
    dsimp only
    rw [hword]
    cases word <;> rfl

end Numeral

end words

/-- What a word with a sign stands for. -/
def SignedWord.numeral (w : SignedWord) : Numeral := w.word.numeral w.sign.isMinus

/-- The texts of literals are read as their decimals, and the texts of words as what the words
stand for. No other text is a numeral. -/
theorem Numeral.read_eq_some_iff {text : List Char} {numeral : Numeral} :
    read text = some numeral ↔
      (∃ l : Literal, l.text = text ∧ numeral = .decimal l.decimal) ∨
      ∃ w : SignedWord, w.text = text ∧ numeral = w.numeral := by
  have hliteral (l : Literal) : read l.text = some (.decimal l.decimal) := by
    rw [read, Literal.text, splitSign_append l.sign (unsigned_size l)]
    dsimp only
    rw [readDecimal_size]
  constructor
  · intro h
    obtain ⟨sign, htext, hsign⟩ := exists_sign text
    have hread := h
    rw [read] at hread
    dsimp only at hread
    split at hread
    · next d hd =>
      obtain ⟨l, hl⟩ := exists_of_readDecimal hd sign
      rw [← htext] at hl
      refine .inl ⟨l, hl, ?_⟩
      rw [← hl, hliteral] at h
      exact (Option.some.inj h).symm
    · obtain ⟨word, hword, hnumeral⟩ := readWord_eq_some_iff.1 hread
      rw [hsign] at hnumeral
      exact .inr ⟨⟨sign, word, _, hword⟩, htext.symm, hnumeral⟩
  · rintro (⟨l, rfl, rfl⟩ | ⟨w, rfl, rfl⟩)
    · exact hliteral l
    · rw [read, SignedWord.text, splitSign_append w.sign (unsigned_word w.spells)]
      dsimp only
      rw [readDecimal_word w.spells]
      exact readWord_eq_some_iff.2 ⟨w.word, w.spells, rfl⟩

end ChipEight
