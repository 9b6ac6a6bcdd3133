import ChipEight.Binary32.Basic

/-!
# Decimal literals

The grammar of decimal literals: an optional sign, then either digits with at most
one point and at least one digit, followed by an optional exponent, or one of the
words `inf`, `infinity` and `nan` in any mixture of cases. A literal denotes an exact
ratio of whole numbers; `Decimal.toBinary32` rounds that ratio once.
-/

namespace ChipEight

/-- An exact decimal, `± digits * 10 ^ exponent`. -/
structure Decimal where
  /-- Whether a minus sign was written. -/
  negative : Bool
  /-- All digits of the literal, read as one whole number. -/
  digits : Nat
  /-- The power of ten that scales the digits. -/
  exponent : Int
  deriving DecidableEq

namespace Decimal

/-- Numerator of the exact size. -/
def numerator (d : Decimal) : Nat := d.digits * Nat.pow 10 d.exponent.toNat

/-- Denominator of the exact size. -/
def denominator (d : Decimal) : Nat := Nat.pow 10 (-d.exponent).toNat

/-- The binary32 number nearest to a decimal. A size of at least `2 ^ 128`, or of at
most `2 ^ (-151)`, is recognised from the exponent and the bit length of the digits
alone, so an enormous exponent is never expanded. -/
def toBinary32 (d : Decimal) : Binary32 :=
  let bits : Int := d.digits.log2
  if d.digits = 0 then .number d.negative .zero
  else if 0 ≤ d.exponent ∧ 129 ≤ 3 * d.exponent + bits then .infinite d.negative
  else if 3 * d.exponent + bits + 152 ≤ 0 then .number d.negative .zero
  else .rounded d.negative (d.numerator * Magnitude.unitsPerOne) d.denominator

end Decimal

/-- What a literal of the grammar can denote. -/
inductive Numeral where
  /-- A decimal number. -/
  | decimal (d : Decimal)
  /-- The word for infinity. -/
  | infinity (negative : Bool)
  /-- The word for not-a-number. -/
  | nan
  deriving DecidableEq

namespace Numeral

/-- The whole number that a row of decimal digits spells, most significant first. -/
def wholeNumber (digits : List Char) : Nat :=
  digits.foldl (fun n c => 10 * n + (c.toNat - '0'.toNat)) 0

/-- Splits an optional sign off; the flag says whether it was a minus. -/
def splitSign : List Char → Bool × List Char
  | '-' :: rest => (true, rest)
  | '+' :: rest => (false, rest)
  | text => (false, text)

/-- The exponent written after the digits: nothing, or the letter `e` in either case,
an optional sign and at least one digit. -/
def readExponent : List Char → Option Int
  | [] => some 0
  | c :: rest =>
    if c = 'e' ∨ c = 'E' then
      let (negative, digits) := splitSign rest
      if digits ≠ [] ∧ digits.all Char.isDigit then
        some (if negative then -(wholeNumber digits : Int) else wholeNumber digits)
      else none
    else none

/-- Splits an optional point and the digits behind it off. -/
def splitFraction : List Char → List Char × List Char
  | '.' :: rest => (rest.takeWhile Char.isDigit, rest.dropWhile Char.isDigit)
  | text => ([], text)

/-- Reads an unsigned decimal, to which the sign is given. -/
def readDecimal (negative : Bool) (text : List Char) : Option Decimal :=
  let whole := text.takeWhile Char.isDigit
  let (fraction, rest) := splitFraction (text.dropWhile Char.isDigit)
  if whole = [] ∧ fraction = [] then none
  else (readExponent rest).map fun exponent =>
    ⟨negative, wholeNumber (whole ++ fraction), exponent - fraction.length⟩

/-- Reads an unsigned word, to which the sign is given. -/
def readWord (negative : Bool) (text : List Char) : Option Numeral :=
  let word := text.map Char.toLower
  if word = ['i', 'n', 'f'] ∨ word = ['i', 'n', 'f', 'i', 'n', 'i', 't', 'y'] then
    some (infinity negative)
  else if word = ['n', 'a', 'n'] then some nan
  else none

/-- Reads a literal; texts outside the grammar have no numeral. -/
def read (text : List Char) : Option Numeral :=
  let (negative, rest) := splitSign text
  match readDecimal negative rest with
  | some d => some (decimal d)
  | none => readWord negative rest

/-- The binary32 number nearest to what a numeral denotes. -/
def toBinary32 : Numeral → Binary32
  | decimal d => d.toBinary32
  | infinity negative => .infinite negative
  | nan => .nan

end Numeral

end ChipEight
