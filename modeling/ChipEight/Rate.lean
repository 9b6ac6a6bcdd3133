import ChipEight.Decimal

/-!
# Rates given as text

A rate is written as a decimal literal. It has to be finite and positive after it
was rounded to binary32.
-/

namespace ChipEight

/-- Why a text is no rate. -/
inductive RateError where
  /-- There is no text. -/
  | empty
  /-- The text is no decimal literal. -/
  | malformed
  /-- The number is not finite and positive. -/
  | notPositive (text : String)
  deriving DecidableEq

/-- The wording of an error. -/
def RateError.message : RateError → String
  | empty => "cannot parse float from empty string"
  | malformed => "invalid float literal"
  | notPositive text => "rate must be a positive number of Hz, got " ++ text

/-- Whether a number can be a rate. -/
def Binary32.isRate (x : Binary32) : Bool := x.isFinite && decide (0 < x)

/-- Reads a rate. -/
def readRate (text : String) : Except RateError Binary32 :=
  if text.isEmpty then .error .empty
  else match Numeral.read text.toList with
    | none => .error .malformed
    | some numeral =>
      if numeral.toBinary32.isRate then .ok numeral.toBinary32 else .error (.notPositive text)

end ChipEight
