import ChipEight.Binary32.Basic

/-!
# Shortest decimal text of a number

A positive finite number is written with the fewest decimal digits that read back
as the same number; of two such spellings the nearer one is taken, and of two
equally near ones the larger. The digits are written out in full, without an
exponent and without a point where there is no fraction.
-/

namespace ChipEight

namespace Magnitude

/-- The magnitude nearest to `digits * 10 ^ exponent`. -/
def ofScientific (digits : Nat) (exponent : Int) : Magnitude :=
  round (digits * Nat.pow 10 exponent.toNat * unitsPerOne) (Nat.pow 10 (-exponent).toNat)

/-- The multiple of `10 ^ exponent` that rounds to the magnitude `m` and is nearest to
it, counted in multiples, if any multiple rounds to it. Only the two neighbours of the
exact size can be nearest. -/
def onDecimalGrid (m : Magnitude) (exponent : Int) : Option Nat :=
  let num := units m * Nat.pow 10 (-exponent).toNat
  let den := unitsPerOne * Nat.pow 10 exponent.toNat
  let below := num / den
  match ofScientific below exponent == m, ofScientific (below + 1) exponent == m with
  | true, true => some (if 2 * (num % den) < den then below else below + 1)
  | true, false => some below
  | false, true => some (below + 1)
  | false, false => none

/-- Searches ever finer decimal grids, beginning at `10 ^ exponent`, for a multiple that
rounds to `m`. Answers the multiple and its grid. -/
def shortestFrom (m : Magnitude) : Nat → Int → Option (Nat × Int)
  | 0, _ => none
  | tries + 1, exponent =>
    match m.onDecimalGrid exponent with
    | some digits => some (digits, exponent)
    | none => shortestFrom m tries (exponent - 1)

/-- Digits and exponent of the shortest decimal that rounds to `m`, which has to be
positive and finite. Such a magnitude is below `10 ^ 39` and needs no grid finer than
`10 ^ (-46)`. -/
def shortest (m : Magnitude) : Option (Nat × Int) := m.shortestFrom 86 39

end Magnitude

namespace Binary32

/-- Writes `digits * 10 ^ exponent` in full. -/
def positional (digits : Nat) (exponent : Int) : List Char :=
  let text := Nat.toDigits 10 digits
  let places := (-exponent).toNat
  if places = 0 then text ++ List.replicate exponent.toNat '0'
  else if places < text.length then
    text.take (text.length - places) ++ '.' :: text.drop (text.length - places)
  else '0' :: '.' :: List.replicate (places - text.length) '0' ++ text

/-- Decimal text of a number. -/
def text : Binary32 → String
  | nan => "NaN"
  | number negative magnitude =>
    let size :=
      if magnitude = .infinity then ['i', 'n', 'f']
      else if magnitude = .zero then ['0']
      else match magnitude.shortest with
        | some (digits, exponent) => positional digits exponent
        | none => ['0']
    String.ofList (if negative then '-' :: size else size)

end Binary32

end ChipEight
