/-!
# Hexadecimal text

Addresses and instruction words are shown in upper-case hexadecimal, padded with
zeros on the left to a least width and never cut.
-/

namespace ChipEight

/-- Upper-case hexadecimal text of a number, padded to `width` digits. -/
def hexText (width n : Nat) : String :=
  let digits := (Nat.toDigits 16 n).map Char.toUpper
  String.ofList (List.replicate (width - digits.length) '0' ++ digits)

end ChipEight
