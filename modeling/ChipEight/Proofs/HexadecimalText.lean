import ChipEight.Hexadecimal

/-!
# Reading hexadecimal text

A number that is shown with a fixed number of hexadecimal digits can be read back from them, as long
as it needs no more digits than that. Then its text is the row of its digits, each upper-case and
none of them left out.
-/

namespace ChipEight

/-- The character of a hexadecimal digit. -/
def hexDigit (digit : Nat) : Char := .ofNat (if digit < 10 then 48 + digit else 55 + digit)

/-- The last digits of a number, as many as asked for, the most significant first. -/
def hexDigits : Nat → Nat → List Char
  | 0, _ => []
  | width + 1, n => hexDigits width (n / 16) ++ [hexDigit (n % 16)]

/-- The digit that a character stands for. -/
def hexValue (c : Char) : Nat := if c.isDigit then c.toNat - 48 else c.toNat - 55

/-- The number that a row of digits spells, the most significant first. -/
def readHex (digits : List Char) : Nat := digits.foldl (fun n c => 16 * n + hexValue c) 0

/-- The character of a digit is the upper-case one. -/
theorem toUpper_digitChar : ∀ digit < 16, (Nat.digitChar digit).toUpper = hexDigit digit := by
  decide

/-- The character of a digit stands for the digit. -/
theorem hexValue_hexDigit : ∀ digit < 16, hexValue (hexDigit digit) = digit := by
  decide

/-- There are as many digits as asked for. -/
@[simp] theorem length_hexDigits (width n : Nat) : (hexDigits width n).length = width := by
  induction width generalizing n with
  | zero => rfl
  | succ width ih => rw [hexDigits, List.length_append, ih, List.length_singleton]

/-- Every digit is one of the sixteen characters. -/
theorem mem_hexDigits {width n : Nat} {c : Char} (h : c ∈ hexDigits width n) :
    c ∈ "0123456789ABCDEF".toList := by
  induction width generalizing n with
  | zero => cases h
  | succ width ih =>
    rw [hexDigits, List.mem_append, List.mem_singleton] at h
    obtain hfront | rfl := h
    · exact ih hfront
    · have hall : ∀ digit < 16, hexDigit digit ∈ "0123456789ABCDEF".toList := by decide
      exact hall (n % 16) (Nat.mod_lt n (by decide))

/-- A number that the digits suffice for is read back from them. -/
theorem readHex_hexDigits {width n : Nat} (h : n < Nat.pow 16 width) :
    readHex (hexDigits width n) = n := by
  induction width generalizing n with
  | zero => exact (Nat.lt_one_iff.1 h).symm
  | succ width ih =>
    have hfront : n / 16 < Nat.pow 16 width :=
      Nat.div_lt_of_lt_mul (Nat.pow_succ' ▸ h)
    have hlast := hexValue_hexDigit (n % 16) (Nat.mod_lt n (by decide))
    have hread : readHex (hexDigits width (n / 16) ++ [hexDigit (n % 16)]) =
        16 * readHex (hexDigits width (n / 16)) + hexValue (hexDigit (n % 16)) := by
      rw [readHex, List.foldl_append]
      rfl
    rw [hexDigits, hread, ih hfront, hlast]
    omega

/-- Zero has zeros only. -/
theorem hexDigits_zero (width : Nat) : hexDigits width 0 = List.replicate width '0' := by
  induction width with
  | zero => rfl
  | succ width ih =>
    rw [hexDigits, Nat.zero_div, ih, List.replicate_succ']
    rfl

/-- The digits of a number without leading zeros. -/
def ownDigits (n : Nat) : List Char := (Nat.toDigits 16 n).map Char.toUpper

/-- A number below sixteen has one digit. -/
theorem ownDigits_of_lt {n : Nat} (h : n < 16) : ownDigits n = [hexDigit n] := by
  rw [ownDigits, Nat.toDigits_of_lt_base h, List.map_singleton, toUpper_digitChar n h]

/-- Any other number has its last digit behind the digits of its sixteenth. -/
theorem ownDigits_of_le {n : Nat} (h : 16 ≤ n) :
    ownDigits n = ownDigits (n / 16) ++ [hexDigit (n % 16)] := by
  rw [ownDigits, Nat.toDigits_of_base_le (by decide) h, List.map_append, List.map_singleton,
    toUpper_digitChar _ (Nat.mod_lt n (by decide)), ownDigits]

/-- Zeros in front of the own digits of a number make up the digits asked for. -/
theorem replicate_append_ownDigits {width n : Nat} (h : n < Nat.pow 16 (width + 1)) :
    List.replicate (width + 1 - (ownDigits n).length) '0' ++ ownDigits n =
      hexDigits (width + 1) n := by
  induction width generalizing n with
  | zero =>
    have hlt : n < 16 := h
    rw [ownDigits_of_lt hlt, hexDigits, Nat.mod_eq_of_lt hlt]
    rfl
  | succ width ih =>
    by_cases hlt : n < 16
    · rw [ownDigits_of_lt hlt, hexDigits, Nat.div_eq_of_lt hlt, hexDigits_zero,
        Nat.mod_eq_of_lt hlt]
      rfl
    · have hfront : n / 16 < Nat.pow 16 (width + 1) :=
        Nat.div_lt_of_lt_mul (Nat.pow_succ' ▸ h)
      rw [ownDigits_of_le (Nat.le_of_not_lt hlt), List.length_append, List.length_singleton,
        Nat.add_sub_add_right, ← List.append_assoc, ih hfront]
      rfl

/-- The text of a number is the row of its digits, if they suffice for it. -/
theorem hexText_eq {width n : Nat} (hwidth : 0 < width) (h : n < Nat.pow 16 width) :
    hexText width n = String.ofList (hexDigits width n) := by
  obtain ⟨count, rfl⟩ := Nat.exists_eq_add_of_lt hwidth
  rw [Nat.zero_add] at h ⊢
  rw [← replicate_append_ownDigits h]
  rfl

end ChipEight
