import ChipEight.Proofs.CommandLines
import ChipEight.Proofs.Literals
import Mathlib.Algebra.Order.Field.Basic
import Mathlib.Tactic.Linarith
import Mathlib.Tactic.Positivity

/-!
# Texts that are rates

The check whether a number can be a rate is made after rounding, so what it asks of the exact number
is decided at the two ends of the grid. Halfway between zero and the least positive point, and up to
there, a number is rounded to zero, whose place is even. Halfway between the largest finite point,
whose place is odd, and infinity, and from there on, it is rounded to infinity. A text is a rate if
it is a decimal literal whose exact value is between these two bounds, and only then.
-/

namespace ChipEight

namespace Magnitude

variable {num den : Nat}

/-- Only what is more than half of the least positive point is not rounded to zero. -/
theorem round_pos_iff (hden : 0 < den) : 0 < (round num den).val ↔ den < 2 * num := by
  have hmiddle : (units 0 + units (0 + 1)) * den = den := by
    rw [units_of_le (by decide), units_of_le (by decide)]
    omega
  have hplace : 0 < nearestPlace num den ↔ _ := lt_nearestPlace_iff hden
  rw [hmiddle] at hplace
  change 0 < min (nearestPlace num den) 0x7F800000 ↔ den < 2 * num
  omega

/-- Only what is less than the middle between the largest finite point and infinity is not rounded
to infinity. -/
theorem round_lt_infinity_iff (hden : 0 < den) :
    round num den < infinity ↔ 2 * num < (Nat.pow 2 278 - Nat.pow 2 253) * den := by
  have hmiddle : units 0x7F7FFFFF + units (0x7F7FFFFF + 1) = Nat.pow 2 278 - Nat.pow 2 253 := by
    decide +kernel
  have hplace : 0x7F7FFFFF < nearestPlace num den ↔ _ := lt_nearestPlace_iff hden
  rw [hmiddle] at hplace
  change min (nearestPlace num den) 0x7F800000 < 0x7F800000 ↔ _
  generalize (Nat.pow 2 278 - Nat.pow 2 253) * den = middle at hplace ⊢
  omega

end Magnitude

/-- A number can be a rate if it has no sign and is neither zero nor infinity. -/
theorem Binary32.isRate_number_iff {negative : Bool} {p : Magnitude} :
    (number negative p).isRate = true ↔ negative = false ∧ 0 < p.val ∧ p < .infinity := by
  cases negative with
  | true => simp [isRate_negative]
  | false =>
    constructor
    · intro h
      obtain ⟨hfinite, hpositive⟩ := Bool.and_eq_true_iff.1 h
      have hlt := of_decide_eq_true hpositive
      rw [zero_eq, magnitude_lt_iff] at hlt
      exact ⟨rfl, hlt, Magnitude.lt_infinity (of_decide_eq_true hfinite)⟩
    · rintro ⟨-, hpositive, hfinite⟩
      exact isRate_magnitude hpositive (Fin.ne_of_lt hfinite)

/-- An exact number is above the middle between zero and the least positive number, and below the
middle between the largest finite number and the one that would come next. -/
def InRateRange (v : Rat) : Prop := 1 / 2 ^ 150 < v ∧ v < 2 ^ 128 - 2 ^ 103

namespace Decimal

/-- The denominator of a decimal is positive. -/
theorem denominator_pos (d : Decimal) : 0 < d.denominator := Nat.pow_pos (by decide)

/-- A power of ten is at least a power of two with three times the exponent. -/
theorem two_pow_le_ten_pow (e : Nat) : 2 ^ (3 * e) ≤ Nat.pow 10 e := by
  rw [pow_mul]
  exact Nat.pow_le_pow_left (by decide) e

/-- With enough bits a decimal is rounded to infinity. -/
theorem round_of_large {d : Decimal} (hne : d.digits ≠ 0) (hexponent : 0 ≤ d.exponent)
    (hbits : 129 ≤ 3 * d.exponent + (d.digits.log2 : Int)) :
    Magnitude.round (d.numerator * Magnitude.unitsPerOne) d.denominator = .infinity := by
  have hden : d.denominator = 1 := by
    rw [denominator, show (-d.exponent).toNat = 0 by omega, Nat.pow_eq, Nat.pow_zero]
  have hnum : 2 ^ 129 ≤ d.numerator := by
    calc 2 ^ 129 ≤ 2 ^ (d.digits.log2 + 3 * d.exponent.toNat) :=
          Nat.pow_le_pow_right (by decide) (by omega)
      _ = 2 ^ d.digits.log2 * 2 ^ (3 * d.exponent.toNat) := pow_add _ _ _
      _ ≤ d.numerator := Nat.mul_le_mul (Nat.log2_self_le hne) (two_pow_le_ten_pow _)
  have hnot : ¬Magnitude.round (d.numerator * Magnitude.unitsPerOne) d.denominator < .infinity := by
    rw [Magnitude.round_lt_infinity_iff d.denominator_pos, hden, Magnitude.unitsPerOne]
    norm_num at hnum ⊢
    omega
  exact Fin.le_antisymm (Nat.le_of_lt_succ (Fin.isLt _)) (Nat.le_of_not_lt hnot)

/-- With too few bits a decimal is rounded to zero. -/
theorem round_of_small {d : Decimal} (hbits : 3 * d.exponent + (d.digits.log2 : Int) + 152 ≤ 0) :
    Magnitude.round (d.numerator * Magnitude.unitsPerOne) d.denominator = .zero := by
  have hnum : d.numerator = d.digits := by
    rw [numerator, show d.exponent.toNat = 0 by omega]
    exact Nat.mul_one _
  have hsmall : 2 * (d.digits * Magnitude.unitsPerOne) ≤ d.denominator := by
    calc 2 * (d.digits * Magnitude.unitsPerOne) = d.digits * 2 ^ 150 := by
          rw [Magnitude.unitsPerOne]
          norm_num
          omega
      _ ≤ 2 ^ (d.digits.log2 + 1) * 2 ^ 150 :=
          Nat.mul_le_mul_right _ (Nat.le_of_lt Nat.lt_log2_self)
      _ = 2 ^ (d.digits.log2 + 1 + 150) := (pow_add _ _ _).symm
      _ ≤ 2 ^ (3 * (-d.exponent).toNat) := Nat.pow_le_pow_right (by decide) (by omega)
      _ ≤ d.denominator := two_pow_le_ten_pow _
  have hnot := (Magnitude.round_pos_iff d.denominator_pos).not.2 (Nat.not_lt_of_le hsmall)
  rw [hnum]
  exact Fin.ext (Nat.eq_zero_of_not_pos hnot)

/-- The shortcuts for enormous exponents do not change how a decimal is rounded. -/
theorem toBinary32_eq (d : Decimal) : d.toBinary32 =
    .rounded d.negative (d.numerator * Magnitude.unitsPerOne) d.denominator := by
  rw [Binary32.rounded]
  unfold toBinary32
  dsimp only
  split
  · next hzero =>
    have hnum : d.numerator * Magnitude.unitsPerOne = 0 := by
      rw [numerator, hzero, Nat.zero_mul, Nat.zero_mul]
    have hzero : ¬d.denominator < 2 * 0 := Nat.not_lt_zero _
    have hnot := (Magnitude.round_pos_iff d.denominator_pos).not.2 hzero
    rw [hnum]
    exact congrArg _ (Fin.ext (Nat.eq_zero_of_not_pos hnot).symm)
  · next hne =>
    split
    · next hlarge => rw [round_of_large hne hlarge.1 hlarge.2, Binary32.infinite]
    · split
      · next hsmall => rw [round_of_small hsmall]
      · rfl

/-- Numerator and denominator are those of the size. -/
theorem value_eq (d : Decimal) :
    d.value = (if d.negative then -1 else 1) * (d.numerator / d.denominator) := by
  have hten : (10 : Rat) ≠ 0 := by norm_num
  rw [value, numerator, denominator, mul_assoc]
  congr 1
  rcases Int.le_total 0 d.exponent with hpos | hneg
  · obtain ⟨e, he⟩ := Int.eq_ofNat_of_zero_le hpos
    rw [he]
    simp
  · obtain ⟨e, he⟩ := Int.exists_eq_neg_ofNat hneg
    rw [he]
    simp [div_eq_mul_inv]

/-- The lower bound of the range, by cross-products. -/
theorem lower_iff {num den : Nat} (hden : 0 < den) :
    den < 2 * (num * Magnitude.unitsPerOne) ↔ (1 / 2 ^ 150 : Rat) < num / den := by
  have hpos : (0 : Rat) < den := by exact_mod_cast hden
  have hcross : (1 / 2 ^ 150 : Rat) < num / den ↔ den < num * 2 ^ 150 := by
    rw [div_lt_div_iff₀ (by positivity) hpos, one_mul]
    exact_mod_cast Iff.rfl
  rw [hcross, Magnitude.unitsPerOne]
  norm_num
  omega

/-- The upper bound of the range, by cross-products. -/
theorem upper_iff {num den : Nat} (hden : 0 < den) :
    2 * (num * Magnitude.unitsPerOne) < (Nat.pow 2 278 - Nat.pow 2 253) * den ↔
      (num / den : Rat) < 2 ^ 128 - 2 ^ 103 := by
  have hpos : (0 : Rat) < den := by exact_mod_cast hden
  have hcross : (num / den : Rat) < 2 ^ 128 - 2 ^ 103 ↔ num < (2 ^ 128 - 2 ^ 103) * den := by
    rw [div_lt_iff₀ hpos]
    norm_num
    exact_mod_cast Iff.rfl
  rw [hcross, Magnitude.unitsPerOne]
  norm_num
  omega

/-- After rounding a decimal can be a rate if its exact value is in the range of rates, and only
then. -/
theorem isRate_iff (d : Decimal) : d.toBinary32.isRate = true ↔ InRateRange d.value := by
  have hsize : (0 : Rat) ≤ d.numerator / d.denominator := by positivity
  rw [toBinary32_eq, Binary32.rounded, Binary32.isRate_number_iff, value_eq,
    Magnitude.round_pos_iff d.denominator_pos, Magnitude.round_lt_infinity_iff d.denominator_pos,
    lower_iff d.denominator_pos, upper_iff d.denominator_pos, InRateRange]
  cases d.negative with
  | true =>
    have hlow : (0 : Rat) < 1 / 2 ^ 150 := by positivity
    constructor
    · rintro ⟨hsign, -⟩
      cases hsign
    · rintro ⟨hvalue, -⟩
      rw [if_pos rfl] at hvalue
      linarith
  | false =>
    rw [if_neg Bool.false_ne_true, one_mul]
    exact and_iff_right rfl

/-- A decimal in the range of rates is its numerator over its denominator, and is rounded as
that. -/
theorem rounded_of_inRateRange {d : Decimal} (h : InRateRange d.value) :
    ∃ num den : Nat, 0 < den ∧ d.value = num / den ∧
      d.toBinary32 = .rounded false (num * Magnitude.unitsPerOne) den := by
  have hrate := d.isRate_iff.2 h
  rw [toBinary32_eq, Binary32.rounded] at hrate
  obtain ⟨hsign, -⟩ := Binary32.isRate_number_iff.1 hrate
  refine ⟨d.numerator, d.denominator, d.denominator_pos, ?_, ?_⟩
  · rw [value_eq, hsign, if_neg Bool.false_ne_true, one_mul]
  · rw [toBinary32_eq, hsign]

end Decimal

/-- What is said about a text is what its numeral asks for. A text without a numeral is rejected. -/
theorem readRate_eq (text : String) : readRate text =
    match Numeral.read text.toList with
    | none => .error (if text = "" then .empty else .malformed)
    | some numeral =>
      if numeral.toBinary32.isRate then .ok numeral.toBinary32 else .error (.notPositive text) := by
  by_cases hempty : text = ""
  · subst hempty
    rfl
  · have hsome : ¬text.isEmpty = true := by simpa using hempty
    rw [if_neg hempty]
    exact if_neg hsome

/-- No word stands for a rate. -/
theorem SignedWord.isRate_numeral (w : SignedWord) : w.numeral.toBinary32.isRate = false := by
  rw [numeral]
  cases w.word with
  | nan => rfl
  | _ =>
    refine Bool.eq_false_iff.2 fun h => ?_
    exact absurd (Binary32.isRate_number_iff.1 h).2.2 (Fin.lt_irrefl _)

/-- A literal in the range of rates is a rate. -/
theorem Literal.readRate_of_inRateRange {l : Literal} {text : String} (h : l.text = text.toList)
    (hrange : InRateRange l.value) : readRate text = .ok l.decimal.toBinary32 := by
  rw [← l.value_decimal, ← Decimal.isRate_iff] at hrange
  rw [readRate_eq, Numeral.read_eq_some_iff.2 (.inl ⟨l, h, rfl⟩)]
  exact if_pos hrange

/-- Any other literal is reported. -/
theorem Literal.readRate_of_outOfRange {l : Literal} {text : String} (h : l.text = text.toList)
    (hrange : ¬InRateRange l.value) : readRate text = .error (.notPositive text) := by
  rw [← l.value_decimal, ← Decimal.isRate_iff] at hrange
  rw [readRate_eq, Numeral.read_eq_some_iff.2 (.inl ⟨l, h, rfl⟩)]
  exact if_neg hrange

/-- A word is reported. -/
theorem SignedWord.readRate_text {w : SignedWord} {text : String} (h : w.text = text.toList) :
    readRate text = .error (.notPositive text) := by
  rw [readRate_eq, Numeral.read_eq_some_iff.2 (.inr ⟨w, h, rfl⟩)]
  exact if_neg (Bool.eq_false_iff.1 w.isRate_numeral)

/-- A text that is neither is empty or malformed. -/
theorem readRate_outside {text : String} (hl : ∀ l : Literal, l.text ≠ text.toList)
    (hw : ∀ w : SignedWord, w.text ≠ text.toList) :
    readRate text = .error (if text = "" then .empty else .malformed) := by
  cases hread : Numeral.read text.toList with
  | none => rw [readRate_eq, hread]
  | some numeral =>
    obtain ⟨l, htext, -⟩ | ⟨w, htext, -⟩ := Numeral.read_eq_some_iff.1 hread
    · exact absurd htext (hl l)
    · exact absurd htext (hw w)

/-- Every rate is given by a literal in the range of rates. -/
theorem exists_literal_of_readRate {text : String} {rate : Binary32}
    (h : readRate text = .ok rate) : ∃ l : Literal, l.text = text.toList ∧ InRateRange l.value := by
  by_contra hnot
  have hl (l : Literal) : l.text ≠ text.toList := fun htext => by
    rw [l.readRate_of_outOfRange htext fun hrange => hnot ⟨l, htext, hrange⟩] at h
    cases h
  have hw (w : SignedWord) : w.text ≠ text.toList := fun htext => by
    rw [w.readRate_text htext] at h
    cases h
  rw [readRate_outside hl hw] at h
  cases h

/-- Which texts are rates, and why the others are not. -/
structure RateVerdict (text : String) : Prop where
  /-- A text is a rate if it is a decimal literal whose exact value is in the range of rates, and
  only then. -/
  accepted : (∃ rate, readRate text = .ok rate) ↔
    ∃ l : Literal, l.text = text.toList ∧ InRateRange l.value
  /-- A rate is the exact value, rounded once. -/
  rounded : ∀ rate, readRate text = .ok rate → ∀ l : Literal, l.text = text.toList →
    ∃ num den : Nat, 0 < den ∧ l.value = num / den ∧
      rate = .rounded false (num * Magnitude.unitsPerOne) den
  /-- A rate is finite and positive, so nothing is one that is rounded to zero or to infinity. -/
  positive : ∀ rate, readRate text = .ok rate → rate.isFinite = true ∧ 0 < rate
  /-- All other literals are reported: zeros, negative ones, and those that are too small or too
  large. -/
  outOfRange : ∀ l : Literal, l.text = text.toList → ¬InRateRange l.value →
    readRate text = .error (.notPositive text)
  /-- The words are reported in the same way. -/
  word : ∀ w : SignedWord, w.text = text.toList → readRate text = .error (.notPositive text)
  /-- Of all other texts it is said that they are empty or that they are no literals. -/
  outside : (∀ l : Literal, l.text ≠ text.toList) → (∀ w : SignedWord, w.text ≠ text.toList) →
    readRate text = .error (if text = "" then .empty else .malformed)

/-- Exactly the decimal literals whose exact value is in the range of rates are rates. -/
theorem readRate_decides (text : String) : RateVerdict text := by
  constructor
  case accepted =>
    constructor
    · rintro ⟨rate, hrate⟩
      exact exists_literal_of_readRate hrate
    · rintro ⟨l, hl, hrange⟩
      exact ⟨_, l.readRate_of_inRateRange hl hrange⟩
  case rounded =>
    intro rate hrate l hl
    by_cases hrange : InRateRange l.value
    · rw [l.readRate_of_inRateRange hl hrange] at hrate
      obtain rfl := Except.ok.inj hrate
      rw [← l.value_decimal] at hrange ⊢
      exact Decimal.rounded_of_inRateRange hrange
    · rw [l.readRate_of_outOfRange hl hrange] at hrate
      cases hrate
  case positive =>
    intro rate hrate
    obtain ⟨hfinite, hpositive⟩ := Bool.and_eq_true_iff.1 (isRate_of_readRate hrate)
    exact ⟨hfinite, of_decide_eq_true hpositive⟩
  case outOfRange => exact fun l hl hrange => l.readRate_of_outOfRange hl hrange
  case word => exact fun w hw => w.readRate_text hw
  case outside => exact readRate_outside

/-- A whole number, written without a sign. -/
def Literal.ofDigits (chars : List Char) (hdigit : chars.all Char.isDigit = true)
    (hne : chars ≠ []) : Literal :=
  ⟨.absent, .ofAll chars hdigit, none, none, .inl hne⟩

/-- It has the value of its digits. -/
theorem Literal.value_ofDigits {chars : List Char} (hdigit : chars.all Char.isDigit = true)
    (hne : chars ≠ []) : (ofDigits chars hdigit hne).value = DigitRow.wholeValue chars := by
  simp [value, ofDigits, DigitRow.ofAll, fraction, Exponent.power, Sign.factor,
    DigitRow.fractionValue]

/-- The whole number halfway between the largest finite number and the one that would come
next. -/
def firstTooLarge : Literal :=
  .ofDigits "340282356779733661637539395458142568448".toList (by decide) (by decide)

/-- The whole number before it. -/
def lastRate : Literal :=
  .ofDigits "340282356779733661637539395458142568447".toList (by decide) (by decide)

/-- A decimal fraction that is a little more than half of the least positive number. -/
def smallRate : Literal :=
  ⟨.absent, .ofAll ['7'] rfl, some (.ofAll ['1'] rfl),
    some ⟨'e', .minus, .ofAll ['4', '6'] rfl, .inl rfl, by decide⟩, .inl (by decide)⟩

/-- Next to the bounds, texts are rates or are rejected as their exact values ask for. -/
theorem readRate_near_bounds :
    (∃ rate, readRate "7.1e-46" = .ok rate) ∧
    (∃ rate, readRate "340282356779733661637539395458142568447" = .ok rate) ∧
    readRate "340282356779733661637539395458142568448" =
      .error (.notPositive "340282356779733661637539395458142568448") ∧
    readRate "-Infinity" = .error (.notPositive "-Infinity") := by
  have hsmall : smallRate.value = (7 + 1 / 10) * 10 ^ (-46 : Int) := by
    have hdigits : DigitRow.wholeValue ['7'] = 7 ∧ DigitRow.digit '1' = 1 ∧
        DigitRow.wholeValue ['4', '6'] = 46 := by decide
    simp [smallRate, DigitRow.ofAll, Literal.value, Literal.fraction, Exponent.power, Sign.factor,
      DigitRow.fractionValue, hdigits]
  have hlast : lastRate.value = (340282356779733661637539395458142568447 : Nat) :=
    (Literal.value_ofDigits _ _).trans (congrArg _ (by decide))
  have hfirst : firstTooLarge.value = (340282356779733661637539395458142568448 : Nat) :=
    (Literal.value_ofDigits _ _).trans (congrArg _ (by decide))
  have hsmallRange : InRateRange smallRate.value := by
    rw [hsmall]
    norm_num [InRateRange]
  have hlastRange : InRateRange lastRate.value := by
    rw [hlast]
    norm_num [InRateRange]
  have hfirstRange : ¬InRateRange firstTooLarge.value := by
    rw [hfirst]
    norm_num [InRateRange]
  exact ⟨(readRate_decides _).accepted.2 ⟨smallRate, rfl, hsmallRange⟩,
    (readRate_decides _).accepted.2 ⟨lastRate, rfl, hlastRange⟩,
    (readRate_decides _).outOfRange firstTooLarge rfl hfirstRange,
    (readRate_decides _).word ⟨.minus, .infinity, "Infinity".toList, rfl⟩ rfl⟩

end ChipEight
