/-!
# Magnitudes of single-precision numbers

A magnitude is a point of the binary32 grid without its sign: the finite points
in increasing order, then infinity. Each point is measured exactly, as a whole
number of units of `2 ^ (-149)`, the least positive point. Infinity takes the
place that the next finite point would have, `2 ^ 128`, so that rounding past the
largest finite point needs no rule of its own. Signs, not-a-number and the
arithmetic on whole numbers are in `ChipEight.Binary32.Basic`.
-/

namespace ChipEight

/-- A point of the non-negative half of the grid, by its place in increasing order.
The place is also the bit pattern of the point without its sign bit. -/
abbrev Magnitude := Fin 0x7F800001

namespace Magnitude

/-- The place of zero. -/
def zero : Magnitude := ⟨0, by decide⟩

/-- The place of infinity, above all finite points. -/
def infinity : Magnitude := ⟨0x7F800000, by decide⟩

/-- Number of points with one spacing, `2 ^ 23`. -/
def runLength : Nat := 0x800000

/-- Exact size of the point at a place, in units of `2 ^ (-149)`. The points of the first
two runs are spaced by one unit; with each further run the spacing doubles. -/
def units (place : Nat) : Nat :=
  if place < runLength then place
  else (runLength + place % runLength) <<< (place / runLength - 1)

/-- Size of a place, by the number of the run that it is in and its position there. -/
theorem units_eq (place : Nat) :
    units place = if place / runLength = 0 then place % runLength
      else (runLength + place % runLength) <<< (place / runLength - 1) := by
  have hpos : 0 < runLength := by decide
  unfold units
  by_cases h : place < runLength
  · rw [if_pos h, if_pos (Nat.div_eq_of_lt h), Nat.mod_eq_of_lt h]
  · have hdiv : place / runLength ≠ 0 := by
      intro h0
      exact h ((Nat.div_eq_zero_iff_lt hpos).1 h0)
    rw [if_neg h, if_neg hdiv]

/-- Later places are larger sizes. -/
theorem units_strict {a b : Nat} (h : a < b) : units a < units b := by
  have hpos : 0 < runLength := by decide
  have ha := Nat.div_add_mod a runLength
  have hb := Nat.div_add_mod b runLength
  have hra : a % runLength < runLength := Nat.mod_lt _ hpos
  have hrb : b % runLength < runLength := Nat.mod_lt _ hpos
  have hruns : a / runLength ≤ b / runLength := Nat.div_le_div_right (Nat.le_of_lt h)
  rw [units_eq, units_eq, Nat.shiftLeft_eq, Nat.shiftLeft_eq]
  by_cases hsame : a / runLength = b / runLength
  · have hmod : a % runLength < b % runLength := by
      rw [hsame] at ha
      omega
    rw [hsame]
    by_cases hzero : b / runLength = 0
    · rw [if_pos hzero, if_pos hzero]
      exact hmod
    · rw [if_neg hzero, if_neg hzero]
      exact Nat.mul_lt_mul_of_pos_right (Nat.add_lt_add_left hmod _) (Nat.two_pow_pos _)
  · have hlt : a / runLength < b / runLength := Nat.lt_of_le_of_ne hruns hsame
    have hb0 : b / runLength ≠ 0 := Nat.ne_of_gt (Nat.zero_lt_of_lt hlt)
    rw [if_neg hb0]
    by_cases hzero : a / runLength = 0
    · rw [if_pos hzero]
      calc a % runLength < runLength + b % runLength :=
            Nat.lt_of_lt_of_le hra (Nat.le_add_right _ _)
        _ ≤ (runLength + b % runLength) * 2 ^ (b / runLength - 1) :=
          Nat.le_mul_of_pos_right _ (Nat.two_pow_pos _)
    · rw [if_neg hzero]
      calc (runLength + a % runLength) * 2 ^ (a / runLength - 1)
          < 2 * runLength * 2 ^ (a / runLength - 1) :=
            Nat.mul_lt_mul_of_pos_right (by rw [Nat.two_mul]; exact Nat.add_lt_add_left hra _)
              (Nat.two_pow_pos _)
        _ = runLength * 2 ^ (a / runLength - 1 + 1) := by
            rw [Nat.pow_succ, Nat.mul_comm 2 runLength, Nat.mul_assoc, Nat.mul_comm 2]
        _ ≤ runLength * 2 ^ (b / runLength - 1) :=
            Nat.mul_le_mul_left _ (Nat.pow_le_pow_right (by decide)
              (by rw [Nat.sub_add_cancel (Nat.pos_of_ne_zero hzero)]; exact Nat.le_pred_of_lt hlt))
        _ ≤ (runLength + b % runLength) * 2 ^ (b / runLength - 1) :=
            Nat.mul_le_mul_right _ (Nat.le_add_right _ _)

/-- Place of the last point that is not above `num / den` units, on the grid continued
without bound. The leading 24 bits of the whole part fix it. -/
def floorPlace (num den : Nat) : Nat :=
  let whole := num / den
  let shift := whole.log2 - 23
  (whole >>> shift) + shift * runLength

/-- Place of the point nearest to `num / den` units, on the grid continued without
bound. Of two nearest points the one at the even place is taken. -/
def nearestPlace (num den : Nat) : Nat :=
  let below := floorPlace num den
  let middle := (units below + units (below + 1)) * den
  if 2 * num < middle then below
  else if middle < 2 * num then below + 1
  else below + below % 2

/-- The magnitude nearest to `num / den` units, ties to the even place. Everything
that would round to `2 ^ 128` or more is infinity. -/
def round (num den : Nat) : Magnitude :=
  ⟨min (nearestPlace num den) 0x7F800000, by omega⟩

/-- Number of units in one, `2 ^ 149`. -/
def unitsPerOne : Nat := 1 <<< 149

end Magnitude

end ChipEight
