import ChipEight.Binary32.Basic

/-!
# Rounding

The points of the grid lie in runs of equal spacing. Every number of units lies between a
point and the next one, and rounding takes one of these two: the nearer one, or the one at the
even place. Hence rounding leaves the points themselves as they are, and it never goes past a
point that the exact number has not passed.
-/

namespace ChipEight

namespace Magnitude

/-- Distance in units from the point at a place to the next one. -/
def spacing (place : Nat) : Nat := 1 <<< (place / runLength - 1)

/-- Size of a point whose spacing is `1 <<< shift`, by its leading bits. This also covers the
first point of the next run. -/
theorem units_run {leading : Nat} (shift : Nat) (hlow : runLength ≤ leading)
    (hhigh : leading ≤ 2 * runLength) :
    units (leading + shift * runLength) = leading <<< shift := by
  rw [units_eq]
  unfold runLength at hlow hhigh ⊢
  rcases Nat.lt_or_eq_of_le hhigh with hlt | rfl
  · have hdiv : (leading + shift * 0x800000) / 0x800000 = shift + 1 := by omega
    have hmod : (leading + shift * 0x800000) % 0x800000 = leading - 0x800000 := by omega
    rw [hdiv, hmod, if_neg (Nat.succ_ne_zero shift), Nat.add_sub_cancel' hlow, Nat.add_sub_cancel]
  · have hdiv : (2 * 0x800000 + shift * 0x800000) / 0x800000 = shift + 2 := by omega
    have hmod : (2 * 0x800000 + shift * 0x800000) % 0x800000 = 0 := by omega
    rw [hdiv, hmod, if_neg (Nat.succ_ne_zero _), Nat.shiftLeft_eq, Nat.shiftLeft_eq,
      show shift + 2 - 1 = shift + 1 from rfl, Nat.pow_succ]
    omega

/-- The points up to the end of the second run are all whole numbers of units. -/
theorem units_of_le {place : Nat} (h : place ≤ 2 * runLength) : units place = place := by
  by_cases hlt : place < runLength
  · exact if_pos hlt
  · have hrun := units_run 0 (Nat.le_of_not_lt hlt) h
    rw [Nat.zero_mul] at hrun
    exact hrun

/-- Every place is in the first run, or its point has leading bits and a spacing. -/
theorem place_cases (place : Nat) : place < runLength ∨
    ∃ leading shift, runLength ≤ leading ∧ leading < 2 * runLength ∧
      place = leading + shift * runLength := by
  unfold runLength
  by_cases h : place < 0x800000
  · exact .inl h
  · refine .inr ⟨0x800000 + place % 0x800000, place / 0x800000 - 1, ?_, ?_, ?_⟩ <;> omega

/-- The spacing in a run. -/
theorem spacing_run {leading : Nat} (shift : Nat) (hlow : runLength ≤ leading)
    (hhigh : leading < 2 * runLength) :
    spacing (leading + shift * runLength) = 1 <<< shift := by
  unfold runLength at hlow hhigh
  unfold spacing runLength
  have hdiv : (leading + shift * 0x800000) / 0x800000 = shift + 1 := by omega
  rw [hdiv, Nat.add_sub_cancel]

/-- The first run has the spacing one. -/
theorem spacing_of_lt {place : Nat} (h : place < runLength) : spacing place = 1 := by
  rw [spacing, Nat.div_eq_of_lt h]
  rfl

/-- The next point is one spacing away. -/
theorem units_succ (place : Nat) : units (place + 1) = units place + spacing place := by
  obtain hlt | ⟨leading, shift, hlow, hhigh, rfl⟩ := place_cases place
  · rw [spacing_of_lt hlt, units_of_le (by omega), units_of_le (by omega)]
  · rw [Nat.add_right_comm, units_run shift (by omega) (by omega),
      units_run shift hlow (by omega), spacing_run shift hlow hhigh, Nat.shiftLeft_eq,
      Nat.shiftLeft_eq, Nat.shiftLeft_eq, Nat.add_mul]

/-- Where the spacing is not one, a point is at least as large as a whole run. -/
theorem spacing_small (place : Nat) :
    spacing place = 1 ∨ spacing place * runLength ≤ units place := by
  obtain hlt | ⟨leading, shift, hlow, hhigh, rfl⟩ := place_cases place
  · exact .inl (spacing_of_lt hlt)
  · right
    rw [spacing_run shift hlow hhigh, units_run shift hlow (by omega), Nat.shiftLeft_eq,
      Nat.shiftLeft_eq, Nat.one_mul, Nat.mul_comm]
    exact Nat.mul_le_mul_right _ hlow

/-- The next point is at most two whole runs of the spacing away from zero, and if it is that
far away, then the place is odd. -/
theorem spacing_large (place : Nat) :
    units (place + 1) < spacing place * (2 * runLength) ∨
      units (place + 1) = spacing place * (2 * runLength) ∧ place % 2 = 1 := by
  obtain hlt | ⟨leading, shift, hlow, hhigh, rfl⟩ := place_cases place
  · left
    rw [spacing_of_lt hlt, units_of_le (by omega)]
    omega
  · rw [Nat.add_right_comm, units_run shift (by omega) (by omega), spacing_run shift hlow hhigh,
      Nat.shiftLeft_eq, Nat.shiftLeft_eq, Nat.one_mul, Nat.mul_comm (2 ^ shift)]
    rcases Nat.lt_or_eq_of_le hhigh with hnot | hlast
    · exact .inl (Nat.mul_lt_mul_of_pos_right hnot (Nat.two_pow_pos shift))
    · refine .inr ⟨congrArg (· * 2 ^ shift) hlast, ?_⟩
      unfold runLength at hlast ⊢
      omega

/-- Later places are no smaller sizes, and the other way round. -/
theorem units_le_iff {a b : Nat} : units a ≤ units b ↔ a ≤ b := by
  constructor
  · intro h
    exact Nat.le_of_not_lt fun hlt => Nat.not_le_of_lt (units_strict hlt) h
  · intro h
    rcases Nat.lt_or_eq_of_le h with hlt | rfl
    · exact Nat.le_of_lt (units_strict hlt)
    · exact Nat.le_refl _

/-- The leading bits of a number with more than 24 of them, and their distance from its end. -/
theorem leading_bits {whole : Nat} (h : 2 * runLength ≤ whole) :
    runLength ≤ whole >>> (whole.log2 - 23) ∧
      whole >>> (whole.log2 - 23) < 2 * runLength := by
  unfold runLength at h ⊢
  have hne : whole ≠ 0 := by omega
  have hlog : 24 ≤ whole.log2 := (Nat.le_log2 hne).2 h
  obtain ⟨shift, hshift⟩ := Nat.exists_eq_add_of_le' (Nat.le_trans (by decide : 23 ≤ 24) hlog)
  have hlow := Nat.log2_self_le hne
  have hhigh := whole.lt_log2_self
  rw [hshift, Nat.pow_add, Nat.mul_comm] at hlow
  rw [hshift, Nat.add_assoc, Nat.pow_add, Nat.mul_comm] at hhigh
  rw [hshift, Nat.add_sub_cancel, Nat.shiftRight_eq_div_pow]
  exact ⟨(Nat.le_div_iff_mul_le (Nat.two_pow_pos shift)).2 hlow,
    (Nat.div_lt_iff_lt_mul (Nat.two_pow_pos shift)).2 hhigh⟩

/-- A whole number of units lies at or behind its point and before the next one. -/
theorem units_floorPlace_whole (whole : Nat) :
    units ((whole >>> (whole.log2 - 23)) + (whole.log2 - 23) * runLength) ≤ whole ∧
      whole + 1 ≤ units ((whole >>> (whole.log2 - 23)) + (whole.log2 - 23) * runLength + 1) := by
  by_cases hsmall : whole < 2 * runLength
  · have hshift : whole.log2 - 23 = 0 := by
      by_cases hzero : whole = 0
      · rw [hzero]
        rfl
      · have hlog : whole.log2 < 24 := (Nat.log2_lt hzero).2 hsmall
        omega
    rw [hshift, Nat.shiftRight_zero, Nat.zero_mul, Nat.add_zero, units_of_le (by omega),
      units_of_le (by omega)]
    exact ⟨Nat.le_refl _, Nat.le_refl _⟩
  · obtain ⟨hlow, hhigh⟩ := leading_bits (Nat.le_of_not_lt hsmall)
    generalize whole.log2 - 23 = shift at hlow hhigh ⊢
    rw [Nat.add_right_comm, units_run shift hlow (by omega),
      units_run shift (by omega) (by omega), Nat.shiftLeft_eq, Nat.shiftLeft_eq,
      Nat.shiftRight_eq_div_pow]
    exact ⟨Nat.div_mul_le_self whole _,
      Nat.lt_mul_of_div_lt (Nat.lt_succ_self _) (Nat.two_pow_pos shift)⟩

/-- A number of units lies at or behind its point and before the next one. -/
theorem units_floorPlace (num : Nat) {den : Nat} (hden : 0 < den) :
    units (floorPlace num den) * den ≤ num ∧ num < units (floorPlace num den + 1) * den := by
  obtain ⟨hbelow, habove⟩ := units_floorPlace_whole (num / den)
  constructor
  · calc units (floorPlace num den) * den ≤ num / den * den := Nat.mul_le_mul_right den hbelow
      _ ≤ num := Nat.div_mul_le_self num den
  · calc num < (num / den + 1) * den := Nat.lt_mul_of_div_lt (Nat.lt_succ_self _) hden
      _ ≤ units (floorPlace num den + 1) * den := Nat.mul_le_mul_right den habove

section nearestPlace

variable {num den place : Nat}

/-- The points that a number has reached are those up to its place. -/
theorem le_floorPlace_iff (hden : 0 < den) :
    place ≤ floorPlace num den ↔ units place * den ≤ num := by
  obtain ⟨hbelow, habove⟩ := units_floorPlace num hden
  constructor
  · intro h
    exact Nat.le_trans (Nat.mul_le_mul_right den (units_le_iff.2 h)) hbelow
  · intro h
    have hunits : units place < units (floorPlace num den + 1) :=
      Nat.lt_of_mul_lt_mul_right (Nat.lt_of_le_of_lt h habove)
    exact Nat.le_of_not_lt fun hlt =>
      Nat.not_le_of_lt hunits (units_le_iff.2 (Nat.succ_le_of_lt hlt))

/-- Rounding takes the point below or the next one. -/
theorem nearestPlace_cases (num den : Nat) :
    nearestPlace num den = floorPlace num den ∨
      nearestPlace num den = floorPlace num den + 1 := by
  unfold nearestPlace
  dsimp only
  split
  · exact .inl rfl
  · split
    · exact .inr rfl
    · omega

/-- Rounding does not go below a point that the number has reached. -/
theorem le_nearestPlace (hden : 0 < den) (h : units place * den ≤ num) :
    place ≤ nearestPlace num den := by
  have hfloor := (le_floorPlace_iff hden).2 h
  have hcases := nearestPlace_cases num den
  omega

/-- Rounding stays at a point as long as the number is nearer to it than to the next one. -/
theorem nearestPlace_le_of_lt (hden : 0 < den)
    (h : 2 * num < (units place + units (place + 1)) * den) : nearestPlace num den ≤ place := by
  have hnext : num < units (place + 1) * den := by
    have hunits := Nat.mul_le_mul_right den (units_le_iff.2 (Nat.le_add_right place 1))
    rw [Nat.add_mul] at h
    omega
  have hfloor : ¬place + 1 ≤ floorPlace num den := fun hle =>
    Nat.not_le_of_lt hnext ((le_floorPlace_iff hden).1 hle)
  by_cases heq : floorPlace num den = place
  · have hstay : nearestPlace num den = place := by
      unfold nearestPlace
      dsimp only
      rw [heq, if_pos h]
    exact Nat.le_of_eq hstay
  · have hcases := nearestPlace_cases num den
    omega

/-- Rounding does not go past a point that the number has not passed. -/
theorem nearestPlace_le (hden : 0 < den) (h : num ≤ units place * den) :
    nearestPlace num den ≤ place := by
  refine nearestPlace_le_of_lt hden ?_
  have hnext := Nat.mul_lt_mul_of_pos_right (units_strict (Nat.lt_add_one place)) hden
  rw [Nat.add_mul]
  omega

/-- Rounding leaves a point behind when the number is nearer to the next one, or as near and
the place is odd. -/
theorem lt_nearestPlace (hden : 0 < den)
    (h : (units place + units (place + 1)) * den ≤ 2 * num)
    (hodd : (units place + units (place + 1)) * den = 2 * num → place % 2 = 1) :
    place < nearestPlace num den := by
  have hreached : units place * den ≤ num := by
    have hunits := Nat.mul_le_mul_right den (units_le_iff.2 (Nat.le_add_right place 1))
    rw [Nat.add_mul] at h
    omega
  have hfloor := (le_floorPlace_iff hden).2 hreached
  by_cases heq : floorPlace num den = place
  · unfold nearestPlace
    dsimp only
    rw [heq, if_neg (Nat.not_lt_of_le h)]
    split
    · exact Nat.lt_add_one place
    · have hplace := hodd (by omega)
      omega
  · have hcases := nearestPlace_cases num den
    omega

/-- Rounding leaves a point behind exactly when the number is nearer to the next one, or as near and
the place is odd. -/
theorem lt_nearestPlace_iff (hden : 0 < den) :
    place < nearestPlace num den ↔ (units place + units (place + 1)) * den < 2 * num ∨
      (units place + units (place + 1)) * den = 2 * num ∧ place % 2 = 1 := by
  constructor
  · intro h
    rcases Nat.lt_trichotomy (2 * num) ((units place + units (place + 1)) * den) with
      hlow | htie | hhigh
    · exact absurd h (Nat.not_lt_of_le (nearestPlace_le_of_lt hden hlow))
    · refine .inr ⟨htie.symm, ?_⟩
      have hunits := Nat.mul_lt_mul_of_pos_right (units_strict (Nat.lt_add_one place)) hden
      have hsum := htie
      rw [Nat.add_mul] at hsum
      have hbelow : units place * den ≤ num := by omega
      have habove : num < units (place + 1) * den := by omega
      have hreached := (le_floorPlace_iff hden).2 hbelow
      have hnext : ¬place + 1 ≤ floorPlace num den := fun hle =>
        Nat.not_le_of_lt habove ((le_floorPlace_iff hden).1 hle)
      have hfloor : floorPlace num den = place := by omega
      unfold nearestPlace at h
      dsimp only at h
      rw [hfloor, htie, if_neg (Nat.lt_irrefl _), if_neg (Nat.lt_irrefl _)] at h
      omega
    · exact .inl hhigh
  · rintro (hhigh | ⟨htie, hodd⟩)
    · exact lt_nearestPlace hden (Nat.le_of_lt hhigh) fun heq => absurd heq (Nat.ne_of_lt hhigh)
    · exact lt_nearestPlace hden (Nat.le_of_eq htie) fun _ => hodd

/-- A larger number is not rounded to an earlier place. -/
theorem nearestPlace_mono {other : Nat} (hden : 0 < den) (h : num ≤ other) :
    nearestPlace num den ≤ nearestPlace other den := by
  have hfloor : floorPlace num den ≤ floorPlace other den :=
    (le_floorPlace_iff hden).2 (Nat.le_trans (units_floorPlace num hden).1 h)
  rcases Nat.lt_or_eq_of_le hfloor with hlt | heq
  · have hcases := nearestPlace_cases num den
    have hother := nearestPlace_cases other den
    omega
  · unfold nearestPlace
    dsimp only
    rw [heq]
    -- The two numbers are on the same or on either side of one middle.
    generalize (units _ + units _) * den = middle
    repeat' split
    all_goals omega

end nearestPlace

/-- Rounding to a magnitude is rounding to a place, up to the place of infinity. -/
theorem round_eq {num den : Nat} {m : Magnitude} (h : nearestPlace num den = m.val) :
    round num den = m := by
  apply Fin.ext
  have hlt := m.isLt
  change min (nearestPlace num den) 0x7F800000 = m.val
  omega

/-- A number that is not past a magnitude is not rounded past it. -/
theorem round_le {num : Nat} {m : Magnitude} (h : num ≤ units m) : round num 1 ≤ m := by
  have hplace : nearestPlace num 1 ≤ m.val := nearestPlace_le Nat.one_pos (by omega)
  change min (nearestPlace num 1) 0x7F800000 ≤ m.val
  omega

/-- A larger number is not rounded to a smaller magnitude. -/
theorem round_mono {num other den : Nat} (hden : 0 < den) (h : num ≤ other) :
    round num den ≤ round other den := by
  have hplaces := nearestPlace_mono hden h
  change min (nearestPlace num den) 0x7F800000 ≤ min (nearestPlace other den) 0x7F800000
  omega

section remainder

variable {p q : Magnitude}

/-- A point before a given one. -/
theorem exists_place_before (hpositive : 0 < p.val) (h : p ≤ q) :
    ∃ place, q.val = place + 1 ∧ units p ≤ units (place + 1) ∧ 0 < units p := by
  have hle : p.val ≤ q.val := h
  obtain ⟨place, hplace⟩ := Nat.exists_eq_add_of_le' (Nat.le_trans hpositive hle)
  refine ⟨place, hplace, ?_, ?_⟩
  · rw [← hplace]
    exact units_le_iff.2 hle
  · exact units_strict hpositive

/-- Taking away a magnitude is noticed if it is contained fewer than `2 ^ 24` times. -/
theorem round_sub_lt (hpositive : 0 < p.val) (h : p ≤ q)
    (hfew : units q < 2 * runLength * units p) : round (units q - units p) 1 < q := by
  obtain ⟨place, hplace, hle, hunits⟩ := exists_place_before hpositive h
  rw [hplace] at hfew ⊢
  have hnext := units_succ place
  have hspacing : spacing place < 2 * units p := by
    obtain hone | hrun := spacing_small place
    · omega
    · have hlt : spacing place * runLength < 2 * units p * runLength := by
        rw [Nat.mul_right_comm]
        omega
      exact Nat.lt_of_mul_lt_mul_right hlt
  have hnearest : nearestPlace (units (place + 1) - units p) 1 ≤ place :=
    nearestPlace_le_of_lt Nat.one_pos (by omega)
  change min (nearestPlace (units (place + 1) - units p) 1) 0x7F800000 < q.val
  omega

/-- Taking away a magnitude is not noticed if it is contained `2 ^ 25` times or more. -/
theorem round_sub_eq (hpositive : 0 < p.val) (h : p ≤ q)
    (hmany : 4 * runLength * units p ≤ units q) : round (units q - units p) 1 = q := by
  obtain ⟨place, hplace, hle, hunits⟩ := exists_place_before hpositive h
  apply round_eq
  rw [hplace] at hmany ⊢
  have hnext := units_succ place
  have hlarge : units (place + 1) ≤ spacing place * (2 * runLength) := by
    obtain hlt | ⟨heq, -⟩ := spacing_large place
    · exact Nat.le_of_lt hlt
    · exact Nat.le_of_eq heq
  have hspacing : 2 * units p ≤ spacing place := by
    have hle : 2 * units p * (2 * runLength) ≤ spacing place * (2 * runLength) := by
      refine Nat.le_trans (Nat.le_of_eq ?_) (Nat.le_trans hmany hlarge)
      rw [Nat.mul_right_comm, ← Nat.mul_assoc]
    exact Nat.le_of_mul_le_mul_right hle (by decide)
  have habove : place < nearestPlace (units (place + 1) - units p) 1 := by
    refine lt_nearestPlace Nat.one_pos (by omega) fun htie => ?_
    obtain hlt | ⟨-, hodd⟩ := spacing_large place
    · have hexact : spacing place = 2 * units p := by omega
      rw [hexact, Nat.mul_right_comm, ← Nat.mul_assoc] at hlt
      exact absurd hmany (Nat.not_le_of_lt hlt)
    · exact hodd
  have hbelow : nearestPlace (units (place + 1) - units p) 1 ≤ place + 1 :=
    nearestPlace_le Nat.one_pos (by omega)
  omega

end remainder

end Magnitude

end ChipEight
