import ChipEight.Proofs.Stalling

/-!
# Clocks that count exactly

The arithmetic of a clock rounds, and what is rounded off is time lost or gained. Where nothing is
rounded off, the size of what a clock has saved up is what was put in less one period for each
payment, so a clock that is drained has paid for as many cycles as whole periods were put in. A sum
or a difference is exact if its exact value is a point of the grid. This is so on every clock whose
period and savings are whole multiples of one power of two, as long as there are no more than
`2 ^ 24` of it.
-/

namespace ChipEight

namespace Magnitude

/-- Only the place of zero has no size. -/
theorem units_eq_zero_iff {place : Nat} : units place = 0 ↔ place = 0 := by
  constructor
  · intro h
    by_contra hne
    have hpos : units 0 < units place := units_strict (Nat.pos_of_ne_zero hne)
    omega
  · rintro rfl
    rfl

/-- Up to `2 ^ 24` times a power of two is a point of the grid. -/
theorem exists_place_of_multiple {count : Nat} (shift : Nat) (h : count ≤ 2 * runLength) :
    ∃ place, units place = count <<< shift := by
  induction shift generalizing count with
  | zero => exact ⟨count, units_of_le h⟩
  | succ shift ih =>
    by_cases hlow : runLength ≤ count
    · exact ⟨_, units_run (shift + 1) hlow h⟩
    · obtain ⟨place, hplace⟩ := @ih (2 * count) (by omega)
      refine ⟨place, hplace.trans ?_⟩
      rw [Nat.shiftLeft_eq, Nat.shiftLeft_eq, Nat.pow_succ, Nat.mul_comm 2 count, Nat.mul_assoc,
        Nat.mul_comm 2]

/-- Rounding leaves a point of the grid as it is. -/
theorem nearestPlace_units (place : Nat) : nearestPlace (units place) 1 = place := by
  have hbelow : nearestPlace (units place) 1 ≤ place := nearestPlace_le Nat.one_pos (by omega)
  have habove : place ≤ nearestPlace (units place) 1 := le_nearestPlace Nat.one_pos (by omega)
  exact Nat.le_antisymm hbelow habove

end Magnitude

namespace Binary32

/-- The number is finite and has this exact size. -/
structure HasSize (x : Binary32) (units : Int) : Prop where
  /-- It is finite. -/
  finite : x.isFinite = true
  /-- Its size, with its sign. -/
  size : x.signedUnits = units

/-- Finite numbers are ordered as their sizes. -/
theorem le_iff_signedUnits_le {x y : Binary32} (hx : x.isFinite = true) (hy : y.isFinite = true) :
    x ≤ y ↔ x.signedUnits ≤ y.signedUnits := by
  cases x with
  | nan => cases hx
  | number s p =>
    cases y with
    | nan => cases hy
    | number t q =>
      have hplaces : number s p ≤ number t q ↔
          (if s then -(p.val : Int) else p.val) ≤ (if t then -(q.val : Int) else q.val) :=
        decide_eq_true_iff
      have hle := Magnitude.units_le_iff (a := p.val) (b := q.val)
      have hge := Magnitude.units_le_iff (a := q.val) (b := p.val)
      have hp := @Magnitude.units_eq_zero_iff p.val
      have hq := @Magnitude.units_eq_zero_iff q.val
      rw [hplaces]
      cases s <;> cases t <;>
        simp only [signedUnits, Bool.false_eq_true, if_true, if_false] <;> omega

/-- What is not below zero has no negative size. -/
theorem signedUnits_nonneg {x : Binary32} (h : 0 ≤ x) : 0 ≤ x.signedUnits := by
  cases x with
  | nan => cases h
  | number s p =>
    cases s with
    | false => exact Int.natCast_nonneg _
    | true =>
      rw [zero_eq] at h
      have hplaces : (0 : Int) ≤ -(p.val : Int) := of_decide_eq_true h
      have hp := Magnitude.units_eq_zero_iff.2 (show p.val = 0 by omega)
      simp only [signedUnits, if_true, hp]
      decide

/-- The opposite of a number is as large. -/
theorem HasSize.neg {x : Binary32} {units : Int} (h : x.HasSize units) :
    (-x).HasSize (-units) := by
  obtain ⟨hfinite, hsize⟩ := h
  cases x with
  | nan => cases hfinite
  | number s p =>
    refine ⟨hfinite, ?_⟩
    rw [← hsize]
    change signedUnits (number (!s) p) = _
    cases s
    · rfl
    · exact (Int.neg_neg _).symm

section sums

variable {x y : Binary32} {a b : Int} {place : Nat}

/-- A sum is exact if its size is that of a finite point of the grid. -/
theorem HasSize.add (hx : x.HasSize a) (hy : y.HasSize b)
    (hplace : Magnitude.units place = (a + b).natAbs) (hfinite : place < 0x7F800000) :
    (x + y).HasSize (a + b) := by
  obtain ⟨hxfinite, rfl⟩ := hx
  obtain ⟨hyfinite, rfl⟩ := hy
  cases x with
  | nan => cases hxfinite
  | number s p =>
    cases y with
    | nan => cases hyfinite
    | number t q =>
      have hp : p ≠ Magnitude.infinity := of_decide_eq_true hxfinite
      have hq : q ≠ Magnitude.infinity := of_decide_eq_true hyfinite
      change (Binary32.add (number s p) (number t q)).HasSize _
      simp only [Binary32.add, if_neg hp, if_neg hq]
      generalize signedUnits (number s p) + signedUnits (number t q) = sum at hplace ⊢
      split
      · next hzero =>
        refine ⟨rfl, ?_⟩
        rw [hzero]
        cases s <;> cases t <;> rfl
      · next hnonzero =>
        have hround : Magnitude.round sum.natAbs 1 = ⟨place, by omega⟩ := by
          apply Magnitude.round_eq
          rw [← hplace]
          exact Magnitude.nearestPlace_units place
        rw [rounded, hround]
        refine ⟨decide_eq_true (Fin.ne_of_lt (Fin.lt_def.2 hfinite)), ?_⟩
        simp only [signedUnits, hplace, decide_eq_true_eq]
        omega

/-- A difference is exact if its size is that of a finite point of the grid. -/
theorem HasSize.sub (hx : x.HasSize a) (hy : y.HasSize b)
    (hplace : Magnitude.units place = (a - b).natAbs) (hfinite : place < 0x7F800000) :
    (x - y).HasSize (a - b) := by
  rw [Int.sub_eq_add_neg] at hplace ⊢
  exact hx.add hy.neg hplace hfinite

end sums

end Binary32

namespace Clock

/-- Saving up elapsed time is exact. -/
def SavesExactly (c : Clock) (elapsed : Binary32) : Prop :=
  (c.saved + elapsed).HasSize (c.saved.signedUnits + elapsed.signedUnits)

/-- The next payment is exact. -/
def PaysExactly (c : Clock) : Prop :=
  (c.saved - c.period).HasSize (c.saved.signedUnits - c.period.signedUnits)

/-- All payments are exact that are due and are reached. -/
def PaysExactlyWhile (c : Clock) (reached : Nat → Prop) : Prop :=
  ∀ j, (∀ i ≤ j, (c.after i).due = true) → reached j → (c.after j).PaysExactly

section exact

variable {c : Clock} {reached : Nat → Prop} {size : Int} {count : Nat}

/-- The period of a clock that paces something has a positive size. -/
theorem Paces.size_pos (h : c.Paces) : 0 < c.period.signedUnits := by
  obtain ⟨p, hp, hpositive, -⟩ := Binary32.exists_magnitude h.finite h.positive
  rw [hp]
  exact Int.natCast_pos.2 (Magnitude.units_strict hpositive)

/-- A cycle is due just if what is saved up is no smaller than the period. -/
theorem Paces.due_iff (h : c.Paces) (hsize : c.saved.HasSize size) :
    c.due = true ↔ c.period.signedUnits ≤ size := by
  rw [← hsize.size, ← Binary32.le_iff_signedUnits_le h.finite hsize.finite]
  exact decide_eq_true_iff

/-- What is left after some payments that are exact. -/
theorem size_after (hpays : c.PaysExactlyWhile reached) (hsize : c.saved.HasSize size)
    (hdue : ∀ i < count, (c.after i).due = true) (hreached : ∀ i < count, reached i) :
    (c.after count).saved.HasSize (size - count * c.period.signedUnits) := by
  induction count with
  | zero =>
    rw [Int.ofNat_zero, Int.zero_mul, Int.sub_zero]
    exact hsize
  | succ count ih =>
    have hbefore := ih (fun i hi => hdue i (by omega)) fun i hi => hreached i (by omega)
    have hlast : ((c.after count).saved - (c.after count).period).HasSize _ :=
      hpays count (fun i hi => hdue i (by omega)) (hreached count (by omega))
    rw [hbefore.size, period_after c count] at hlast
    have hrest : size - (count + 1 : Nat) * c.period.signedUnits =
        size - count * c.period.signedUnits - c.period.signedUnits := by
      rw [Int.natCast_add, Int.add_mul]
      omega
    rw [hrest]
    change ((c.after count).saved - (c.after count).period).HasSize _
    rw [period_after]
    exact hlast

/-- After some payments that are exact a further cycle is due just if what is left is no smaller
than the period. -/
theorem Paces.due_after_iff (h : c.Paces) (hpays : c.PaysExactlyWhile reached)
    (hsize : c.saved.HasSize size) (hdue : ∀ i < count, (c.after i).due = true)
    (hreached : ∀ i < count, reached i) :
    (c.after count).due = true ↔
      c.period.signedUnits ≤ size - count * c.period.signedUnits := by
  have hpaces : (c.after count).Paces := h.of_period_eq (c.period_after count)
  rw [hpaces.due_iff (size_after hpays hsize hdue hreached), period_after]

/-- Payments are due as long as what is saved up covers them. -/
theorem Paces.due_of_le (h : c.Paces) (hpays : c.PaysExactlyWhile reached)
    (hsize : c.saved.HasSize size) (hreached : ∀ i < count, reached i)
    (hcount : count * c.period.signedUnits ≤ size) : ∀ i < count, (c.after i).due = true := by
  intro i
  induction i using Nat.strong_induction_on with
  | _ i ih =>
    intro hi
    rw [h.due_after_iff hpays hsize (fun j hj => ih j hj (by omega))
      fun j hj => hreached j (by omega)]
    have hmore : (i + 1 : Int) * c.period.signedUnits ≤ count * c.period.signedUnits :=
      Int.mul_le_mul_of_nonneg_right (by omega) (Int.le_of_lt h.size_pos)
    rw [Int.add_mul] at hmore
    omega

/-- Payments that are due were covered by what was saved up. -/
theorem Paces.le_of_due (h : c.Paces) (hpays : c.PaysExactlyWhile reached)
    (hsize : c.saved.HasSize size) (hnonneg : 0 ≤ size)
    (hdue : ∀ i < count, (c.after i).due = true) (hreached : ∀ i < count, reached i) :
    count * c.period.signedUnits ≤ size := by
  cases count with
  | zero =>
    rw [Int.ofNat_zero, Int.zero_mul]
    exact hnonneg
  | succ count =>
    have hlast := (h.due_after_iff hpays hsize (fun i hi => hdue i (by omega))
      fun i hi => hreached i (by omega)).1 (hdue count (by omega))
    rw [Int.natCast_add, Int.add_mul]
    omega

/-- A size holds a whole number of periods and something smaller than a period. -/
theorem exists_whole_periods {period : Int} (hperiod : 0 < period) (hnonneg : 0 ≤ size) :
    ∃ count : Nat, count * period ≤ size ∧ size - count * period < period := by
  have hbelow := Int.ediv_mul_le size (Int.ne_of_gt hperiod)
  have habove := Int.lt_ediv_add_one_mul_self size hperiod
  have hcount := Int.toNat_of_nonneg (Int.ediv_nonneg hnonneg (Int.le_of_lt hperiod))
  rw [Int.add_mul] at habove
  refine ⟨(size / period).toNat, ?_, ?_⟩ <;> rw [hcount] <;> omega

/-- After all payments that were due, if they were exact, something is left that is smaller than
the period. -/
theorem Paces.left_after (h : c.Paces) (hpays : c.PaysExactlyWhile reached)
    (hsize : c.saved.HasSize size) (hnonneg : 0 ≤ size)
    (hdue : ∀ i < count, (c.after i).due = true) (hreached : ∀ i < count, reached i)
    (hrest : (c.after count).due = false) :
    0 ≤ size - count * c.period.signedUnits ∧
      size - count * c.period.signedUnits < c.period.signedUnits := by
  have hcovered := h.le_of_due hpays hsize hnonneg hdue hreached
  have hless := mt (h.due_after_iff hpays hsize hdue hreached).2 (Bool.eq_false_iff.1 hrest)
  exact ⟨by omega, by omega⟩

/-- Some number of payments drains a clock, if they are all exact. -/
theorem Paces.exists_drains (h : c.Paces) (hpays : c.PaysExactlyWhile fun _ => True)
    (hsize : c.saved.HasSize size) (hnonneg : 0 ≤ size) : ∃ count, c.Drains count := by
  obtain ⟨count, hbelow, habove⟩ := exists_whole_periods h.size_pos hnonneg
  have hdue := h.due_of_le hpays hsize (fun _ _ => trivial) hbelow
  refine ⟨count, hdue, Bool.eq_false_iff.2 fun hmore => ?_⟩
  rw [h.due_after_iff hpays hsize hdue fun _ _ => trivial] at hmore
  omega

/-- A clock accounts for elapsed time and cycles if it has saved up exactly what the cycles leave
of the time, and this is less than one more cycle costs. -/
structure Accounts (c : Clock) (elapsed cycles : Int) : Prop where
  /-- The clock paces something. -/
  paces : c.Paces
  /-- It has saved up what the cycles leave of the time. -/
  saved : c.saved.HasSize (elapsed - cycles * c.period.signedUnits)
  /-- The time covers the cycles. -/
  covers : 0 ≤ elapsed - cycles * c.period.signedUnits
  /-- It does not cover another one. -/
  less : elapsed - cycles * c.period.signedUnits < c.period.signedUnits

/-- A clock with nothing saved up accounts for no time and no cycles. -/
theorem Paces.accounts (h : c.Paces) (hsaved : c.saved = 0) : c.Accounts 0 0 := by
  have hnothing : (0 : Int) - 0 * c.period.signedUnits = 0 := by omega
  refine ⟨h, ?_, Int.le_of_eq hnothing.symm, ?_⟩
  · rw [hnothing, hsaved]
    exact ⟨by decide, by decide⟩
  · rw [hnothing]
    exact h.size_pos

/-- The cycles are as many as whole periods have elapsed. -/
theorem Accounts.cycles_eq {elapsed cycles : Int} (h : c.Accounts elapsed cycles) :
    cycles = elapsed / c.period.signedUnits := by
  have hcovers := h.covers
  have hless := h.less
  have hperiod := h.paces.size_pos
  have hunique := (Int.ediv_emod_unique hperiod (a := elapsed) (q := cycles)
    (r := elapsed - cycles * c.period.signedUnits)).2
      ⟨by rw [Int.mul_comm]; omega, hcovers, hless⟩
  exact hunique.1.symm

/-- A clock goes on to account for what elapses and for what it pays, if all of it is exact. -/
theorem Accounts.paid {elapsed cycles : Int} {more : Binary32} (h : c.Accounts elapsed cycles)
    (hnonneg : 0 ≤ more) (hsaves : c.SavesExactly more)
    (hpays : (c.save more).PaysExactlyWhile reached)
    (hdue : ∀ i < count, ((c.save more).after i).due = true) (hreached : ∀ i < count, reached i)
    (hrest : ((c.save more).after count).due = false) :
    ((c.save more).after count).Accounts (elapsed + more.signedUnits) (cycles + count) := by
  have hpaces : (c.save more).Paces := h.paces.save more
  have hcovers := h.covers
  have hmore := Binary32.signedUnits_nonneg hnonneg
  unfold SavesExactly at hsaves
  rw [h.saved.size] at hsaves
  have hleft := size_after hpays hsaves hdue hreached
  obtain ⟨hlow, hhigh⟩ := hpaces.left_after hpays hsaves (by omega) hdue hreached hrest
  have hperiod : (c.save more).period = c.period := rfl
  rw [hperiod] at hleft hlow hhigh
  have hsize : elapsed + more.signedUnits - (cycles + count) * c.period.signedUnits =
      elapsed - cycles * c.period.signedUnits + more.signedUnits -
        count * c.period.signedUnits := by
    rw [Int.add_mul]
    omega
  refine ⟨hpaces.of_period_eq (period_after _ _), ?_, ?_, ?_⟩ <;>
    rw [period_after, hperiod, hsize]
  · exact hleft
  · exact hlow
  · exact hhigh

end exact

/-- Period and savings of a clock are whole multiples of a power of two, and no more than `2 ^ 24`
of it are saved up. -/
structure OnGrid (c : Clock) (shift cost held : Nat) : Prop where
  /-- The multiple that is the period. -/
  period : c.period.HasSize (cost <<< shift : Nat)
  /-- The multiple that is saved up. -/
  saved : c.saved.HasSize (held <<< shift : Nat)
  /-- There are no more than `2 ^ 24`. -/
  few : held ≤ 2 * Magnitude.runLength
  /-- This many are still finite. -/
  finite : (2 * Magnitude.runLength) <<< shift < Magnitude.units 0x7F800000

section OnGrid

variable {c : Clock} {shift cost held more : Nat} {elapsed : Binary32}

/-- Every multiple in the range is a finite point of the grid. -/
theorem OnGrid.exists_place (h : c.OnGrid shift cost held)
    (hmore : more ≤ 2 * Magnitude.runLength) :
    ∃ place < 0x7F800000, Magnitude.units place = more <<< shift := by
  obtain ⟨place, hplace⟩ := Magnitude.exists_place_of_multiple shift hmore
  refine ⟨place, Nat.lt_of_not_le fun hlarge => ?_, hplace⟩
  have hunits := Magnitude.units_le_iff.2 hlarge
  have hrange : more <<< shift ≤ (2 * Magnitude.runLength) <<< shift := by
    rw [Nat.shiftLeft_eq, Nat.shiftLeft_eq]
    exact Nat.mul_le_mul_right _ hmore
  have hfinite := h.finite
  omega

/-- Saving up a multiple is exact, if the savings stay in the range. -/
theorem OnGrid.save (h : c.OnGrid shift cost held)
    (helapsed : elapsed.HasSize (more <<< shift : Nat))
    (hfew : held + more ≤ 2 * Magnitude.runLength) :
    c.SavesExactly elapsed ∧ (c.save elapsed).OnGrid shift cost (held + more) := by
  obtain ⟨place, hlt, hplace⟩ := h.exists_place hfew
  have hsum : ((held <<< shift : Nat) : Int) + (more <<< shift : Nat) =
      ((held + more) <<< shift : Nat) := by
    rw [Nat.shiftLeft_eq, Nat.shiftLeft_eq, Nat.shiftLeft_eq, Nat.add_mul, Int.natCast_add]
  have hexact := h.saved.add helapsed (by rw [hsum, hplace, Int.natAbs_natCast]) hlt
  refine ⟨?_, h.period, ?_, hfew, h.finite⟩
  · unfold SavesExactly
    rw [h.saved.size, helapsed.size]
    exact hexact
  · rw [← hsum]
    exact hexact

/-- A payment that is due is exact. -/
theorem OnGrid.pay (h : c.OnGrid shift cost held) (hpaces : c.Paces) (hdue : c.due = true) :
    c.PaysExactly ∧ c.pay.OnGrid shift cost (held - cost) := by
  have hunits := (hpaces.due_iff h.saved).1 hdue
  rw [h.period.size, Int.ofNat_le, Nat.shiftLeft_eq, Nat.shiftLeft_eq] at hunits
  have hle : cost ≤ held := Nat.le_of_mul_le_mul_right hunits (Nat.two_pow_pos shift)
  have hfew : held - cost ≤ 2 * Magnitude.runLength := Nat.le_trans (Nat.sub_le _ _) h.few
  obtain ⟨place, hlt, hplace⟩ := h.exists_place hfew
  have hdifference : ((held <<< shift : Nat) : Int) - (cost <<< shift : Nat) =
      ((held - cost) <<< shift : Nat) := by
    rw [Nat.shiftLeft_eq, Nat.shiftLeft_eq, Nat.shiftLeft_eq, Nat.sub_mul, Int.ofNat_sub hunits]
  have hexact := h.saved.sub h.period (by rw [hdifference, hplace, Int.natAbs_natCast]) hlt
  refine ⟨?_, h.period, ?_, hfew, h.finite⟩
  · unfold PaysExactly
    rw [h.saved.size, h.period.size]
    exact hexact
  · rw [← hdifference]
    exact hexact

/-- All payments that are due are exact. -/
theorem OnGrid.paysExactly (h : c.OnGrid shift cost held) (hpaces : c.Paces)
    (reached : Nat → Prop) : c.PaysExactlyWhile reached := by
  rintro j hdue -
  induction j generalizing c held with
  | zero => exact (h.pay hpaces (hdue 0 (Nat.le_refl 0))).1
  | succ j ih =>
    rw [after_succ]
    refine ih (h.pay hpaces (hdue 0 (Nat.zero_le _))).2 hpaces.pay fun i hi => ?_
    rw [← after_succ]
    exact hdue (i + 1) (by omega)

end OnGrid

end Clock

end ChipEight
