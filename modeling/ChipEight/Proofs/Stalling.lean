import ChipEight.Proofs.Pacing
import ChipEight.Proofs.Rounding

/-!
# Clocks that stall

A clock that has a positive finite period comes to rest, unless it reaches a point where the
period is too short to be noticed in the time that is saved up: from there on every cycle is
due and none is paid for. Fewer than `2 ^ 24` periods are always paid off, and `2 ^ 25` or more
never are. So an update may go on forever. It does if the timer clock stalls, or if the clock
of the instructions does and no step ever ends the batch.
-/

namespace ChipEight

/-- Every magnitude but infinity is below it. -/
theorem Magnitude.lt_infinity {q : Magnitude} (h : q ≠ .infinity) : q < .infinity :=
  Nat.lt_of_le_of_ne (Nat.le_of_lt_succ q.isLt) fun hval => h (Fin.ext hval)

namespace Binary32

/-- Zero is the number at the first place. -/
theorem zero_eq : (0 : Binary32) = number false .zero := by decide

/-- A positive finite number is a magnitude between zero and infinity. -/
theorem exists_magnitude {x : Binary32} (hfinite : x.isFinite = true) (hpositive : 0 < x) :
    ∃ p : Magnitude, x = number false p ∧ 0 < p.val ∧ p < Magnitude.infinity := by
  rw [zero_eq] at hpositive
  cases x with
  | nan => cases hfinite
  | number negative p =>
    have hne : p ≠ Magnitude.infinity := of_decide_eq_true hfinite
    have hltInfinity := Magnitude.lt_infinity hne
    cases negative with
    | false =>
      have hplace : (0 : Int) < p.val := of_decide_eq_true hpositive
      exact ⟨p, rfl, by omega, hltInfinity⟩
    | true =>
      have hplace : (0 : Int) < -p.val := of_decide_eq_true hpositive
      omega

/-- What is not below a positive magnitude is a magnitude at its place or a later one. -/
theorem exists_magnitude_of_le {p : Magnitude} {y : Binary32} (hpositive : 0 < p.val)
    (h : number false p ≤ y) : ∃ q : Magnitude, y = number false q ∧ p ≤ q := by
  cases y with
  | nan => cases h
  | number negative q =>
    cases negative with
    | false =>
      have hplace : (p.val : Int) ≤ q.val := of_decide_eq_true h
      exact ⟨q, rfl, Fin.le_def.2 (by omega)⟩
    | true =>
      have hplace : (p.val : Int) ≤ -q.val := of_decide_eq_true h
      omega

/-- Taking a magnitude away from one at its place or a later one is done on the sizes. -/
theorem sub_magnitude {p q : Magnitude} (h : p ≤ q) (hfinite : q < Magnitude.infinity) :
    number false q - number false p =
      number false (.round (Magnitude.units q - Magnitude.units p) 1) := by
  have hq : q ≠ Magnitude.infinity := Fin.ne_of_lt hfinite
  have hp : p ≠ Magnitude.infinity := Fin.ne_of_lt (Nat.lt_of_le_of_lt h hfinite)
  have hunits : Magnitude.units p ≤ Magnitude.units q := Magnitude.units_le_iff.2 h
  change add (number false q) (number true p) = _
  have hsum : signedUnits (number false q) + signedUnits (number true p) =
      ((Magnitude.units q - Magnitude.units p : Nat) : Int) := by
    simp only [signedUnits, if_true, Bool.false_eq_true, if_false]
    omega
  simp only [add, if_neg hq, if_neg hp, hsum]
  split
  · next hzero =>
    have hnone : Magnitude.units q - Magnitude.units p = 0 := by omega
    rw [hnone]
    decide
  · have hsign : decide (((Magnitude.units q - Magnitude.units p : Nat) : Int) < 0) = false :=
      decide_eq_false (by omega)
    rw [hsign, Int.natAbs_natCast]
    rfl

/-- Taking something finite away from infinity leaves infinity. -/
theorem infinity_sub {p : Magnitude} (hfinite : p < Magnitude.infinity) :
    number false .infinity - number false p = number false .infinity := by
  have hp : p ≠ Magnitude.infinity := Fin.ne_of_lt hfinite
  change add (number false .infinity) (number true p) = _
  simp only [add, if_true, hp, false_and, if_false, infinite]

end Binary32

namespace Clock

/-- The period of a clock is finite and positive. -/
structure Paces (c : Clock) : Prop where
  /-- It is finite. -/
  finite : c.period.isFinite = true
  /-- It is positive. -/
  positive : 0 < c.period

/-- Whether a clock paces something is a matter of its period. -/
theorem Paces.of_period_eq {c other : Clock} (h : c.Paces) (hperiod : other.period = c.period) :
    other.Paces := by
  refine ⟨?_, ?_⟩
  · rw [hperiod]
    exact h.finite
  · rw [hperiod]
    exact h.positive

/-- The period of a rate is finite and positive. -/
theorem periodOf_eq_some {rate period : Binary32} (h : periodOf rate = some period) :
    period = 1 / rate ∧ period.isFinite = true ∧ 0 < period := by
  unfold periodOf at h
  dsimp only at h
  split at h
  · next hperiod =>
    obtain rfl := Option.some.inj h
    exact ⟨rfl, hperiod⟩
  · cases h

/-- Whatever the rate asked for, a clock starts with a period that can pace something, if the
default rate has one. -/
theorem paces_start (name : ClockName) (rate : Binary32) {default period : Binary32}
    (h : periodOf default = some period) : (start name rate default).1.Paces := by
  unfold start
  cases hrate : periodOf rate with
  | some own =>
    obtain ⟨-, hfinite, hpositive⟩ := periodOf_eq_some hrate
    exact ⟨hfinite, hpositive⟩
  | none =>
    obtain ⟨rfl, hfinite, hpositive⟩ := periodOf_eq_some h
    exact ⟨hfinite, hpositive⟩

/-- A clock stalls if, after some payments, a further one is due and leaves it as it is. -/
def Stalls (c : Clock) : Prop :=
  ∃ count, (∀ j ≤ count, (c.after j).due = true) ∧ (c.after count).pay = c.after count

/-- A clock that is left as it is by a payment that is due stalls at once. -/
theorem stalls_of_same {c : Clock} (hdue : c.due = true) (hsame : c.pay = c) : c.Stalls := by
  refine ⟨0, fun j hj => ?_, hsame⟩
  obtain rfl := Nat.le_zero.1 hj
  exact hdue

/-- A clock that stalls after a payment that is due stalls. -/
theorem stalls_of_pay {c : Clock} (hdue : c.due = true) (h : c.pay.Stalls) : c.Stalls := by
  obtain ⟨count, hall, hsame⟩ := h
  refine ⟨count + 1, fun j hj => ?_, ?_⟩
  · cases j with
    | zero => exact hdue
    | succ j =>
      rw [after_succ]
      exact hall j (by omega)
  · rw [after_succ]
    exact hsame

/-- On a clock that stalls, cycles are due forever. -/
theorem Stalls.due_after {c : Clock} (h : c.Stalls) (j : Nat) : (c.after j).due = true := by
  obtain ⟨count, hall, hsame⟩ := h
  have hstuck : ∀ more, c.after (count + more) = c.after count := by
    intro more
    induction more with
    | zero => rfl
    | succ more ih => exact (congrArg pay ih).trans hsame
  by_cases hj : j ≤ count
  · exact hall j hj
  · obtain ⟨more, rfl⟩ := Nat.exists_eq_add_of_le (Nat.le_of_not_le hj)
    rw [hstuck]
    exact hall count (Nat.le_refl count)

/-- A clock that stalls is never drained. -/
theorem Stalls.not_drains {c : Clock} (h : c.Stalls) (count : Nat) : ¬c.Drains count := by
  intro hdrains
  have hdue := h.due_after count
  rw [hdrains.rest] at hdue
  cases hdue

/-- The sizes on a clock that is due. -/
theorem Paces.sizes_of_due {c : Clock} (h : c.Paces) (hdue : c.due = true) :
    ∃ p q : Magnitude, c = ⟨.number false p, .number false q⟩ ∧ 0 < p.val ∧ p ≤ q ∧
      p < Magnitude.infinity := by
  obtain ⟨p, hp, hpositive, hfinite⟩ := Binary32.exists_magnitude h.finite h.positive
  have hle : c.period ≤ c.saved := of_decide_eq_true hdue
  rw [hp] at hle
  obtain ⟨q, hq, hpq⟩ := Binary32.exists_magnitude_of_le hpositive hle
  obtain ⟨period, saved⟩ := c
  obtain rfl := hp
  obtain rfl := hq
  exact ⟨p, q, rfl, hpositive, hpq, hfinite⟩

/-- Place of the time that is saved up, where that is a magnitude. -/
def place (c : Clock) : Nat :=
  match c.saved with
  | .number false q => q.val
  | _ => 0

/-- The place of a magnitude that is saved up. -/
theorem place_of_magnitude (period : Binary32) (q : Magnitude) :
    (⟨period, .number false q⟩ : Clock).place = q.val := rfl

/-- A payment that is due, by the sizes on the clock. -/
theorem pay_of_magnitudes {p q : Magnitude} (h : p ≤ q) (hfinite : q < Magnitude.infinity) :
    (⟨.number false p, .number false q⟩ : Clock).pay =
      ⟨.number false p, .number false (.round (Magnitude.units q - Magnitude.units p) 1)⟩ :=
  congrArg (Clock.mk (.number false p)) (Binary32.sub_magnitude h hfinite)

/-- A payment from an infinite saving changes nothing. -/
theorem pay_of_infinity {p : Magnitude} (hfinite : p < Magnitude.infinity) :
    (⟨.number false p, .number false .infinity⟩ : Clock).pay =
      ⟨.number false p, .number false .infinity⟩ :=
  congrArg (Clock.mk (.number false p)) (Binary32.infinity_sub hfinite)

/-- A payment that is due leaves the clock as it is, or the place of the time saved up goes
down. -/
theorem Paces.pay_cases {c : Clock} (h : c.Paces) (hdue : c.due = true) :
    c.pay = c ∨ c.pay.place < c.place := by
  obtain ⟨p, q, rfl, hpositive, hle, hfinite⟩ := h.sizes_of_due hdue
  by_cases hinfinite : q = Magnitude.infinity
  · rw [hinfinite]
    exact .inl (pay_of_infinity hfinite)
  · rw [pay_of_magnitudes hle (Magnitude.lt_infinity hinfinite)]
    have hround : Magnitude.round (Magnitude.units q - Magnitude.units p) 1 ≤ q :=
      Magnitude.round_le (Nat.sub_le _ _)
    generalize Magnitude.round (Magnitude.units q - Magnitude.units p) 1 = less at hround ⊢
    rcases Fin.lt_or_eq_of_le hround with hlt | rfl
    · right
      rw [place_of_magnitude, place_of_magnitude]
      exact hlt
    · exact .inl rfl

/-- Payments leave a clock that paces one that paces. -/
theorem Paces.pay {c : Clock} (h : c.Paces) : c.pay.Paces := h.of_period_eq rfl

/-- Saving up time leaves a clock that paces one that paces. -/
theorem Paces.save {c : Clock} (h : c.Paces) (elapsed : Binary32) : (c.save elapsed).Paces :=
  h.of_period_eq rfl

/-- A clock either comes to rest or stalls: what it has saved up goes down the places of the
grid as long as it changes. -/
theorem Paces.drains_or_stalls {c : Clock} (h : c.Paces) :
    (∃ count, c.Drains count) ∨ c.Stalls := by
  induction hplace : c.place using Nat.strong_induction_on generalizing c with
  | _ place ih =>
    cases hdue : c.due with
    | false => exact .inl ⟨0, c.drains_zero_iff.2 hdue⟩
    | true =>
      obtain hsame | hless := h.pay_cases hdue
      · exact .inr (stalls_of_same hdue hsame)
      · rw [hplace] at hless
        obtain ⟨count, hdrains⟩ | hstalls := ih c.pay.place hless h.pay rfl
        · exact .inl ⟨count + 1, (c.drains_succ_iff count).2 ⟨hdue, hdrains⟩⟩
        · exact .inr (stalls_of_pay hdue hstalls)

/-- A clock comes to rest exactly if it does not stall. -/
theorem Paces.exists_drains_iff {c : Clock} (h : c.Paces) :
    (∃ count, c.Drains count) ↔ ¬c.Stalls := by
  constructor
  · rintro ⟨count, hdrains⟩ hstalls
    exact hstalls.not_drains count hdrains
  · intro hstalls
    exact h.drains_or_stalls.resolve_right hstalls

/-- A clock holds few periods: something finite and less than `2 ^ 24` of them. -/
structure HoldsFew (c : Clock) : Prop where
  /-- What is saved up is finite. -/
  finite : c.saved.isFinite = true
  /-- It is less than `2 ^ 24` periods. -/
  few : c.saved.signedUnits < 16777216 * c.period.signedUnits

/-- A clock holds many periods: at least `2 ^ 25` of them. -/
def HoldsMany (c : Clock) : Prop := 33554432 * c.period.signedUnits ≤ c.saved.signedUnits

/-- A payment that is due is noticed on a clock that holds few periods, and fewer are left. -/
theorem HoldsFew.pay {c : Clock} (hpaces : c.Paces) (hdue : c.due = true) (h : c.HoldsFew) :
    c.pay.HoldsFew ∧ c.pay ≠ c := by
  obtain ⟨p, q, rfl, hpositive, hle, -⟩ := hpaces.sizes_of_due hdue
  have hq : q < Magnitude.infinity := Magnitude.lt_infinity (of_decide_eq_true h.finite)
  have hfew : Magnitude.units q < 2 * Magnitude.runLength * Magnitude.units p := by
    have hfew := h.few
    simp only [Binary32.signedUnits, Bool.false_eq_true, if_false] at hfew
    unfold Magnitude.runLength
    omega
  have hlt := Magnitude.round_sub_lt hpositive hle hfew
  rw [pay_of_magnitudes hle hq]
  generalize Magnitude.round (Magnitude.units q - Magnitude.units p) 1 = less at hlt ⊢
  refine ⟨⟨?_, ?_⟩, ?_⟩
  · exact decide_eq_true (Fin.ne_of_lt (Nat.lt_trans hlt hq))
  · have hunits := Magnitude.units_strict hlt
    simp only [Binary32.signedUnits, Bool.false_eq_true, if_false]
    unfold Magnitude.runLength at hfew
    omega
  · intro hsame
    cases hsame
    exact Nat.lt_irrefl _ hlt

/-- A clock that holds few periods does not stall. -/
theorem HoldsFew.not_stalls {c : Clock} (hpaces : c.Paces) (h : c.HoldsFew) : ¬c.Stalls := by
  rintro ⟨count, hall, hsame⟩
  have hfew : ∀ j ≤ count, (c.after j).Paces ∧ (c.after j).HoldsFew := by
    intro j
    induction j with
    | zero => exact fun _ => ⟨hpaces, h⟩
    | succ j ih =>
      intro hj
      obtain ⟨hpacesj, hfewj⟩ := ih (by omega)
      exact ⟨hpacesj.pay, (hfewj.pay hpacesj (hall j (by omega))).1⟩
  obtain ⟨hpaceslast, hfewlast⟩ := hfew count (Nat.le_refl count)
  exact (hfewlast.pay hpaceslast (hall count (Nat.le_refl count))).2 hsame

/-- A clock that holds many periods stalls at once. -/
theorem HoldsMany.stalls {c : Clock} (hpaces : c.Paces) (h : c.HoldsMany) : c.Stalls := by
  obtain ⟨p, hp, hpositive, hfinite⟩ := Binary32.exists_magnitude hpaces.finite hpaces.positive
  obtain ⟨period, saved⟩ := c
  obtain rfl : period = .number false p := hp
  have hunits : 0 < Magnitude.units p := Magnitude.units_strict hpositive
  have hmany : 33554432 * (Magnitude.units p : Int) ≤ saved.signedUnits := h
  cases saved with
  | nan =>
    have hnone : 33554432 * (Magnitude.units p : Int) ≤ 0 := hmany
    omega
  | number negative q =>
    cases negative with
    | true =>
      have hnegative : 33554432 * (Magnitude.units p : Int) ≤ -Magnitude.units q := hmany
      omega
    | false =>
      have hmany : 33554432 * (Magnitude.units p : Int) ≤ Magnitude.units q := hmany
      have hle : p ≤ q := Magnitude.units_le_iff.1 (by omega)
      have hdue : (⟨.number false p, .number false q⟩ : Clock).due = true :=
        decide_eq_true (decide_eq_true (Int.ofNat_le.2 hle))
      refine stalls_of_same hdue ?_
      by_cases hinfinite : q = Magnitude.infinity
      · rw [hinfinite]
        exact pay_of_infinity hfinite
      · have hsame : Magnitude.round (Magnitude.units q - Magnitude.units p) 1 = q :=
          Magnitude.round_sub_eq hpositive hle (by unfold Magnitude.runLength; omega)
        rw [pay_of_magnitudes hle (Magnitude.lt_infinity hinfinite), hsame]

end Clock

namespace Batch

/-- A batch runs if, after some steps that are due, no further one is due or one does not ask
to go on. -/
theorem exists_runs {m : Machine} {c : Clock} {count : Nat}
    (hdue : ∀ j < count, (c.after j).due = true)
    (hend : (c.after count).due = false ∨ (m.stepped count).step.outcome ≠ .ok .proceed) :
    ∃ steps next left outcome, Runs m c steps next left outcome := by
  induction count generalizing m c with
  | zero =>
    cases hfirst : c.due with
    | false => exact ⟨0, m, c, _, .rests hfirst⟩
    | true =>
      have hstep : m.step.outcome ≠ .ok .proceed := by
        refine hend.resolve_left fun hrest => ?_
        exact Bool.false_ne_true (hrest.symm.trans hfirst)
      cases hout : m.step.outcome with
      | error fault => exact ⟨1, _, _, _, .fails hfirst hout⟩
      | ok signal =>
        exact ⟨1, _, _, _, .yields hfirst hout fun h => hstep (hout.trans (congrArg Except.ok h))⟩
  | succ count ih =>
    have hfirst : c.due = true := hdue 0 (Nat.succ_pos count)
    cases hout : m.step.outcome with
    | error fault => exact ⟨1, _, _, _, .fails hfirst hout⟩
    | ok signal =>
      by_cases hrequest : signal = .proceed
      · subst hrequest
        have hothers : ∀ j < count, (c.pay.after j).due = true := by
          intro j hj
          rw [← Clock.after_succ]
          exact hdue (j + 1) (by omega)
        rw [Clock.after_succ] at hend
        obtain ⟨steps, next, left, outcome, hruns⟩ := ih hothers hend
        exact ⟨steps + 1, next, left, outcome, .proceeds hfirst hout hruns⟩
      · exact ⟨1, _, _, _, .yields hfirst hout hrequest⟩

/-- A batch does not change what a step costs. -/
theorem Runs.period_eq {m next : Machine} {c left : Clock} {steps : Nat}
    {outcome : Except Fault Signal} (h : Runs m c steps next left outcome) :
    left.period = c.period := by
  induction h with
  | rests => rfl
  | proceeds due step others ih => exact ih
  | yields => rfl
  | fails => rfl

/-- A batch on a clock that stalls has a step that does not ask to go on. -/
theorem Runs.exists_of_stalls {m next : Machine} {c left : Clock} {steps : Nat}
    {outcome : Except Fault Signal} (h : Runs m c steps next left outcome) (hstalls : c.Stalls) :
    ∃ j, (m.stepped j).step.outcome ≠ .ok .proceed := by
  by_contra hnone
  have hproceeds : ∀ j, (m.stepped j).step.outcome = .ok .proceed := fun j => by
    by_contra hother
    exact hnone ⟨j, hother⟩
  obtain ⟨-, hleft, hrest⟩ := h.of_proceed fun j _ => hproceeds j
  rw [hleft, hstalls.due_after steps] at hrest
  cases hrest

end Batch

namespace Pacer

/-- Both clocks of a pacer pace something. -/
structure Paces (p : Pacer) : Prop where
  /-- The clock of the instructions does. -/
  cpu : p.cpu.Paces
  /-- The clock of the timers does. -/
  timer : p.timer.Paces

/-- A pacer that a host can have at the given settings: a machine is paced, time elapses, and
operations are performed on the machine. -/
inductive Reached (settings : Settings) : Pacer → Prop where
  /-- A machine is paced. -/
  | start (m : Machine) : Reached settings (start m settings).1
  /-- Time elapses, and the update comes to an end. -/
  | update {p : Pacer} {budget : Nat} {elapsed : Binary32} {u : Update} (h : Reached settings p)
    (hupdate : p.update budget elapsed = some u) : Reached settings u.pacer
  /-- An operation is performed on the machine. -/
  | perform {p : Pacer} (operation : Operation) (h : Reached settings p) :
    Reached settings (p.perform operation).1

/-- An update comes to an end. -/
def Returns (p : Pacer) (elapsed : Binary32) : Prop :=
  ∃ budget u, p.update budget elapsed = some u

/-- What a step and what a tick costs is settled at the start. -/
theorem Reached.period_eq {settings : Settings} {p : Pacer} (h : Reached settings p) :
    p.cpu.period = (Clock.start .cpu settings.cpuRate defaultCpuRate).1.period ∧
      p.timer.period = (Clock.start .timer settings.timerRate defaultTimerRate).1.period := by
  induction h with
  | start m => exact ⟨rfl, rfl⟩
  | update h hupdate ih =>
    obtain ⟨-, htimer, hruns⟩ := parts_of_update hupdate
    refine ⟨hruns.period_eq.trans ih.1, ?_⟩
    rw [htimer, Clock.period_after]
    exact ih.2
  | perform operation h ih => exact ih

/-- Whatever the settings and whatever has happened, both clocks pace something. -/
theorem Reached.paces {settings : Settings} {p : Pacer} (h : Reached settings p) : p.Paces := by
  have hcpu : Clock.periodOf defaultCpuRate = some (1 / defaultCpuRate) := by decide +kernel
  have htimer : Clock.periodOf defaultTimerRate = some (1 / defaultTimerRate) := by decide +kernel
  exact ⟨(Clock.paces_start .cpu _ hcpu).of_period_eq h.period_eq.1,
    (Clock.paces_start .timer _ htimer).of_period_eq h.period_eq.2⟩

/-- An update comes to an end if the timer clock is drained and the batch of steps runs. -/
theorem returns_of_parts {p : Pacer} {elapsed : Binary32} {ticks steps : Nat} {next : Machine}
    {left : Clock} {outcome : Except Fault Signal} (hdrains : (p.timer.save elapsed).Drains ticks)
    (hruns : Batch.Runs (p.machine.performAll (.replicate ticks .tick)) (p.cpu.save elapsed) steps
      next left outcome) : p.Returns elapsed := by
  have hpaid : (p.timer.save elapsed).payAll (max ticks steps) 0 =
      some ((p.timer.save elapsed).after ticks, ticks) :=
    Clock.payAll_eq_some_iff.2 ⟨ticks, Nat.le_max_left _ _, (Nat.zero_add _).symm, rfl, hdrains⟩
  obtain ⟨last, hrun⟩ := Batch.run_of_runs hruns
    (b := ⟨Nat.repeat Machine.tick ticks p.machine, p.cpu.save elapsed, 0, #[]⟩)
    (p.machine.repeat_tick ticks) rfl (Nat.le_max_right ticks steps)
  refine ⟨max ticks steps, ?_⟩
  unfold update
  simp only [hpaid, hrun]
  exact ⟨_, rfl⟩

/-- No update comes to an end on a timer clock that stalls. -/
theorem not_returns_of_stalls {p : Pacer} {elapsed : Binary32}
    (h : (p.timer.save elapsed).Stalls) : ¬p.Returns elapsed := by
  rintro ⟨budget, u, hupdate⟩
  exact h.not_drains u.ticks (parts_of_update hupdate).1

/-- When updates come to an end. The timer clock must not stall; and the clock of the
instructions must not stall either, unless one of the steps asks for something else than to go
on, or fails. Clocks that hold less than `2 ^ 24` periods do not stall, and a timer clock that
holds `2 ^ 25` periods or more does. -/
theorem Reached.returns_iff {settings : Settings} {p : Pacer} (h : Reached settings p)
    (elapsed : Binary32) :
    (p.Returns elapsed ↔
      ¬(p.timer.save elapsed).Stalls ∧
      ((p.cpu.save elapsed).Stalls → ∃ ticks j, (p.timer.save elapsed).Drains ticks ∧
        (p.machine.performAll
          (.replicate ticks .tick ++ .replicate j .step)).step.outcome ≠ .ok .proceed)) ∧
    ((p.timer.save elapsed).HoldsFew → (p.cpu.save elapsed).HoldsFew → p.Returns elapsed) ∧
    ((p.timer.save elapsed).HoldsMany → ¬p.Returns elapsed) := by
  have hcpu := h.paces.cpu.save elapsed
  have htimer := h.paces.timer.save elapsed
  have hreturns : p.Returns elapsed ↔
      ¬(p.timer.save elapsed).Stalls ∧
      ((p.cpu.save elapsed).Stalls → ∃ ticks j, (p.timer.save elapsed).Drains ticks ∧
        (p.machine.performAll
          (.replicate ticks .tick ++ .replicate j .step)).step.outcome ≠ .ok .proceed) := by
    constructor
    · intro hreturns
      refine ⟨fun hstalls => not_returns_of_stalls hstalls hreturns, fun hstalls => ?_⟩
      obtain ⟨budget, u, hupdate⟩ := hreturns
      obtain ⟨hdrains, -, hruns⟩ := parts_of_update hupdate
      obtain ⟨j, hj⟩ := hruns.exists_of_stalls hstalls
      refine ⟨u.ticks, j, hdrains, ?_⟩
      rw [Machine.performAll_append]
      exact hj
    · rintro ⟨htimerstalls, hbatch⟩
      by_cases hstalls : (p.cpu.save elapsed).Stalls
      · obtain ⟨ticks, j, hdrains, hj⟩ := hbatch hstalls
        rw [Machine.performAll_append] at hj
        obtain ⟨steps, next, left, outcome, hruns⟩ :=
          Batch.exists_runs (fun j _ => hstalls.due_after j) (.inr hj)
        exact returns_of_parts hdrains hruns
      · obtain ⟨ticks, hdrains⟩ := htimer.exists_drains_iff.2 htimerstalls
        obtain ⟨count, hsteps⟩ := hcpu.exists_drains_iff.2 hstalls
        obtain ⟨steps, next, left, outcome, hruns⟩ := Batch.exists_runs
          (m := p.machine.performAll (.replicate ticks .tick)) hsteps.due (.inl hsteps.rest)
        exact returns_of_parts hdrains hruns
  refine ⟨hreturns, fun htimerfew hcpufew => ?_, fun hmany => ?_⟩
  · exact hreturns.2 ⟨htimerfew.not_stalls htimer,
      fun hstalls => absurd hstalls (hcpufew.not_stalls hcpu)⟩
  · exact not_returns_of_stalls (hmany.stalls htimer)

/-- A machine that jumps to where it is. -/
def idle : Machine := (Machine.create .modern (.ofSeed 0)).facing 0x1200

/-- At the default rates an update comes to an end even after a pause of an hour. -/
theorem idle_returns : (start idle {}).1.Returns 3600 := by
  have hreached : Reached {} (start idle {}).1 := .start idle
  have htimer : ((start idle {}).1.timer.save 3600).HoldsFew :=
    ⟨by decide +kernel, by decide +kernel⟩
  have hcpu : ((start idle {}).1.cpu.save 3600).HoldsFew :=
    ⟨by decide +kernel, by decide +kernel⟩
  exact (hreached.returns_iff 3600).2.1 htimer hcpu

/-- At `2 ^ 30` ticks each second, which has a positive finite period, no update comes to an
end in which a second elapses. -/
theorem idle_never_returns :
    (1 : Binary32).isFinite = true ∧ (0 : Binary32) ≤ 1 ∧
      ¬(start idle { timerRate := 1073741824 }).1.Returns 1 := by
  have hdue : ((start idle { timerRate := 1073741824 }).1.timer.save 1).due = true := by
    decide +kernel
  have hsame : ((start idle { timerRate := 1073741824 }).1.timer.save 1).pay =
      (start idle { timerRate := 1073741824 }).1.timer.save 1 := by
    decide +kernel
  exact ⟨by decide +kernel, by decide +kernel,
    not_returns_of_stalls (Clock.stalls_of_same hdue hsame)⟩

end Pacer

end ChipEight
