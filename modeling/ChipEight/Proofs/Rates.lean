import ChipEight.Proofs.Stalling
import ChipEight.Rate

/-!
# Rates and periods

A rate is read if it is finite and positive, and a clock can be paced at it if its inverse is. The
two agree but for the slowest rates: the inverse of a rate is never zero, but up to `2 ^ (-128)`
cycles each second it is too large for a finite number. Such a rate can be read, and the clock
takes its default instead.
-/

namespace ChipEight

namespace Magnitude

/-- The magnitude of `2 ^ (-128)`, the last one whose inverse is infinite. -/
def lastUninvertible : Magnitude := ⟨0x200000, by decide⟩

/-- The inverse of a magnitude. -/
def inverse (p : Magnitude) : Magnitude := round (unitsPerOne * unitsPerOne) (units p)

variable {p : Magnitude}

/-- The inverse of a finite magnitude is not zero. -/
theorem inverse_pos (hpositive : 0 < p.val) (hfinite : p < infinity) : 0 < p.inverse.val := by
  have hunits : 0 < units p := units_strict hpositive
  have hlarge : units 1 * units p ≤ unitsPerOne * unitsPerOne := by
    have hsize : units p < units 0x7F800000 := units_strict hfinite
    have hbound : units 1 * units 0x7F800000 ≤ unitsPerOne * unitsPerOne := by decide +kernel
    exact Nat.le_trans (Nat.mul_le_mul_left _ (Nat.le_of_lt hsize)) hbound
  have hplace := le_nearestPlace hunits hlarge
  change 0 < min (nearestPlace (unitsPerOne * unitsPerOne) (units p)) 0x7F800000
  omega

/-- Up to `2 ^ (-128)` the inverse is infinite. -/
theorem inverse_eq_infinity (hpositive : 0 < p.val) (h : p.val ≤ 0x200000) :
    p.inverse = infinity := by
  have hunits : units p = p.val := units_of_le (Nat.le_trans h (by decide))
  have hlarge : units 0x7F800000 * units p ≤ unitsPerOne * unitsPerOne := by
    have hbound : units 0x7F800000 * 0x200000 ≤ unitsPerOne * unitsPerOne := by decide +kernel
    rw [hunits]
    exact Nat.le_trans (Nat.mul_le_mul_left _ h) hbound
  have hplace := le_nearestPlace (by omega) hlarge
  apply Fin.ext
  change min (nearestPlace (unitsPerOne * unitsPerOne) (units p)) 0x7F800000 = 0x7F800000
  omega

/-- Above `2 ^ (-128)` the inverse is finite. -/
theorem inverse_lt_infinity (h : 0x200000 < p.val) : p.inverse < infinity := by
  have hunits : 0x200001 ≤ units p := units_le_iff.2 (show 0x200001 ≤ p.val from h)
  have hsmall : 2 * (unitsPerOne * unitsPerOne) <
      (units 0x7F7FFFFF + units (0x7F7FFFFF + 1)) * units p := by
    have hbound : 2 * (unitsPerOne * unitsPerOne) <
        (units 0x7F7FFFFF + units (0x7F7FFFFF + 1)) * 0x200001 := by decide +kernel
    exact Nat.lt_of_lt_of_le hbound (Nat.mul_le_mul_left _ hunits)
  have hplace := nearestPlace_le_of_lt (by omega) hsmall
  change min (nearestPlace (unitsPerOne * unitsPerOne) (units p)) 0x7F800000 < 0x7F800000
  omega

/-- The inverse of a positive finite magnitude is finite just if the magnitude is above
`2 ^ (-128)`. -/
theorem inverse_ne_infinity_iff (hpositive : 0 < p.val) :
    p.inverse ≠ infinity ↔ lastUninvertible < p := by
  constructor
  · intro hfinite
    refine Nat.lt_of_not_le fun hle => hfinite ?_
    exact inverse_eq_infinity hpositive hle
  · exact fun hlt => Fin.ne_of_lt (inverse_lt_infinity hlt)

end Magnitude

namespace Binary32

/-- The inverse of a number. It keeps the sign, and zero and infinity are inverse to each other. -/
theorem one_div_number (negative : Bool) (p : Magnitude) :
    1 / number negative p = number negative
      (if p = .infinity then .zero else if p = .zero then .infinity else p.inverse) := by
  have hone : (1 : Binary32) = number false ⟨0x3F800000, by decide⟩ := by decide
  have hunits : Magnitude.units 0x3F800000 = Magnitude.unitsPerOne := by decide +kernel
  have hfinite : (⟨0x3F800000, by decide⟩ : Magnitude) ≠ Magnitude.infinity := by decide
  have hnonzero : (⟨0x3F800000, by decide⟩ : Magnitude) ≠ Magnitude.zero := by decide
  rw [hone]
  change div (number false ⟨0x3F800000, by decide⟩) (number negative p) = _
  rw [div, if_neg hfinite, if_neg hnonzero, hunits, Bool.false_bne]
  split
  · rfl
  · split <;> rfl

/-- Without a sign, numbers are ordered as their magnitudes. -/
theorem magnitude_lt_iff {p q : Magnitude} : number false p < number false q ↔ p < q := by
  constructor
  · intro h
    have hplaces : (p.val : Int) < q.val := of_decide_eq_true h
    exact Int.ofNat_lt.1 hplaces
  · intro h
    have hplaces : (p.val : Int) < q.val := Int.ofNat_lt.2 h
    exact decide_eq_true hplaces

/-- A number can be a rate if it is a positive magnitude below infinity. -/
theorem isRate_magnitude {p : Magnitude} (hpositive : 0 < p.val) (hinfinity : p ≠ .infinity) :
    (number false p).isRate = true := by
  have hlt : (0 : Binary32) < number false p := by
    rw [zero_eq]
    exact magnitude_lt_iff.2 hpositive
  exact Bool.and_eq_true_iff.2 ⟨decide_eq_true hinfinity, decide_eq_true hlt⟩

/-- What is positive and finite is the inverse of something that is so too. -/
theorem isRate_of_inverse {x : Binary32} (hfinite : (1 / x).isFinite = true)
    (hpositive : 0 < 1 / x) : x.isRate = true := by
  cases x with
  | nan => cases hfinite
  | number negative p =>
    rw [one_div_number] at hfinite hpositive
    obtain ⟨q, hq, hqpositive, -⟩ := exists_magnitude hfinite hpositive
    obtain ⟨rfl, hinverse⟩ := number.inj hq
    by_cases hinfinity : p = .infinity
    · rw [if_pos hinfinity] at hinverse
      rw [← hinverse] at hqpositive
      exact absurd hqpositive (Nat.lt_irrefl 0)
    · by_cases hzero : p = .zero
      · rw [if_neg hinfinity, if_pos hzero] at hfinite
        cases hfinite
      · have hplace : 0 < p.val := Nat.pos_of_ne_zero fun h => hzero (Fin.ext h)
        exact isRate_magnitude hplace hinfinity

end Binary32

namespace Clock

/-- The rate of `2 ^ (-128)` cycles each second, up to which no rate has a period. -/
def tooSlow : Binary32 := .number false .lastUninvertible

/-- It is one cycle in `2 ^ 128` seconds. -/
theorem signedUnits_tooSlow : tooSlow.signedUnits * Nat.pow 2 128 = Magnitude.unitsPerOne := by
  decide +kernel

/-- The inverse of a rate is finite just if the rate is not too slow. It is positive in any case. -/
theorem inverse_of_isRate {rate : Binary32} (h : rate.isRate = true) :
    ((1 / rate).isFinite = true ↔ tooSlow < rate) ∧ 0 < 1 / rate := by
  obtain ⟨hfinite, hpositive⟩ := Bool.and_eq_true_iff.1 h
  obtain ⟨p, rfl, hplace, hlt⟩ := Binary32.exists_magnitude hfinite (of_decide_eq_true hpositive)
  have hzero : p ≠ Magnitude.zero := fun hzero => Nat.ne_of_gt hplace (congrArg Fin.val hzero)
  rw [Binary32.one_div_number, if_neg (Fin.ne_of_lt hlt), if_neg hzero]
  constructor
  · unfold tooSlow
    rw [Binary32.magnitude_lt_iff, ← Magnitude.inverse_ne_infinity_iff hplace]
    exact decide_eq_true_iff
  · rw [Binary32.zero_eq, Binary32.magnitude_lt_iff]
    exact Magnitude.inverse_pos hplace hlt

/-- Just those numbers have a period that can be rates and are not too slow, and the period is
the inverse. -/
theorem periodOf_eq (rate : Binary32) :
    periodOf rate = if rate.isRate = true ∧ tooSlow < rate then some (1 / rate) else none := by
  unfold periodOf
  dsimp only
  refine if_congr ⟨fun ⟨hfinite, hpositive⟩ => ?_, fun ⟨hrate, hfast⟩ => ?_⟩ rfl rfl
  · have hrate := Binary32.isRate_of_inverse hfinite hpositive
    exact ⟨hrate, (inverse_of_isRate hrate).1.1 hfinite⟩
  · obtain ⟨hfinite, hpositive⟩ := inverse_of_isRate hrate
    exact ⟨hfinite.2 hfast, hpositive⟩

/-- A clock at a rate that is not too slow. -/
theorem start_of_fast {name : ClockName} {rate default : Binary32} (hrate : rate.isRate = true)
    (hfast : tooSlow < rate) : start name rate default = (⟨1 / rate, 0⟩, []) := by
  rw [start, periodOf_eq, if_pos ⟨hrate, hfast⟩]

/-- A clock at a rate that is too slow. -/
theorem start_of_slow {name : ClockName} {rate default : Binary32} (hslow : ¬tooSlow < rate) :
    start name rate default = (⟨1 / default, 0⟩, [.rateReplaced name rate default]) := by
  rw [start, periodOf_eq, if_neg fun h => hslow h.2]

/-- A clock that is started makes a record of its own rate only. -/
theorem eq_of_mem_start {name : ClockName} {rate default : Binary32} {record : Record}
    (h : record ∈ (start name rate default).2) : record = .rateReplaced name rate default := by
  unfold start at h
  split at h
  · cases h
  · exact List.mem_singleton.1 h

end Clock

/-- What is read as a rate can be one. -/
theorem isRate_of_readRate {text : String} {rate : Binary32} (h : readRate text = .ok rate) :
    rate.isRate = true := by
  unfold readRate at h
  split at h
  · cases h
  · split at h
    · cases h
    · split at h
      · next hrate =>
        cases h
        exact hrate
      · cases h

namespace Pacer

/-- The clock of the instructions runs at a rate from the start on, whatever happens. -/
structure RunsAt (settings : Settings) (rate : Binary32) : Prop where
  /-- It is started with the inverse of the rate as its period and with nothing saved up. -/
  starts : ∀ m, (start m settings).1.cpu = ⟨1 / rate, 0⟩
  /-- A step costs that much ever after. -/
  stays : ∀ p, Reached settings p → p.cpu.period = 1 / rate

/-- The clock of the instructions runs at the rate whose inverse it is started with. -/
theorem runsAt_of_start {settings : Settings} {rate : Binary32}
    (h : (Clock.start .cpu settings.cpuRate defaultCpuRate).1 = ⟨1 / rate, 0⟩) :
    RunsAt settings rate :=
  ⟨fun _ => h, fun _ hreached => hreached.period_eq.1.trans (congrArg Clock.period h)⟩

section asked

variable {settings : Settings}

/-- At a rate that is not too slow the instructions run, and the start records nothing about it. -/
theorem runsAt_of_fast (hrate : settings.cpuRate.isRate = true)
    (hfast : Clock.tooSlow < settings.cpuRate) :
    RunsAt settings settings.cpuRate ∧
      ∀ m, (start m settings).2 = (Clock.start .timer settings.timerRate defaultTimerRate).2 := by
  have hstart : Clock.start .cpu settings.cpuRate defaultCpuRate =
      (⟨1 / settings.cpuRate, 0⟩, []) := Clock.start_of_fast hrate hfast
  refine ⟨runsAt_of_start (congrArg Prod.fst hstart), fun m => ?_⟩
  simp only [start, hstart, List.nil_append]

/-- In place of a rate that is too slow the instructions run at the default one, and the first
record made at the start is about it. -/
theorem runsAt_of_slow (hslow : ¬Clock.tooSlow < settings.cpuRate) :
    RunsAt settings defaultCpuRate ∧
      ∀ m, (start m settings).2 = .rateReplaced .cpu settings.cpuRate defaultCpuRate ::
        (Clock.start .timer settings.timerRate defaultTimerRate).2 := by
  have hstart : Clock.start .cpu settings.cpuRate defaultCpuRate =
      (⟨1 / defaultCpuRate, 0⟩, [.rateReplaced .cpu settings.cpuRate defaultCpuRate]) :=
    Clock.start_of_slow hslow
  refine ⟨runsAt_of_start (congrArg Prod.fst hstart), fun m => ?_⟩
  simp only [start, hstart, List.singleton_append]

/-- Instructions run at one rate only, up to its inverse. -/
theorem RunsAt.inverse_eq {rate other : Binary32} (h : RunsAt settings rate)
    (hother : RunsAt settings other) : 1 / rate = 1 / other := by
  have hclocks := (h.starts idle).symm.trans (hother.starts idle)
  exact congrArg Clock.period hclocks

end asked

/-- A rate that was read is the rate of the instructions just if it is not too slow, which is to say
if its inverse is finite, or if it is above `2 ^ (-128)`. Then nothing is recorded about it. A rate
that is too slow is recorded first of all, and the instructions run at the default rate. With the
default rate for the timers this is the only record that is ever made at the start. -/
theorem runsAt_readRate_iff {text : String} {rate : Binary32} {settings : Settings}
    (hread : readRate text = .ok rate) (hasked : settings.cpuRate = rate) :
    Clock.tooSlow.signedUnits * Nat.pow 2 128 = Magnitude.unitsPerOne ∧
      (Clock.tooSlow < rate ↔ (1 / rate).isFinite = true) ∧
      (RunsAt settings rate ↔ Clock.tooSlow < rate) ∧
      (∀ m, (∀ asked given, .rateReplaced .cpu asked given ∉ (start m settings).2) ↔
        Clock.tooSlow < rate) ∧
      (settings.timerRate = defaultTimerRate →
        ∀ m, (start m settings).2 = [] ↔ Clock.tooSlow < rate) ∧
      (¬Clock.tooSlow < rate → RunsAt settings defaultCpuRate ∧
        ∀ m, (start m settings).2.head? = some (.rateReplaced .cpu rate defaultCpuRate) ∧
          (settings.timerRate = defaultTimerRate →
            (start m settings).2 = [.rateReplaced .cpu rate defaultCpuRate])) := by
  have hrate := isRate_of_readRate hread
  have hinverse := (Clock.inverse_of_isRate hrate).1
  have hdefaults : (1 / defaultCpuRate).isFinite = true ∧
      (Clock.start .timer defaultTimerRate defaultTimerRate).2 = [] := by decide +kernel
  subst hasked
  refine ⟨Clock.signedUnits_tooSlow, hinverse.symm, ?_⟩
  by_cases hfast : Clock.tooSlow < settings.cpuRate
  · obtain ⟨hruns, hlog⟩ := runsAt_of_fast hrate hfast
    refine ⟨iff_of_true hruns hfast, fun m => iff_of_true (fun asked given hmem => ?_) hfast,
      fun htimer m => iff_of_true ?_ hfast, fun hslow => absurd hfast hslow⟩
    · rw [hlog] at hmem
      cases Clock.eq_of_mem_start hmem
    · rw [hlog, htimer]
      exact hdefaults.2
  · obtain ⟨hruns, hlog⟩ := runsAt_of_slow hfast
    have hother : ¬RunsAt settings settings.cpuRate := fun hown =>
      hfast (hinverse.1 (hown.inverse_eq hruns ▸ hdefaults.1))
    refine ⟨iff_of_false hother hfast, fun m => iff_of_false (fun hnone => ?_) hfast,
      fun _ m => iff_of_false ?_ hfast, fun _ => ⟨hruns, fun m => ⟨?_, fun htimer => ?_⟩⟩⟩
    · rw [hlog] at hnone
      exact hnone _ _ List.mem_cons_self
    · rw [hlog]
      exact List.cons_ne_nil _ _
    · rw [hlog]
      rfl
    · rw [hlog, htimer, hdefaults.2]

/-- The slowest rate that has a period. -/
def slowest : Binary32 := .number false ⟨0x200001, by decide⟩

/-- The slowest rate that has a period is one that the instructions can run at. -/
theorem runsAt_slowest :
    readRate "2.938737e-39" = .ok slowest ∧ RunsAt { cpuRate := slowest } slowest ∧
      (start idle { cpuRate := slowest }).2 = [] := by
  have hread : readRate "2.938737e-39" = .ok slowest := by decide +kernel
  have hfast : Clock.tooSlow < slowest := by decide +kernel
  have hasked : ({ cpuRate := slowest } : Settings).cpuRate = slowest := rfl
  obtain ⟨-, -, hruns, -, hlog, -⟩ := runsAt_readRate_iff hread hasked
  exact ⟨hread, hruns.2 hfast, (hlog rfl idle).2 hfast⟩

/-- The least positive number. -/
def least : Binary32 := .number false ⟨1, by decide⟩

/-- The least positive number is read as a rate, and the instructions do not run at it: a record is
made, and a step costs what it does at the default rate. -/
theorem not_runsAt_least :
    readRate "1e-45" = .ok least ∧ ¬RunsAt { cpuRate := least } least ∧
      (start idle { cpuRate := least }).1.cpu = ⟨1 / defaultCpuRate, 0⟩ ∧
      (start idle { cpuRate := least }).2 = [.rateReplaced .cpu least defaultCpuRate] := by
  have hread : readRate "1e-45" = .ok least := by decide +kernel
  have hclock : (start idle { cpuRate := least }).1.cpu = ⟨1 / defaultCpuRate, 0⟩ := by
    decide +kernel
  have hother : 1 / defaultCpuRate ≠ 1 / least := by decide +kernel
  refine ⟨hread, fun hruns => hother ?_, hclock, by decide +kernel⟩
  exact congrArg Clock.period (hclock.symm.trans (hruns.starts idle))

end Pacer

end ChipEight
