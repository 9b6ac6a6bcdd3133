import ChipEight.Proofs.ExactClocks
import ChipEight.Proofs.Timekeeping

/-!
# Pacing without drift

The rates of a pacer stay true over any number of updates, as long as the arithmetic of its clocks
is exact: the ticks made since the start are as many as whole timer periods have elapsed, and the
steps, as long as each of them asks to go on, as many as whole periods of the instructions. So it
does not matter how the elapsed time was cut into updates. What is exact here is every addition and
every subtraction that an update makes; it makes none after a step that does not ask to go on.
-/

namespace ChipEight

namespace Machine

/-- The first steps, as many as this, all ask to go on. -/
def Proceeds (m : Machine) (steps : Nat) : Prop :=
  ∀ j < steps, (m.stepped j).step.outcome = .ok .proceed

/-- On a machine that waits for no key, steps that ask to go on complete an instruction each, and
leave the machine waiting for no key. -/
theorem Proceeds.completes {m : Machine} {steps : Nat} (h : m.Proceeds steps)
    (hready : m.keyWait = none) :
    (m.completedIn (.replicate steps .step)).length = steps ∧ (m.stepped steps).keyWait = none := by
  induction steps generalizing m with
  | zero => exact ⟨rfl, hready⟩
  | succ steps ih =>
    have hfirst : m.step.outcome = .ok .proceed := h 0 (Nat.succ_pos steps)
    have hnext : m.step.machine.keyWait = none := by
      cases hwait : m.step.machine.keyWait with
      | none => rfl
      | some wait =>
        have hawaits : m.step.machine.awaitsKey = true := by rw [awaitsKey, hwait, Option.isSome]
        cases hfirst.symm.trans (outcome_of_awaitsKey hawaits)
    have hcompleted : m.completed .step = some m.instruction := by
      simp only [completed, hready, hfirst]
    have hothers : m.step.machine.Proceeds steps := fun j hj => h (j + 1) (by omega)
    obtain ⟨hlength, hlast⟩ := ih hothers hnext
    refine ⟨?_, hlast⟩
    rw [List.replicate_succ, completedIn, hcompleted, List.length_append]
    change 1 + (m.step.machine.completedIn (.replicate steps .step)).length = steps + 1
    rw [hlength, Nat.add_comm]

/-- No operation but a step changes the pending wait. -/
theorem keyWait_perform {m : Machine} {operation : Operation} (h : operation ≠ .step) :
    (m.perform operation).machine.keyWait = m.keyWait := by
  cases operation with
  | load program =>
    obtain ⟨cells, r, hload⟩ := m.load_memory program
    rw [hload]
  | loadFile path content =>
    obtain ⟨cells, r, hload⟩ := m.loadFile_memory path content
    rw [hload]
  | step => exact absurd rfl h
  | _ => rfl

/-- Ticks do not change the pending wait. -/
theorem keyWait_ticks (m : Machine) (ticks : Nat) :
    (m.performAll (.replicate ticks .tick)).keyWait = m.keyWait := by
  induction ticks generalizing m with
  | zero => rfl
  | succ ticks ih => exact ih m.tick

end Machine

namespace Batch

section exact

variable {m next : Machine} {c left : Clock} {steps : Nat} {outcome : Except Fault Signal}
  {size : Int}

/-- All steps before one that a batch makes ask to go on. -/
theorem Runs.proceeds_to (h : Runs m c steps next left outcome) : ∀ j < steps, m.Proceeds j :=
  fun _ hj i hi => h.proceeds_before i (by omega)

/-- A batch that pays exactly runs. -/
theorem exists_runs_of_exact (hpaces : c.Paces) (hpays : c.PaysExactlyWhile m.Proceeds)
    (hsize : c.saved.HasSize size) (hnonneg : 0 ≤ size) :
    ∃ steps next left outcome, Runs m c steps next left outcome := by
  obtain ⟨count, hbelow, habove⟩ := Clock.exists_whole_periods hpaces.size_pos hnonneg
  by_cases hall : m.Proceeds count
  · have hreached : ∀ j < count, m.Proceeds j := fun j hj i hi => hall i (by omega)
    have hdue := hpaces.due_of_le hpays hsize hreached hbelow
    refine exists_runs hdue (.inl (Bool.eq_false_iff.2 fun hmore => ?_))
    rw [hpaces.due_after_iff hpays hsize hdue hreached] at hmore
    omega
  · -- The first step that does not ask to go on ends the batch.
    have hother : ∃ j, j < count ∧ (m.stepped j).step.outcome ≠ .ok .proceed := by
      by_contra hnone
      refine hall fun j hj => ?_
      by_contra hstep
      exact hnone ⟨j, hj, hstep⟩
    obtain ⟨hlt, hstep⟩ := Nat.find_spec hother
    have hbefore : ∀ i < Nat.find hother, (m.stepped i).step.outcome = .ok .proceed := by
      intro i hi
      by_contra hnot
      exact Nat.find_min hother hi ⟨by omega, hnot⟩
    have hcovered : (Nat.find hother : Int) * c.period.signedUnits ≤ size := by
      have hperiod := Int.le_of_lt hpaces.size_pos
      have hfewer := Int.mul_le_mul_of_nonneg_right (Int.ofNat_le.2 (Nat.le_of_lt hlt)) hperiod
      omega
    have hdue := hpaces.due_of_le hpays hsize (fun j hj i hi => hbefore i (by omega)) hcovered
    exact exists_runs hdue (.inr hstep)

/-- A batch that pays exactly leaves something finite that is not below zero. -/
theorem Runs.exists_left (hpaces : c.Paces) (hpays : c.PaysExactlyWhile m.Proceeds)
    (hsize : c.saved.HasSize size) (hnonneg : 0 ≤ size)
    (h : Runs m c steps next left outcome) :
    ∃ rest, 0 ≤ rest ∧ left.saved.HasSize rest := by
  have hafter : ∃ rest, 0 ≤ rest ∧ (c.after steps).saved.HasSize rest := by
    have hcovered := hpaces.le_of_due hpays hsize hnonneg h.due_after h.proceeds_to
    exact ⟨_, by omega, Clock.size_after hpays hsize h.due_after h.proceeds_to⟩
  cases steps with
  | zero =>
    rw [(h.of_proceed fun j hj => by omega).2.1]
    exact hafter
  | succ j =>
    cases hout : (m.stepped j).step.outcome with
    | error fault =>
      rw [(h.of_fault rfl hout).2]
      exact hafter
    | ok signal =>
      by_cases hrequest : signal = .proceed
      · rw [(h.of_proceed fun i hi => by rw [Nat.succ.inj hi, hout, hrequest]).2.1]
        exact hafter
      · rw [(h.of_request rfl hout hrequest).2]
        exact ⟨0, Int.le_refl 0, Binary32.HasSize.mk rfl rfl⟩

end exact

end Batch

namespace Pacer

/-- Everything that an update adds and subtracts is exact. -/
structure Exact (p : Pacer) (elapsed : Binary32) : Prop where
  /-- The elapsed time is saved up exactly for ticks. -/
  timerSaves : p.timer.SavesExactly elapsed
  /-- All ticks are paid for exactly. -/
  timerPays : (p.timer.save elapsed).PaysExactlyWhile fun _ => True
  /-- The elapsed time is saved up exactly for steps. -/
  cpuSaves : p.cpu.SavesExactly elapsed
  /-- All steps are paid for exactly. A step is only reached if those before it ask to go on. -/
  cpuPays : ∀ ticks, (p.timer.save elapsed).Drains ticks →
    (p.cpu.save elapsed).PaysExactlyWhile (p.machine.performAll (.replicate ticks .tick)).Proceeds

/-- An update is exact if both clocks and the elapsed time are on one grid. -/
theorem exact_of_onGrid {p : Pacer} {elapsed : Binary32} {shift more : Nat}
    {timerCost timerHeld cpuCost cpuHeld : Nat} (hpaces : p.Paces)
    (htimer : p.timer.OnGrid shift timerCost timerHeld)
    (hcpu : p.cpu.OnGrid shift cpuCost cpuHeld) (helapsed : elapsed.HasSize (more <<< shift : Nat))
    (htimerfew : timerHeld + more ≤ 2 * Magnitude.runLength)
    (hcpufew : cpuHeld + more ≤ 2 * Magnitude.runLength) : p.Exact elapsed := by
  obtain ⟨htimersaves, htimergrid⟩ := htimer.save helapsed htimerfew
  obtain ⟨hcpusaves, hcpugrid⟩ := hcpu.save helapsed hcpufew
  exact
    { timerSaves := htimersaves
      timerPays := htimergrid.paysExactly (hpaces.timer.save elapsed) _
      cpuSaves := hcpusaves
      cpuPays := fun ticks _ => hcpugrid.paysExactly (hpaces.cpu.save elapsed) _ }

/-- What is saved up for steps is finite and not below zero. -/
def Solvent (p : Pacer) : Prop := ∃ size, 0 ≤ size ∧ p.cpu.saved.HasSize size

/-- An exact update comes to an end. -/
theorem Exact.returns {p : Pacer} {elapsed : Binary32} {time ticks : Int}
    (h : p.Exact elapsed) (hnonneg : 0 ≤ elapsed) (htimer : p.timer.Accounts time ticks)
    (hpaces : p.cpu.Paces) (hsolvent : p.Solvent) : p.Returns elapsed := by
  have hmore := Binary32.signedUnits_nonneg hnonneg
  have hcovers := htimer.covers
  obtain ⟨hfinite, hsize⟩ := htimer.saved
  obtain ⟨size, hsizenonneg, hcpu⟩ := hsolvent
  obtain ⟨due, hdrains⟩ := (htimer.paces.save elapsed).exists_drains h.timerPays h.timerSaves
    (by omega)
  have hcpusaves := h.cpuSaves
  unfold Clock.SavesExactly at hcpusaves
  rw [hcpu.size] at hcpusaves
  obtain ⟨steps, next, left, outcome, hruns⟩ :=
    Batch.exists_runs_of_exact (hpaces.save elapsed) (h.cpuPays due hdrains) hcpusaves (by omega)
  exact returns_of_parts hdrains hruns

end Pacer

/-- An update that a pacer makes. -/
structure Beat where
  /-- The pacer before. -/
  before : Pacer
  /-- The time that elapses. -/
  elapsed : Binary32
  /-- What the update gives. -/
  update : Update

namespace Beat

/-- Size of the elapsed time, in units of `2 ^ (-149)` seconds. -/
def time (b : Beat) : Int := b.elapsed.signedUnits

/-- Number of ticks. -/
def ticks (b : Beat) : Int := b.update.ticks

/-- Number of steps. -/
def steps (b : Beat) : Int := b.update.steps

/-- Number of instructions that the steps complete. -/
def instructions (b : Beat) : Int :=
  ((b.before.machine.performAll (.replicate b.update.ticks .tick)).completedIn
    (.replicate b.update.steps .step)).length

/-- Every step asks to go on. -/
def Unbroken (b : Beat) : Prop :=
  ∀ j < b.update.steps, (b.before.foundBy b.update j).step.outcome = .ok .proceed

/-- Every step asks to go on just if the update answers so. -/
theorem unbroken_iff {p : Pacer} {budget : Nat} {elapsed : Binary32} {u : Update}
    (h : p.update budget elapsed = some u) :
    Unbroken ⟨p, elapsed, u⟩ ↔ u.outcome = .ok .proceed := by
  have hpaced := Pacer.paced_of_update h
  constructor
  · exact fun hall => (hpaced.rest fun j hj => hall j (show j < u.steps by omega)).1
  · intro hout j hj
    change j < u.steps at hj
    by_cases hlast : j + 1 = u.steps
    · cases hstep : (p.foundBy u j).step.outcome with
      | error fault => cases hout.symm.trans (hpaced.fault j fault hlast hstep).1
      | ok signal =>
        by_cases hrequest : signal = .proceed
        · rw [hrequest]
        · have hsignal := hout.symm.trans (hpaced.request j signal hlast hstep hrequest).1
          exact absurd (Except.ok.inj hsignal).symm hrequest
    · exact hpaced.proceeds j (by omega)

/-- A measure of beats, added up. -/
def total (measure : Beat → Int) (beats : List Beat) : Int :=
  beats.foldr (fun b sum => measure b + sum) 0

/-- One more beat adds its own measure. -/
theorem total_concat (measure : Beat → Int) (beats : List Beat) (b : Beat) :
    total measure (beats ++ [b]) = total measure beats + measure b := by
  induction beats with
  | nil => exact Int.add_comm _ _
  | cons first rest ih =>
    change measure first + total measure (rest ++ [b]) = measure first + total measure rest + _
    rw [ih, Int.add_assoc]

end Beat

namespace Pacer

open Beat (total time ticks steps instructions)

/-- A pacer is kept running: time elapses in one stretch after the other, and every update is exact
and comes to an end. In between the host does to the machine what it likes but step it. The updates
are kept in order. -/
inductive Beats (first : Pacer) : List Beat → Pacer → Prop where
  /-- Nothing has happened. -/
  | start : Beats first [] first
  /-- Time elapses. -/
  | update {beats : List Beat} {p : Pacer} {budget : Nat} {elapsed : Binary32} {u : Update}
    (earlier : Beats first beats p) (nonneg : 0 ≤ elapsed) (exact : p.Exact elapsed)
    (answer : p.update budget elapsed = some u) :
    Beats first (beats ++ [⟨p, elapsed, u⟩]) u.pacer
  /-- The host performs an operation on the machine. -/
  | perform {beats : List Beat} {p : Pacer} (operation : Operation)
    (earlier : Beats first beats p) (other : operation ≠ .step) :
    Beats first beats (p.perform operation).1

/-- A pacer that is kept running is one that a host can have. -/
theorem Beats.reached {settings : Settings} {m : Machine} {beats : List Beat} {last : Pacer}
    (h : (Pacer.start m settings).1.Beats beats last) : Reached settings last := by
  induction h with
  | start => exact .start m
  | update earlier nonneg exact answer ih => exact ih.update answer
  | perform operation earlier other ih => exact ih.perform operation

/-- The books of a pacer that is kept running. -/
structure Balanced (first : Pacer) (beats : List Beat) (last : Pacer) : Prop where
  /-- The timer clock accounts for the ticks. -/
  timer : last.timer.Accounts (total time beats) (total ticks beats)
  /-- The clock of the instructions paces something. -/
  paces : last.cpu.Paces
  /-- What is saved up for steps is finite and not below zero. -/
  solvent : last.Solvent
  /-- The clock of the instructions accounts for the steps, as long as they all ask to go on. -/
  cpu : (∀ b ∈ beats, b.Unbroken) → last.cpu.Accounts (total time beats) (total steps beats)
  /-- On a machine that waits for no key at the start, these steps complete one instruction
  each. -/
  instructions : (∀ b ∈ beats, b.Unbroken) → first.machine.keyWait = none →
    total instructions beats = total steps beats ∧ last.machine.keyWait = none

/-- The books are balanced at the start. -/
theorem balanced_start (m : Machine) (settings : Settings) :
    Balanced (start m settings).1 [] (start m settings).1 := by
  have hpaces : (start m settings).1.Paces := (Reached.start m).paces
  have hempty : ∀ name rate default, (Clock.start name rate default).1.saved = 0 := by
    intro name rate default
    unfold Clock.start
    split <;> rfl
  have hcpu := hpaces.cpu.accounts (hempty _ _ _)
  exact
    { timer := hpaces.timer.accounts (hempty _ _ _)
      paces := hpaces.cpu
      solvent := ⟨_, hcpu.covers, hcpu.saved⟩
      cpu := fun _ => hcpu
      instructions := fun _ hready => ⟨rfl, hready⟩ }

section Balanced

variable {first p : Pacer} {beats : List Beat} {budget : Nat} {elapsed : Binary32} {u : Update}

/-- An exact update leaves the books balanced. -/
theorem Balanced.update (h : Balanced first beats p) (hnonneg : 0 ≤ elapsed)
    (hexact : p.Exact elapsed) (hupdate : p.update budget elapsed = some u) :
    Balanced first (beats ++ [⟨p, elapsed, u⟩]) u.pacer := by
  obtain ⟨hdrains, htimer, hruns⟩ := parts_of_update hupdate
  obtain ⟨size, hsizenonneg, hsize⟩ := h.solvent
  have hmore := Binary32.signedUnits_nonneg hnonneg
  have hcpupays := hexact.cpuPays u.ticks hdrains
  have hcpusaves := hexact.cpuSaves
  unfold Clock.SavesExactly at hcpusaves
  rw [hsize.size] at hcpusaves
  have hfound : ∀ j, p.foundBy u j =
      (p.machine.performAll (.replicate u.ticks .tick)).stepped j := fun j =>
    p.machine.performAll_append _ _
  -- What the new beat says about its steps, and what the others say.
  have hsplit : (∀ b ∈ beats ++ [⟨p, elapsed, u⟩], b.Unbroken) → (∀ b ∈ beats, b.Unbroken) ∧
      (p.machine.performAll (.replicate u.ticks .tick)).Proceeds u.steps := by
    intro hall
    refine ⟨fun b hb => hall b (List.mem_append_left _ hb), fun j hj => ?_⟩
    rw [← hfound]
    exact hall _ (List.mem_append_right _ List.mem_cons_self) j hj
  refine
    { timer := ?_, paces := h.paces.of_period_eq hruns.period_eq,
      solvent := hruns.exists_left (h.paces.save elapsed) hcpupays hcpusaves (by omega),
      cpu := fun hall => ?_, instructions := fun hall hready => ?_ }
  · rw [htimer, Beat.total_concat, Beat.total_concat]
    exact h.timer.paid hnonneg hexact.timerSaves hexact.timerPays hdrains.due
      (fun _ _ => trivial) hdrains.rest
  · obtain ⟨hbefore, hproceeds⟩ := hsplit hall
    obtain ⟨-, hleft, hrest⟩ := hruns.of_proceed fun j hj => hproceeds j (by omega)
    rw [hleft] at hrest
    rw [hleft, Beat.total_concat, Beat.total_concat]
    exact (h.cpu hbefore).paid hnonneg hexact.cpuSaves hcpupays hruns.due_after
      hruns.proceeds_to hrest
  · obtain ⟨hbefore, hproceeds⟩ := hsplit hall
    obtain ⟨htotal, hwait⟩ := h.instructions hbefore hready
    obtain ⟨hlength, hlast⟩ := hproceeds.completes ((Machine.keyWait_ticks _ _).trans hwait)
    rw [Beat.total_concat, Beat.total_concat, htotal, hruns.machine_eq]
    exact ⟨congrArg _ (congrArg Int.ofNat hlength), hlast⟩

/-- What the host does in between leaves the books balanced. -/
theorem Balanced.perform {operation : Operation} (h : Balanced first beats p)
    (hother : operation ≠ .step) : Balanced first beats (p.perform operation).1 :=
  { timer := h.timer
    paces := h.paces
    solvent := h.solvent
    cpu := h.cpu
    instructions := fun hall hready =>
      (h.instructions hall hready).imp_right (Machine.keyWait_perform hother).trans }

/-- The books of a pacer that is kept running are balanced. -/
theorem Beats.balanced {settings : Settings} {m : Machine} {last : Pacer}
    (h : (Pacer.start m settings).1.Beats beats last) :
    Balanced (Pacer.start m settings).1 beats last := by
  induction h with
  | start => exact balanced_start m settings
  | update earlier nonneg exact answer ih => exact ih.update nonneg exact answer
  | perform operation earlier other ih => exact ih.perform other

end Balanced

/-- A pacer does not drift while its arithmetic is exact. Let it be made of any machine, at any
settings, and be kept running. Then the ticks since the start are as many as whole timer periods
have elapsed. As long as every step asks to go on, the steps are as many as whole periods of the
instructions have elapsed, and so are the instructions that they complete, if the machine waited
for no key at the start. The next exact update comes to an end. Any other pacer that is made at
these settings and is kept running makes as many ticks and steps in the same time, however the time
was cut there. -/
theorem paces_without_drift {settings : Settings} {m : Machine} {beats : List Beat} {last : Pacer}
    (h : (start m settings).1.Beats beats last) :
    total ticks beats = total time beats / (start m settings).1.timer.period.signedUnits ∧
    ((∀ b ∈ beats, b.Unbroken) →
      total steps beats = total time beats / (start m settings).1.cpu.period.signedUnits ∧
      (m.keyWait = none → total instructions beats =
        total time beats / (start m settings).1.cpu.period.signedUnits)) ∧
    (∀ elapsed, 0 ≤ elapsed → last.Exact elapsed → last.Returns elapsed) ∧
    ∀ {m' : Machine} {beats' : List Beat} {last' : Pacer},
      (start m' settings).1.Beats beats' last' → total time beats' = total time beats →
      total ticks beats' = total ticks beats ∧
      ((∀ b ∈ beats, b.Unbroken) → (∀ b ∈ beats', b.Unbroken) →
        total steps beats' = total steps beats) := by
  have hcounts : ∀ {m : Machine} {beats : List Beat} {last : Pacer},
      (start m settings).1.Beats beats last →
      total ticks beats = total time beats / (start m settings).1.timer.period.signedUnits ∧
      ((∀ b ∈ beats, b.Unbroken) →
        total steps beats = total time beats / (start m settings).1.cpu.period.signedUnits) := by
    intro m beats last h
    have hbalanced := h.balanced
    obtain ⟨hcpu, htimer⟩ := h.reached.period_eq
    have hticks := hbalanced.timer.cycles_eq
    rw [htimer] at hticks
    refine ⟨hticks, fun hall => ?_⟩
    have hsteps := (hbalanced.cpu hall).cycles_eq
    rw [hcpu] at hsteps
    exact hsteps
  have hbalanced := h.balanced
  obtain ⟨hticks, hsteps⟩ := hcounts h
  refine ⟨hticks, fun hall => ⟨hsteps hall, fun hready => ?_⟩, fun elapsed hnonneg hexact => ?_,
    fun h' htime => ?_⟩
  · rw [(hbalanced.instructions hall hready).1]
    exact hsteps hall
  · exact hexact.returns hnonneg hbalanced.timer hbalanced.paces hbalanced.solvent
  · obtain ⟨hticks', hsteps'⟩ := hcounts h'
    rw [htime] at hticks' hsteps'
    exact ⟨hticks'.trans hticks.symm, fun hall hall' => (hsteps' hall').trans (hsteps hall).symm⟩

/-- At 512 instructions and 64 ticks each second, `3/256` and then `5/1024` of a second make one
tick and eight steps, with a key pressed in between. -/
theorem idle_does_not_drift : ∃ beats last, (start idle fast).1.Beats beats last ∧
    (∀ b ∈ beats, b.Unbroken) ∧ beats.map (·.elapsed) = [3 / 256, 5 / 1024] ∧
    total ticks beats = 1 ∧ total steps beats = 8 ∧ total instructions beats = 8 := by
  have hfacts : ((start idle fast).1.update 6 (3 / 256)).bind (fun u =>
      ((u.pacer.perform (.setKey (.ofNat 5) true)).1.update 2 (5 / 1024)).map fun w =>
        (u.outcome, u.pacer.timer, u.pacer.cpu, w.outcome)) =
      some (.ok .proceed, ⟨1 / 64, 3 / 256⟩, ⟨1 / 512, 0⟩, .ok .proceed) := by
    decide +kernel
  obtain ⟨u, hu, hlater⟩ := Option.bind_eq_some_iff.1 hfacts
  obtain ⟨w, hw, hboth⟩ := Option.map_eq_some_iff.1 hlater
  obtain ⟨huproceeds, hrest⟩ := Prod.mk.inj hboth
  obtain ⟨htimer, hrest⟩ := Prod.mk.inj hrest
  obtain ⟨hcpu, hwproceeds⟩ := Prod.mk.inj hrest
  -- All sizes are multiples of `1 / 1024`.
  have hfinite : (2 * Magnitude.runLength) <<< 139 < Magnitude.units 0x7F800000 := by
    decide +kernel
  have htimerPeriod : (1 / 64 : Binary32).HasSize (16 <<< 139 : Nat) :=
    ⟨by decide +kernel, by decide +kernel⟩
  have hcpuPeriod : (1 / 512 : Binary32).HasSize (2 <<< 139 : Nat) :=
    ⟨by decide +kernel, by decide +kernel⟩
  have hfirst : (3 / 256 : Binary32).HasSize (12 <<< 139 : Nat) :=
    ⟨by decide +kernel, by decide +kernel⟩
  have hsecond : (5 / 1024 : Binary32).HasSize (5 <<< 139 : Nat) :=
    ⟨by decide +kernel, by decide +kernel⟩
  have hzero : (0 : Binary32).HasSize (0 <<< 139 : Nat) := ⟨by decide +kernel, by decide +kernel⟩
  have hfirstTimer : (start idle fast).1.timer.OnGrid 139 16 0 :=
    ⟨htimerPeriod, hzero, by decide, hfinite⟩
  have hfirstCpu : (start idle fast).1.cpu.OnGrid 139 2 0 :=
    ⟨hcpuPeriod, hzero, by decide, hfinite⟩
  have hsecondTimer : u.pacer.timer.OnGrid 139 16 12 := by
    rw [htimer]
    exact ⟨htimerPeriod, hfirst, by decide, hfinite⟩
  have hsecondCpu : u.pacer.cpu.OnGrid 139 2 0 := by
    rw [hcpu]
    exact ⟨hcpuPeriod, hzero, by decide, hfinite⟩
  have hstart : (start idle fast).1.Beats [] (start idle fast).1 := .start
  have hexact := exact_of_onGrid hstart.reached.paces hfirstTimer hfirstCpu hfirst (by decide)
    (by decide)
  have hbetween : (start idle fast).1.Beats [⟨(start idle fast).1, 3 / 256, u⟩]
      (u.pacer.perform (.setKey (.ofNat 5) true)).1 :=
    .perform _ (.update hstart (by decide +kernel) hexact hu) nofun
  have hexact' := exact_of_onGrid hbetween.reached.paces hsecondTimer hsecondCpu hsecond
    (by decide) (by decide)
  have hbeats := hbetween.update (by decide +kernel) hexact' hw
  have hunbroken : ∀ b ∈ ([⟨(start idle fast).1, 3 / 256, u⟩,
      ⟨(u.pacer.perform (.setKey (.ofNat 5) true)).1, 5 / 1024, w⟩] : List Beat), b.Unbroken := by
    intro b hb
    obtain rfl | hb := List.mem_cons.1 hb
    · exact (Beat.unbroken_iff hu).2 huproceeds
    · obtain rfl := List.mem_singleton.1 hb
      exact (Beat.unbroken_iff hw).2 hwproceeds
  obtain ⟨hticks, hcounts, -⟩ := paces_without_drift hbeats
  obtain ⟨hsteps, hinstructions⟩ := hcounts hunbroken
  refine ⟨_, _, hbeats, hunbroken, rfl, hticks.trans ?_, hsteps.trans ?_,
    (hinstructions rfl).trans ?_⟩
  all_goals
    change ((3 / 256 : Binary32).signedUnits + ((5 / 1024 : Binary32).signedUnits + 0)) / _ = _
    decide +kernel

end Pacer

end ChipEight
