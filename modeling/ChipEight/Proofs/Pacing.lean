import ChipEight.Pacing.Pacer
import ChipEight.Proofs.Outcomes

/-!
# What an update does

An update of a pacer is nothing but ticks followed by steps. How many ticks there are is a
matter of the timer clock alone: as many as it pays for until no more is due. Steps are paid
for in the same way, one by one, and end early when one of them does not ask to go on.
Everything else follows from this: what the update answers, what is left on the clocks, and
that a drawing which ends the frame, or a step which leaves the machine waiting for a key, is
the last one.
-/

namespace ChipEight

namespace Clock

/-- The clock after a number of payments. -/
def after (c : Clock) (count : Nat) : Clock := Nat.repeat pay count c

/-- The first payment comes first. -/
theorem after_succ (c : Clock) (count : Nat) : c.after (count + 1) = c.pay.after count := by
  induction count with
  | zero => rfl
  | succ count ih => exact congrArg pay ih

/-- Payments do not change what a cycle costs. -/
@[simp] theorem period_after (c : Clock) (count : Nat) : (c.after count).period = c.period := by
  induction count with
  | zero => rfl
  | succ count ih => exact ih

/-- A clock pays for a number of cycles if each of them is due, and it is drained if no more
is due then. -/
structure Drains (c : Clock) (count : Nat) : Prop where
  /-- All cycles that are paid for are due. -/
  due : ∀ j < count, (c.after j).due = true
  /-- No cycle is due afterwards. -/
  rest : (c.after count).due = false

/-- A clock is drained at once if no cycle is due. -/
theorem drains_zero_iff (c : Clock) : c.Drains 0 ↔ c.due = false :=
  ⟨fun h => h.rest, fun h => ⟨nofun, h⟩⟩

/-- One more payment before a clock is drained. -/
theorem drains_succ_iff (c : Clock) (count : Nat) :
    c.Drains (count + 1) ↔ c.due = true ∧ c.pay.Drains count := by
  constructor
  · intro h
    refine ⟨h.due 0 (Nat.succ_pos count), fun j hj => ?_, ?_⟩
    · rw [← after_succ]
      exact h.due (j + 1) (by omega)
    · rw [← after_succ]
      exact h.rest
  · rintro ⟨hdue, h⟩
    refine ⟨fun j hj => ?_, ?_⟩
    · cases j with
      | zero => exact hdue
      | succ j =>
        rw [after_succ]
        exact h.due j (by omega)
    · rw [after_succ]
      exact h.rest

/-- A clock that is not due is drained after no payment. -/
theorem Drains.eq_zero {c : Clock} {count : Nat} (h : c.Drains count) (hrest : c.due = false) :
    count = 0 := by
  cases count with
  | zero => rfl
  | succ count =>
    rw [((c.drains_succ_iff count).1 h).1] at hrest
    cases hrest

/-- A clock that is due is drained after its first payment and some others. -/
theorem Drains.eq_succ {c : Clock} {count : Nat} (h : c.Drains count) (hdue : c.due = true) :
    ∃ others, count = others + 1 ∧ c.pay.Drains others := by
  cases count with
  | zero =>
    rw [c.drains_zero_iff.1 h] at hdue
    cases hdue
  | succ count => exact ⟨count, rfl, ((c.drains_succ_iff count).1 h).2⟩

/-- A clock that is not due pays for nothing. -/
theorem payAll_of_rest {c : Clock} (budget first : Nat) (h : c.due = false) :
    payAll budget c first = some (c, first) := by
  cases budget <;> rw [payAll, h, if_neg Bool.false_ne_true]

/-- Paying for all cycles drains the clock, if the budget allows it. -/
theorem payAll_eq_some_iff {budget : Nat} {c d : Clock} {first last : Nat} :
    payAll budget c first = some (d, last) ↔
      ∃ count ≤ budget, last = first + count ∧ d = c.after count ∧ c.Drains count := by
  induction budget generalizing c first with
  | zero =>
    constructor
    · intro h
      cases hdue : c.due with
      | false =>
        rw [payAll_of_rest 0 first hdue] at h
        cases h
        exact ⟨0, Nat.le_refl 0, rfl, rfl, (drains_zero_iff _).2 hdue⟩
      | true =>
        rw [payAll, hdue, if_pos rfl] at h
        cases h
    · rintro ⟨count, hcount, rfl, rfl, h⟩
      obtain rfl := Nat.le_zero.1 hcount
      exact payAll_of_rest 0 first (c.drains_zero_iff.1 h)
  | succ budget ih =>
    cases hdue : c.due with
    | false =>
      rw [payAll_of_rest (budget + 1) first hdue]
      constructor
      · intro h
        cases h
        exact ⟨0, Nat.zero_le _, rfl, rfl, (drains_zero_iff _).2 hdue⟩
      · rintro ⟨count, -, rfl, rfl, h⟩
        rw [h.eq_zero hdue]
        rfl
    | true =>
      rw [payAll, hdue, if_pos rfl, ih]
      constructor
      · rintro ⟨count, hcount, rfl, rfl, h⟩
        exact ⟨count + 1, by omega, by omega, (c.after_succ count).symm,
          (c.drains_succ_iff count).2 ⟨hdue, h⟩⟩
      · rintro ⟨count, hcount, rfl, rfl, h⟩
        obtain ⟨others, rfl, hothers⟩ := h.eq_succ hdue
        exact ⟨others, by omega, by omega, c.after_succ others, hothers⟩

end Clock

namespace Machine

/-- Ticks that are made one after the other. -/
theorem repeat_tick (m : Machine) (ticks : Nat) :
    Nat.repeat tick ticks m = m.performAll (.replicate ticks .tick) := by
  induction ticks with
  | zero => rfl
  | succ ticks ih =>
    rw [List.replicate_succ', performAll_append, ← ih]
    rfl

/-- The machine after a number of steps. -/
def stepped (m : Machine) (steps : Nat) : Machine := m.performAll (.replicate steps .step)

/-- A drawing that is carried out ends the frame, where the dialect says so. -/
theorem outcome_of_completed_draw {m : Machine} {x y height : Nibble}
    (hends : m.dialect.drawEndsFrame = true) (h : m.completed .step = some (.draw x y height)) :
    m.step.outcome = .ok .nextFrame := by
  obtain ⟨-, hready, hdraw, -⟩ := completed_eq_some_iff.1 h
  rw [outcome_step_of_ready hready, hdraw]
  change Except.ok (if m.dialect.drawEndsFrame then Signal.nextFrame else .proceed) = _
  rw [hends, if_pos rfl]

/-- A step that leaves the machine waiting for a key asks for it. -/
theorem outcome_of_awaitsKey {m : Machine} (h : m.step.machine.awaitsKey = true) :
    m.step.outcome = .ok .awaitingKey := by
  obtain ⟨⟨x, latched⟩, hwait, -⟩ | ⟨hready, signal, hout, hstep⟩ | ⟨hready, fault, -, hstep⟩ :=
    m.step_cases
  · cases latched with
    | none => rw [step_of_unlatched hwait]
    | some key =>
      cases hheld : m.keypad.holds key with
      | true => rw [step_of_held hwait hheld]
      | false =>
        rw [step_of_released hwait hheld] at h
        cases h
  · by_cases hawait : ∃ x, m.instruction = .awaitKey x
    · obtain ⟨x, hx⟩ := hawait
      rw [step_of_awaitKey hready hx]
    · have hkeep : m.execution.machine.keyWait = m.keyWait :=
        keyWait_execute fun x hx => hawait ⟨x, hx⟩
      rw [hstep] at h
      unfold awaitsKey at h
      rw [hkeep, hready] at h
      cases h
  · rw [hstep] at h
    unfold awaitsKey at h
    rw [hready] at h
    cases h

end Machine

namespace Batch

/-- A batch of steps: the machine and the clock that it begins with, its number of steps, the
machine and the clock that it leaves, and its outcome. -/
inductive Runs : Machine → Clock → Nat → Machine → Clock → Except Fault Signal → Prop where
  /-- No step is due. -/
  | rests {m : Machine} {c : Clock} (rest : c.due = false) : Runs m c 0 m c (.ok .proceed)
  /-- A step is due and asks to go on. -/
  | proceeds {m next : Machine} {c left : Clock} {steps : Nat} {outcome : Except Fault Signal}
    (due : c.due = true) (step : m.step.outcome = .ok .proceed)
    (others : Runs m.step.machine c.pay steps next left outcome) :
    Runs m c (steps + 1) next left outcome
  /-- A step is due and asks for something else. -/
  | yields {m : Machine} {c : Clock} {signal : Signal} (due : c.due = true)
    (step : m.step.outcome = .ok signal) (request : signal ≠ .proceed) :
    Runs m c 1 m.step.machine c.pay.forget (.ok signal)
  /-- A step is due and fails. -/
  | fails {m : Machine} {c : Clock} {fault : Fault} (due : c.due = true)
    (step : m.step.outcome = .error fault) : Runs m c 1 m.step.machine c.pay (.error fault)

/-- The batch after one more step. -/
def stepped (b : Batch) : Batch :=
  ⟨b.machine.step.machine, b.cpu.pay, b.steps + 1, b.log ++ b.machine.step.log⟩

/-- Where no step is due, a batch ends. -/
theorem run_of_rest {b : Batch} (budget : Nat) (h : b.cpu.due = false) :
    run budget b = some (b, .ok .proceed) := by
  unfold run
  rw [h, if_neg Bool.false_ne_true]

/-- Where a step is due, a batch needs some budget. -/
theorem run_zero_of_due {b : Batch} (h : b.cpu.due = true) : run 0 b = none := by
  unfold run
  rw [h, if_pos rfl]

/-- Where a step is due, a batch makes it and goes on or ends there. -/
theorem run_of_due {b : Batch} (budget : Nat) (h : b.cpu.due = true) :
    run (budget + 1) b = match b.afterStep with
      | (next, none) => run budget next
      | (next, some outcome) => some (next, outcome) := by
  conv_lhs => unfold run
  exact if_pos h

/-- A batch goes on with the next step if the first one says so. -/
theorem run_of_proceed {b : Batch} (budget : Nat) (hdue : b.cpu.due = true)
    (h : b.machine.step.outcome = .ok .proceed) : run (budget + 1) b = run budget b.stepped := by
  have hafter : b.afterStep = (b.stepped, none) := by simp only [afterStep, h, stepped]
  rw [run_of_due budget hdue, hafter]

/-- A batch ends with a request, and no time is left saved up. -/
theorem run_of_request {b : Batch} {signal : Signal} (budget : Nat) (hdue : b.cpu.due = true)
    (h : b.machine.step.outcome = .ok signal) (hrequest : signal ≠ .proceed) :
    run (budget + 1) b = some ({ b.stepped with cpu := b.cpu.pay.forget }, .ok signal) := by
  have hafter :
      b.afterStep = ({ b.stepped with cpu := b.cpu.pay.forget }, some (.ok signal)) := by
    cases signal with
    | proceed => exact absurd rfl hrequest
    | nextFrame => simp only [afterStep, h, stepped]
    | awaitingKey => simp only [afterStep, h, stepped]
  rw [run_of_due budget hdue, hafter]

/-- A batch ends with a fault. -/
theorem run_of_fault {b : Batch} {fault : Fault} (budget : Nat) (hdue : b.cpu.due = true)
    (h : b.machine.step.outcome = .error fault) :
    run (budget + 1) b = some (b.stepped, .error fault) := by
  have hafter : b.afterStep = (b.stepped, some (.error fault)) := by
    simp only [afterStep, h, stepped]
  rw [run_of_due budget hdue, hafter]

/-- A batch that gives an answer has run within its budget. -/
theorem runs_of_run {budget : Nat} {b last : Batch} {outcome : Except Fault Signal}
    (h : run budget b = some (last, outcome)) :
    ∃ steps ≤ budget, last.steps = b.steps + steps ∧
      Runs b.machine b.cpu steps last.machine last.cpu outcome := by
  induction budget generalizing b with
  | zero =>
    cases hdue : b.cpu.due with
    | false =>
      rw [run_of_rest 0 hdue] at h
      cases h
      exact ⟨0, Nat.le_refl 0, rfl, .rests hdue⟩
    | true =>
      rw [run_zero_of_due hdue] at h
      cases h
  | succ budget ih =>
    cases hdue : b.cpu.due with
    | false =>
      rw [run_of_rest _ hdue] at h
      cases h
      exact ⟨0, Nat.zero_le _, rfl, .rests hdue⟩
    | true =>
      cases hstep : b.machine.step.outcome with
      | error fault =>
        rw [run_of_fault budget hdue hstep] at h
        cases h
        exact ⟨1, by omega, rfl, .fails hdue hstep⟩
      | ok signal =>
        by_cases hrequest : signal = .proceed
        · subst hrequest
          rw [run_of_proceed budget hdue hstep] at h
          obtain ⟨steps, hbudget, hsteps, hruns⟩ := ih h
          have hcount : b.stepped.steps = b.steps + 1 := rfl
          exact ⟨steps + 1, by omega, by omega, .proceeds hdue hstep hruns⟩
        · rw [run_of_request budget hdue hstep hrequest] at h
          cases h
          exact ⟨1, by omega, rfl, .yields hdue hstep hrequest⟩

/-- A batch that runs gives an answer, if the budget allows for its steps. -/
theorem run_of_runs {b : Batch} {m next : Machine} {c left : Clock} {steps budget : Nat}
    {outcome : Except Fault Signal} (h : Runs m c steps next left outcome)
    (hmachine : b.machine = m) (hclock : b.cpu = c) (hbudget : steps ≤ budget) :
    ∃ last, run budget b = some (last, outcome) := by
  induction h generalizing b budget with
  | rests rest =>
    subst hclock
    exact ⟨b, run_of_rest budget rest⟩
  | proceeds due step others ih =>
    subst hmachine hclock
    obtain ⟨budget, rfl⟩ := Nat.exists_eq_add_of_le' (Nat.le_of_add_left_le hbudget)
    rw [run_of_proceed budget due step]
    exact ih rfl rfl (by omega)
  | yields due step request =>
    subst hmachine hclock
    obtain ⟨budget, rfl⟩ := Nat.exists_eq_add_of_le' hbudget
    exact ⟨_, run_of_request budget due step request⟩
  | fails due step =>
    subst hmachine hclock
    obtain ⟨budget, rfl⟩ := Nat.exists_eq_add_of_le' hbudget
    exact ⟨_, run_of_fault budget due step⟩

section Runs

variable {m next : Machine} {c left : Clock} {steps : Nat} {outcome : Except Fault Signal}

/-- A batch does nothing to the machine but to step it. -/
theorem Runs.machine_eq (h : Runs m c steps next left outcome) : next = m.stepped steps := by
  induction h with
  | rests => rfl
  | proceeds due step others ih => exact ih
  | yields => rfl
  | fails => rfl

/-- Every step of a batch was due. -/
theorem Runs.due_after (h : Runs m c steps next left outcome) :
    ∀ j < steps, (c.after j).due = true := by
  induction h with
  | rests => exact nofun
  | @proceeds m next c left steps outcome due step others ih =>
    intro j hj
    cases j with
    | zero => exact due
    | succ j =>
      rw [Clock.after_succ]
      exact ih j (by omega)
  | yields due =>
    intro j hj
    obtain rfl : j = 0 := by omega
    exact due
  | fails due =>
    intro j hj
    obtain rfl : j = 0 := by omega
    exact due

/-- All steps of a batch but the last one ask to go on. -/
theorem Runs.proceeds_before (h : Runs m c steps next left outcome) :
    ∀ j, j + 1 < steps → (m.stepped j).step.outcome = .ok .proceed := by
  induction h with
  | rests => exact nofun
  | proceeds due step others ih =>
    intro j hj
    cases j with
    | zero => exact step
    | succ j => exact ih j (by omega)
  | yields => intro j hj; omega
  | fails => intro j hj; omega

/-- A batch whose last step requests something ends with this request and forgets what it has
saved up. -/
theorem Runs.of_request (h : Runs m c steps next left outcome) {j : Nat} {signal : Signal}
    (hlast : j + 1 = steps) (hstep : (m.stepped j).step.outcome = .ok signal)
    (hrequest : signal ≠ .proceed) : outcome = .ok signal ∧ left = ⟨c.period, 0⟩ := by
  induction h generalizing j with
  | rests => omega
  | @proceeds m next c left steps outcome due step others ih =>
    obtain rfl : j = steps := by omega
    cases j with
    | zero =>
      obtain rfl := Except.ok.inj (step.symm.trans hstep)
      exact absurd rfl hrequest
    | succ j => exact ih rfl hstep
  | yields due step request =>
    obtain rfl : j = 0 := by omega
    exact ⟨step.symm.trans hstep, rfl⟩
  | fails due step =>
    obtain rfl : j = 0 := by omega
    cases step.symm.trans hstep

/-- A batch whose last step fails ends with its fault; what that step cost was paid for. -/
theorem Runs.of_fault (h : Runs m c steps next left outcome) {j : Nat} {fault : Fault}
    (hlast : j + 1 = steps) (hstep : (m.stepped j).step.outcome = .error fault) :
    outcome = .error fault ∧ left = c.after steps := by
  induction h generalizing j with
  | rests => omega
  | @proceeds m next c left steps outcome due step others ih =>
    obtain rfl : j = steps := by omega
    cases j with
    | zero => cases step.symm.trans hstep
    | succ j =>
      rw [Clock.after_succ]
      exact ih rfl hstep
  | yields due step =>
    obtain rfl : j = 0 := by omega
    cases step.symm.trans hstep
  | fails due step =>
    obtain rfl : j = 0 := by omega
    exact ⟨step.symm.trans hstep, rfl⟩

/-- A batch whose last step, if there is one, asks to go on ends when no more is due. -/
theorem Runs.of_proceed (h : Runs m c steps next left outcome)
    (hlast : ∀ j, j + 1 = steps → (m.stepped j).step.outcome = .ok .proceed) :
    outcome = .ok .proceed ∧ left = c.after steps ∧ left.due = false := by
  induction h with
  | rests rest => exact ⟨rfl, rfl, rest⟩
  | proceeds due step others ih =>
    rw [Clock.after_succ]
    exact ih fun j hj => hlast (j + 1) (by omega)
  | yields due step request =>
    obtain rfl := Except.ok.inj (step.symm.trans (hlast 0 rfl))
    exact absurd rfl request
  | fails due step => cases step.symm.trans (hlast 0 rfl)

end Runs

end Batch

namespace Pacer

/-- The machine that step number `j` of an update finds, counting from zero. -/
def foundBy (p : Pacer) (u : Update) (j : Nat) : Machine :=
  p.machine.performAll (.replicate u.ticks .tick ++ .replicate j .step)

/-- What an update does with the elapsed time: all ticks that are due, then all steps that are
due, up to the first that does not ask to go on. -/
structure Paced (p : Pacer) (elapsed : Binary32) (u : Update) : Prop where
  /-- The machine has made the ticks and then the steps, and nothing else. -/
  machine : u.pacer.machine =
    p.machine.performAll (.replicate u.ticks .tick ++ .replicate u.steps .step)
  /-- Ticks are made as long as they are due. -/
  ticks : (p.timer.save elapsed).Drains u.ticks
  /-- The timer clock pays for the ticks, however the steps end. -/
  timer : u.pacer.timer = (p.timer.save elapsed).after u.ticks
  /-- Every step is due, after those before it were paid for. -/
  due : ∀ j < u.steps, ((p.cpu.save elapsed).after j).due = true
  /-- Every step but the last one asks to go on. -/
  proceeds : ∀ j, j + 1 < u.steps → (p.foundBy u j).step.outcome = .ok .proceed
  /-- If the last step requests something, the update answers that, and no time is left for
  steps. -/
  request : ∀ j signal, j + 1 = u.steps → (p.foundBy u j).step.outcome = .ok signal →
    signal ≠ .proceed → u.outcome = .ok signal ∧ u.pacer.cpu = ⟨p.cpu.period, 0⟩
  /-- If the last step fails, the update answers its fault, and all steps are paid for. -/
  fault : ∀ j fault, j + 1 = u.steps → (p.foundBy u j).step.outcome = .error fault →
    u.outcome = .error fault ∧ u.pacer.cpu = (p.cpu.save elapsed).after u.steps
  /-- If the last step asks to go on, or there is none, the update asks to go on, all steps
  are paid for, and neither a step nor a tick is due. -/
  rest : (∀ j, j + 1 = u.steps → (p.foundBy u j).step.outcome = .ok .proceed) →
    u.outcome = .ok .proceed ∧ u.pacer.cpu = (p.cpu.save elapsed).after u.steps ∧
      u.pacer.cpu.due = false ∧ u.pacer.timer.due = false
  /-- Where drawings end the frame, a step that draws is the last one. -/
  drawing : p.machine.dialect.drawEndsFrame = true → ∀ j < u.steps, ∀ x y height,
    (p.foundBy u j).completed .step = some (.draw x y height) → j + 1 = u.steps
  /-- A step that leaves the machine waiting for a key is the last one. -/
  awaiting : ∀ j < u.steps, (p.foundBy u j).step.machine.awaitsKey = true → j + 1 = u.steps

/-- An update that gives an answer consists of a drained timer clock and a batch of steps. -/
theorem parts_of_update {p : Pacer} {budget : Nat} {elapsed : Binary32} {u : Update}
    (h : p.update budget elapsed = some u) :
    (p.timer.save elapsed).Drains u.ticks ∧
      u.pacer.timer = (p.timer.save elapsed).after u.ticks ∧
      Batch.Runs (p.machine.performAll (.replicate u.ticks .tick)) (p.cpu.save elapsed) u.steps
        u.pacer.machine u.pacer.cpu u.outcome := by
  unfold update at h
  split at h
  · cases h
  · next timer ticks hpaid =>
    obtain ⟨count, -, hticks, rfl, hdrains⟩ := Clock.payAll_eq_some_iff.1 hpaid
    obtain rfl : ticks = count := by omega
    dsimp only at h
    split at h
    · cases h
    · next batch outcome hrun =>
      obtain ⟨steps, -, hsteps, hruns⟩ := Batch.runs_of_run hrun
      obtain rfl : batch.steps = steps := by rw [hsteps, Nat.zero_add]
      rw [Machine.repeat_tick] at hruns
      cases h
      exact ⟨hdrains, rfl, hruns⟩

/-- Every update that gives an answer paces its machine. -/
theorem paced_of_update {p : Pacer} {budget : Nat} {elapsed : Binary32} {u : Update}
    (h : p.update budget elapsed = some u) : p.Paced elapsed u := by
  obtain ⟨hdrains, htimer, hruns⟩ := parts_of_update h
  have hfound : ∀ j, p.foundBy u j =
      (p.machine.performAll (.replicate u.ticks .tick)).stepped j := fun j =>
    p.machine.performAll_append _ _
  have hproceeds : ∀ j, j + 1 < u.steps → (p.foundBy u j).step.outcome = .ok .proceed := by
    intro j hj
    rw [hfound]
    exact hruns.proceeds_before j hj
  have hlast : ∀ j < u.steps, (p.foundBy u j).step.outcome ≠ .ok .proceed → j + 1 = u.steps := by
    intro j hj hother
    by_contra hnot
    exact hother (hproceeds j (by omega))
  refine
    { machine := ?_, ticks := hdrains, timer := htimer, due := hruns.due_after,
      proceeds := hproceeds, request := ?_, fault := ?_, rest := ?_, drawing := ?_,
      awaiting := ?_ }
  · rw [hruns.machine_eq]
    exact (hfound u.steps).symm
  · intro j signal hj hstep hrequest
    rw [hfound] at hstep
    exact hruns.of_request hj hstep hrequest
  · intro j fault hj hstep
    rw [hfound] at hstep
    exact hruns.of_fault hj hstep
  · intro hstep
    have hstep' : ∀ j, j + 1 = u.steps →
        ((p.machine.performAll (.replicate u.ticks .tick)).stepped j).step.outcome =
          .ok .proceed := fun j hj => by rw [← hfound]; exact hstep j hj
    obtain ⟨hout, hcpu, hdue⟩ := hruns.of_proceed hstep'
    refine ⟨hout, hcpu, hdue, ?_⟩
    rw [htimer]
    exact hdrains.rest
  · intro hends j hj x y height hdraw
    refine hlast j hj ?_
    have hdialect : (p.foundBy u j).dialect.drawEndsFrame = true := by
      rw [foundBy, Machine.dialect_performAll]
      exact hends
    rw [Machine.outcome_of_completed_draw hdialect hdraw]
    exact nofun
  · intro j hj hawaits
    refine hlast j hj ?_
    rw [Machine.outcome_of_awaitsKey hawaits]
    exact nofun

/-- A pacer at 512 instructions and 64 ticks each second whose next instruction waits for a
key. -/
def atKeyWait : Pacer :=
  ⟨(Machine.create .modern (.ofSeed 0)).facing 0xF10A, ⟨1 / 512, 0⟩, ⟨1 / 64, 0⟩⟩

/-- In a quarter of a second it is paced, and then waits for a key. -/
theorem atKeyWait_paced : ∃ u, atKeyWait.update 16 (1 / 4) = some u ∧
    atKeyWait.Paced (1 / 4) u ∧ u.ticks = 16 ∧ u.steps = 1 := by
  have hcounts : (atKeyWait.update 16 (1 / 4)).map (fun u => (u.ticks, u.steps)) =
      some (16, 1) := by
    decide +kernel
  obtain ⟨u, hu, hcount⟩ := Option.map_eq_some_iff.1 hcounts
  obtain ⟨hticks, hsteps⟩ := Prod.mk.inj hcount
  exact ⟨u, hu, paced_of_update hu, hticks, hsteps⟩

end Pacer

end ChipEight
