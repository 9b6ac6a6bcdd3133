import ChipEight.Proofs.Adjustments
import ChipEight.Proofs.Stalling

/-!
# After a fault

A fault is final. The step that fails leaves the machine as it is, so the next one fails in the
same way; ticks and key changes do not help, since no step that fails looks at the timers or the
keypad. Whatever time is left on the clocks or elapses later, an update of such a machine makes
no step at all or exactly one, which fails once more. A host can only end this by changing
memory or registers.
-/

namespace ChipEight

namespace Machine

/-- A machine that has come to a halt: its next step fails, and it is in everything but the
timers and the keypad the machine that failed first. -/
structure Halted (stopped : Machine) (fault : Fault) (m : Machine) : Prop where
  /-- The next step fails. -/
  fails : m.step.outcome = .error fault
  /-- Nothing has changed but the timers and the keypad. -/
  same : m = { stopped with timers := m.timers, keypad := m.keypad }

section Halted

variable {stopped m : Machine} {fault : Fault}

/-- A step that fails records the word and the fault and changes nothing. -/
theorem step_eq_of_fault (h : m.step.outcome = .error fault) :
    m.step = ⟨m, .error fault, [.fetched m.pc m.fetch, .faulted fault]⟩ := by
  obtain ⟨wait, -, hstep⟩ | ⟨-, signal, -, hstep⟩ | ⟨-, other, -, hstep⟩ := m.step_cases
  · rw [hstep] at h
    cases h
  · rw [hstep] at h
    cases h
  · rw [hstep] at h
    cases h
    exact hstep

/-- The machine that fails first has come to a halt. -/
theorem halted_of_fault (h : m.step.outcome = .error fault) : Halted m fault m := ⟨h, rfl⟩

/-- No instruction takes effect on a machine that has come to a halt. -/
theorem Halted.completed (h : Halted stopped fault m) (operation : Operation) :
    m.completed operation = none := by
  refine Option.eq_none_iff_forall_ne_some.2 fun i hi => ?_
  obtain ⟨-, hready, -, signal, hout⟩ := completed_eq_some_iff.1 hi
  have hfails := h.fails
  rw [step_of_execution_ok hready hout] at hfails
  cases hfails

/-- A machine that has come to a halt stays so, whatever a host that plays does to it. -/
theorem Halted.perform (h : Halted stopped fault m) {operation : Operation}
    (hplays : operation.plays = true) : Halted stopped fault (m.perform operation).machine := by
  cases operation with
  | step =>
    have hsame : (m.perform .step).machine = m := congrArg Step.machine (step_eq_of_fault h.fails)
    rw [hsame]
    exact h
  | tick => exact ⟨step_adjust_of_fault { timers := Timers.tick } h.fails, congrArg tick h.same⟩
  | setKey key pressed =>
    exact ⟨step_adjust_of_fault { keypad := (·.set key pressed) } h.fails,
      congrArg (setKey · key pressed) h.same⟩
  | _ => cases hplays

/-- A machine that has come to a halt stays so in every session of a host that plays. -/
theorem Halted.performAll (h : Halted stopped fault m) {session : List Operation}
    (hplays : ∀ operation ∈ session, operation.plays = true) :
    Halted stopped fault (m.performAll session) := by
  induction session generalizing m with
  | nil => exact h
  | cons first rest ih =>
    exact ih (h.perform (hplays first List.mem_cons_self))
      fun operation hmem => hplays operation (List.mem_cons_of_mem _ hmem)

/-- Ticks do not set a machine going again. -/
theorem Halted.ticks (h : Halted stopped fault m) (ticks : Nat) :
    Halted stopped fault (m.performAll (.replicate ticks .tick)) := by
  refine h.performAll fun operation hmem => ?_
  rw [List.eq_of_mem_replicate hmem]
  rfl

end Halted

end Machine

namespace Batch

section Runs

variable {m next : Machine} {c left : Clock} {steps : Nat} {outcome : Except Fault Signal}
  {fault : Fault}

/-- A batch that ends with a fault leaves a machine that fails in the same way. -/
theorem Runs.step_of_error (h : Runs m c steps next left outcome)
    (hfault : outcome = .error fault) : next.step.outcome = .error fault := by
  induction h with
  | rests => cases hfault
  | proceeds due step others ih => exact ih hfault
  | yields => cases hfault
  | fails due step =>
    cases hfault
    rw [Machine.step_eq_of_fault step]
    exact step

/-- A batch on a machine whose step fails consists of this step, if it is due. -/
theorem Runs.of_halted (h : Runs m c steps next left outcome)
    (hfault : m.step.outcome = .error fault) :
    next = m ∧
      (c.due = true → steps = 1 ∧ outcome = .error fault ∧ left = c.pay) ∧
      (c.due = false → steps = 0 ∧ outcome = .ok .proceed ∧ left = c) := by
  cases h with
  | rests rest =>
    refine ⟨rfl, fun due => ?_, fun _ => ⟨rfl, rfl, rfl⟩⟩
    cases rest.symm.trans due
  | proceeds due step others => cases step.symm.trans hfault
  | yields due step request => cases step.symm.trans hfault
  | fails due step =>
    cases step.symm.trans hfault
    refine ⟨?_, fun _ => ⟨rfl, rfl, rfl⟩, fun rest => ?_⟩
    · rw [Machine.step_eq_of_fault step]
    · cases rest.symm.trans due

end Runs

end Batch

namespace Pacer

/-- A pacer comes out of another one while its program is played: time elapses, and the host
makes steps, ticks, and presses and releases keys. -/
inductive Follows (first : Pacer) : Pacer → Prop where
  /-- Nothing has happened yet. -/
  | refl : Follows first first
  /-- Time elapses, and the update comes to an end. -/
  | update {p : Pacer} {budget : Nat} {elapsed : Binary32} {u : Update} (h : Follows first p)
    (hupdate : p.update budget elapsed = some u) : Follows first u.pacer
  /-- The host plays. -/
  | perform {p : Pacer} (operation : Operation) (h : Follows first p)
    (hplays : operation.plays = true) : Follows first (p.perform operation).1

/-- An update of a pacer whose machine has come to a halt does nothing but tick, and makes one
more step if one is due, which fails. -/
structure Refused (p : Pacer) (elapsed : Binary32) (fault : Fault) (u : Update) : Prop where
  /-- The machine has ticked. -/
  machine : u.pacer.machine = p.machine.performAll (.replicate u.ticks .tick)
  /-- If a step is due, one is made and paid for, and it fails. -/
  due : (p.cpu.save elapsed).due = true →
    u.steps = 1 ∧ u.outcome = .error fault ∧ u.pacer.cpu = (p.cpu.save elapsed).pay
  /-- If no step is due, none is made. -/
  rest : (p.cpu.save elapsed).due = false →
    u.steps = 0 ∧ u.outcome = .ok .proceed ∧ u.pacer.cpu = p.cpu.save elapsed

section Halted

variable {p : Pacer} {stopped : Machine} {fault : Fault}

/-- Every update of a machine that has come to a halt is refused. -/
theorem refused_of_halted (h : stopped.Halted fault p.machine) {budget : Nat}
    {elapsed : Binary32} {u : Update} (hupdate : p.update budget elapsed = some u) :
    p.Refused elapsed fault u := by
  obtain ⟨-, -, hruns⟩ := parts_of_update hupdate
  obtain ⟨hmachine, hdue, hrest⟩ := hruns.of_halted (h.ticks u.ticks).fails
  exact ⟨hmachine, hdue, hrest⟩

/-- A machine that has come to a halt cannot keep an update from returning. Only the timer
clock can. -/
theorem returns_iff_drains_of_halted (h : stopped.Halted fault p.machine) (elapsed : Binary32) :
    p.Returns elapsed ↔ ∃ ticks, (p.timer.save elapsed).Drains ticks := by
  constructor
  · rintro ⟨budget, u, hupdate⟩
    exact ⟨u.ticks, (parts_of_update hupdate).1⟩
  · rintro ⟨ticks, hdrains⟩
    have hfirst : ((p.machine.performAll (.replicate ticks .tick)).stepped 0).step.outcome ≠
        .ok .proceed := by
      intro hproceed
      cases (h.ticks ticks).fails.symm.trans hproceed
    obtain ⟨steps, next, left, outcome, hruns⟩ :=
      Batch.exists_runs (c := p.cpu.save elapsed) (fun j hj => absurd hj (Nat.not_lt_zero j))
        (.inr hfirst)
    exact returns_of_parts hdrains hruns

/-- A machine that has come to a halt stays so while its program is played. -/
theorem Follows.halted {q : Pacer} (hfollows : Follows p q)
    (h : stopped.Halted fault p.machine) : stopped.Halted fault q.machine := by
  induction hfollows with
  | refl => exact h
  | update _ hupdate ih =>
    rw [(refused_of_halted ih hupdate).machine]
    exact ih.ticks _
  | perform operation _ hplays ih => exact ih.perform hplays

end Halted

/-- A fault is final. After an update that has answered it, let time elapse and let the host
make steps, ticks and key changes as it likes: all that has changed in the machine are timers
and keypad, and no instruction takes effect. A step fails in the same way and leaves everything
as it is. An update returns unless the timer clock stalls; it ticks, and answers the fault again
if a step is due, and otherwise makes no step. -/
theorem faults_are_final {p : Pacer} {budget : Nat} {elapsed : Binary32} {u : Update}
    {fault : Fault} (hupdate : p.update budget elapsed = some u)
    (hfault : u.outcome = .error fault) {q : Pacer} (hfollows : Follows u.pacer q) :
    q.machine = { u.pacer.machine with
      timers := q.machine.timers
      keypad := q.machine.keypad } ∧
    (∀ operation, q.machine.completed operation = none) ∧
    q.perform .step =
      (q, .stepped (.error fault),
        [.fetched q.machine.pc q.machine.fetch, .faulted fault]) ∧
    (∀ later, q.Returns later ↔ ∃ ticks, (q.timer.save later).Drains ticks) ∧
    (∀ others later w, q.update others later = some w → q.Refused later fault w) := by
  obtain ⟨-, -, hruns⟩ := parts_of_update hupdate
  have hstopped : u.pacer.machine.Halted fault u.pacer.machine :=
    Machine.halted_of_fault (hruns.step_of_error hfault)
  have hhalted : u.pacer.machine.Halted fault q.machine := hfollows.halted hstopped
  refine ⟨hhalted.same, hhalted.completed, ?_, returns_iff_drains_of_halted hhalted, ?_⟩
  · simp only [perform, Machine.perform, Machine.step_eq_of_fault hhalted.fails]
  · exact fun others later w hw => refused_of_halted hhalted hw

/-- A pacer at 512 instructions and 64 ticks each second whose next word means nothing. -/
def atNothing : Pacer :=
  ⟨(Machine.create .modern (.ofSeed 0)).facing 0xFFFF, ⟨1 / 512, 0⟩, ⟨1 / 64, 0⟩⟩

/-- What is left of a quarter of a second is enough for another step, even if no time elapses
and a key is pressed. This step fails again. -/
theorem atNothing_fails_again : ∃ u w fault, atNothing.update 16 (1 / 4) = some u ∧
    u.outcome = .error fault ∧
    (u.pacer.perform (.setKey (.ofNat 5) true)).1.update 16 0 = some w ∧
    w.steps = 1 ∧ w.outcome = .error fault := by
  have hcounts : ((atNothing.update 16 (1 / 4)).bind fun u =>
      ((u.pacer.perform (.setKey (.ofNat 5) true)).1.update 16 0).map fun w =>
        (u.outcome.isOk, w.steps)) = some (false, 1) := by
    decide +kernel
  obtain ⟨u, hu, hlater⟩ := Option.bind_eq_some_iff.1 hcounts
  obtain ⟨w, hw, hcount⟩ := Option.map_eq_some_iff.1 hlater
  obtain ⟨hfails, hsteps⟩ := Prod.mk.inj hcount
  cases hout : u.outcome with
  | ok signal =>
    rw [hout] at hfails
    cases hfails
  | error fault =>
    have hfollows : Follows u.pacer (u.pacer.perform (.setKey (.ofNat 5) true)).1 :=
      .perform (.setKey (.ofNat 5) true) .refl rfl
    obtain ⟨-, -, -, -, hrefused⟩ := faults_are_final hu hout hfollows
    have hrefuses := hrefused 16 0 w hw
    cases hdue : ((u.pacer.perform (.setKey (.ofNat 5) true)).1.cpu.save 0).due with
    | false =>
      rw [(hrefuses.rest hdue).1] at hsteps
      cases hsteps
    | true => exact ⟨u, w, fault, hu, hout, hw, hsteps, (hrefuses.due hdue).2.1⟩

end Pacer

end ChipEight
