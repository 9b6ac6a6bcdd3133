import ChipEight.Machine.Operation
import ChipEight.Proofs.Programs

/-!
# What a step does

A step polls a pending wait, carries out the instruction at the program counter, or
fails. `step_cases` tells these three apart once, so that what holds of every step is
shown for polls and for instructions and needs no further look at the step itself. A
failing instruction gives up before it has changed anything but the program counter,
which is then set back: the machine is as it was.
-/

namespace ChipEight

namespace Machine

/-- Setting the program counter back after moving past one instruction restores the
machine: the address survives being held as a word. -/
theorem setCounter_advance (m : Machine) : m.advance.setCounter m.pc.toWord = m := by
  have hpc : Address.ofWord m.pc.toWord = m.pc := Address.ofWord_toWord m.pc
  simp only [setCounter, Registers.setCounter, hpc]
  rfl

/-- A return that fails has popped nothing. -/
theorem machine_of_ret_error {m : Machine} {place : Address} {fault : Fault}
    (h : (m.ret place).outcome = .error fault) : (m.ret place).machine = m := by
  unfold ret at h ⊢
  cases hpop : m.stack.pop with
  | none => rfl
  | some popped =>
    rw [hpop] at h
    cases h

/-- A call that fails has pushed nothing. -/
theorem machine_of_call_error {m : Machine} {place target : Address} {fault : Fault}
    (h : (m.call place target).outcome = .error fault) : (m.call place target).machine = m := by
  unfold call at h ⊢
  cases hpush : m.stack.push m.pc with
  | none => rfl
  | some pushed =>
    rw [hpush] at h
    cases h

/-- An instruction that fails has only moved the program counter on. Three instructions
can fail; each finds out before it changes anything. -/
theorem machine_of_execute_error {m : Machine} {place : Address} {instruction : Instruction}
    {fault : Fault} (h : (m.execute place instruction).outcome = .error fault) :
    (m.execute place instruction).machine = m.advance := by
  cases instruction with
  | ret => exact machine_of_ret_error h
  | call target => exact machine_of_call_error h
  | unassigned word => rfl
  | _ => cases h

/-- A step that polls a pending wait. -/
theorem step_of_keyWait {m : Machine} {wait : KeyWait} (h : m.keyWait = some wait) :
    m.step = ⟨(m.poll wait).1, .ok (m.poll wait).2, []⟩ := by
  unfold step
  rw [h]

/-- A step whose instruction is carried out. -/
theorem step_of_execution_ok {m : Machine} {signal : Signal} (hwait : m.keyWait = none)
    (h : m.execution.outcome = .ok signal) :
    m.step = ⟨m.execution.machine, .ok signal, [.fetched m.pc m.fetch]⟩ := by
  unfold step stepInstruction
  rw [hwait]
  simp only [h]

/-- A step that carries out an instruction without a fault. -/
theorem step_of_instruction {m : Machine} {instruction : Instruction} {signal : Signal}
    (hready : m.keyWait = none) (hinstruction : m.instruction = instruction)
    (hout : (m.execute m.pc instruction).outcome = .ok signal) :
    m.step.outcome = .ok signal ∧ m.step.machine = (m.execute m.pc instruction).machine := by
  subst hinstruction
  rw [step_of_execution_ok hready hout]
  exact ⟨rfl, rfl⟩

/-- A step whose instruction fails. -/
theorem step_of_execution_error {m : Machine} {fault : Fault} (hwait : m.keyWait = none)
    (h : m.execution.outcome = .error fault) :
    m.step = ⟨m, .error fault, [.fetched m.pc m.fetch, .faulted fault]⟩ := by
  have hmachine : m.execution.machine = m.advance := machine_of_execute_error h
  unfold step stepInstruction
  rw [hwait]
  simp only [h, hmachine, setCounter_advance]

/-- The three things that a step can be. -/
theorem step_cases (m : Machine) :
    (∃ wait, m.keyWait = some wait ∧ m.step = ⟨(m.poll wait).1, .ok (m.poll wait).2, []⟩) ∨
    (m.keyWait = none ∧ ∃ signal, m.execution.outcome = .ok signal ∧
      m.step = ⟨m.execution.machine, .ok signal, [.fetched m.pc m.fetch]⟩) ∨
    (m.keyWait = none ∧ ∃ fault, m.execution.outcome = .error fault ∧
      m.step = ⟨m, .error fault, [.fetched m.pc m.fetch, .faulted fault]⟩) := by
  cases hwait : m.keyWait with
  | some wait => exact .inl ⟨wait, rfl, step_of_keyWait hwait⟩
  | none =>
    cases hout : m.execution.outcome with
    | ok signal => exact .inr (.inl ⟨rfl, signal, rfl, step_of_execution_ok hwait hout⟩)
    | error fault => exact .inr (.inr ⟨rfl, fault, rfl, step_of_execution_error hwait hout⟩)

/-- The instruction that an operation carries out without a fault, if it carries out one. -/
def completed (m : Machine) (operation : Operation) : Option Instruction :=
  match operation, m.keyWait, m.step.outcome with
  | .step, none, .ok _ => some m.instruction
  | _, _, _ => none

/-- The instructions that a session carries out without a fault, in order. -/
def completedIn (m : Machine) : List Operation → List Instruction
  | [] => []
  | first :: rest => (m.completed first).toList ++ (m.perform first).machine.completedIn rest

/-- Only a step that polls nothing and does not fail completes an instruction, namely the
one at the program counter. -/
theorem completed_eq_some_iff {m : Machine} {operation : Operation} {i : Instruction} :
    m.completed operation = some i ↔ operation = .step ∧ m.keyWait = none ∧
      m.instruction = i ∧ ∃ signal, m.execution.outcome = .ok signal := by
  constructor
  · intro h
    unfold completed at h
    split at h
    · next signal hwait hstep =>
      refine ⟨rfl, hwait, Option.some.inj h, ?_⟩
      cases hout : m.execution.outcome with
      | ok signal => exact ⟨signal, rfl⟩
      | error fault =>
        rw [step_of_execution_error hwait hout] at hstep
        cases hstep
    · cases h
  · rintro ⟨rfl, hwait, rfl, signal, hout⟩
    simp only [completed, hwait, step_of_execution_ok hwait hout]

/-- A completed instruction leaves the machine as carrying it out leaves it. -/
theorem machine_of_completed {m : Machine} {operation : Operation} {i : Instruction}
    (h : m.completed operation = some i) :
    (m.perform operation).machine = (m.execute m.pc i).machine := by
  obtain ⟨rfl, hwait, rfl, signal, hout⟩ := completed_eq_some_iff.1 h
  change m.step.machine = m.execution.machine
  rw [step_of_execution_ok hwait hout]

/-- A step that completes an instruction leaves the machine as carrying it out leaves it. -/
theorem step_machine_of_completed {m : Machine} {i : Instruction}
    (h : m.completed .step = some i) : m.step.machine = (m.execute m.pc i).machine :=
  machine_of_completed h

/-- A step that fails changes no part of the machine: not memory, registers, timers, screen,
keypad, wait, dialect or random stream, and no slot of the stack, be it in use or not. It
does not matter how the machine came about. -/
theorem machine_of_faulty_step {m : Machine} {fault : Fault}
    (h : m.step.outcome = .error fault) : m.step.machine = m := by
  obtain ⟨wait, -, hstep⟩ | ⟨-, signal, -, hstep⟩ | ⟨-, other, -, hstep⟩ := m.step_cases
  · rw [hstep] at h
    cases h
  · rw [hstep] at h
    cases h
  · rw [hstep]

/-- A machine with sixteen open calls. -/
def withSixteenCalls : Machine :=
  { create .modern (.ofSeed 0) with stack := ⟨.replicate 16 .zero, 16, by decide⟩ }

/-- The seventeenth call fails, and the machine is as it was. -/
theorem machine_of_seventeenth_call :
    (withSixteenCalls.facing 0x2345).step.outcome = .error (.stackOverflow 0x200) ∧
      (withSixteenCalls.facing 0x2345).step.machine = withSixteenCalls.facing 0x2345 := by
  have hcall : (withSixteenCalls.facing 0x2345).instruction = .call ⟨0x345, by decide⟩ :=
    withSixteenCalls.instruction_facing 0x2345
  have hout : (withSixteenCalls.facing 0x2345).execution.outcome =
      .error (.stackOverflow 0x200) := by
    rw [execution, hcall]
    rfl
  have hfault : (withSixteenCalls.facing 0x2345).step.outcome =
      .error (.stackOverflow 0x200) := by
    rw [step_of_execution_error rfl hout]
  exact ⟨hfault, machine_of_faulty_step hfault⟩

end Machine

end ChipEight
