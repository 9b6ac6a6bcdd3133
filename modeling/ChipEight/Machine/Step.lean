import ChipEight.Journal.Basic
import ChipEight.Machine.Execute

/-!
# Steps

One step asks whether a pending wait for a key is over, or else fetches the word at
the program counter, decodes it and carries it out. After a fault the program counter is
set back to the faulty instruction. Each fetched word is recorded, and so is each fault.
-/

namespace ChipEight

/-- What a step gives. -/
structure Step where
  /-- The machine after the step. -/
  machine : Machine
  /-- The request to whoever paces the machine, or the fault. -/
  outcome : Except Fault Signal
  /-- The records of the step, in order. -/
  log : List Record

namespace Machine

/-- The word at the program counter. -/
def fetch (m : Machine) : UInt16 := m.memory.readWord m.pc

/-- The instruction at the program counter. -/
def instruction (m : Machine) : Instruction := .decode m.fetch

/-- What carrying out the instruction at the program counter leaves. -/
def execution (m : Machine) : Execution := m.execute m.pc m.instruction

/-- Fetches, decodes and carries out one instruction. After a fault the program counter
goes back to where the word was fetched. -/
def stepInstruction (m : Machine) : Step :=
  let fetched := Record.fetched m.pc m.fetch
  let execution := m.execution
  match execution.outcome with
  | .ok signal => ⟨execution.machine, .ok signal, [fetched]⟩
  | .error fault =>
    ⟨execution.machine.setCounter m.pc.toWord, .error fault, [fetched, .faulted fault]⟩

/-- One step. -/
def step (m : Machine) : Step :=
  match m.keyWait with
  | some wait =>
    let (next, signal) := m.poll wait
    ⟨next, .ok signal, []⟩
  | none => m.stepInstruction

end Machine

end ChipEight
