import ChipEight.Proofs.Footprint
import ChipEight.Proofs.Plain.Simulation

/-!
# Sessions in plain words

When the random bytes to come are those of its own generator, a machine and its plain form go
through a session together: each operation leaves the plain form of what the machine becomes,
with the random bytes that are left, and answers the same.
-/

namespace ChipEight

namespace RandomStream

/-- The random bytes to come. -/
def bytes (r : RandomStream) : Nat → UInt8 := fun k => (word r.key (r.position + k)).toUInt8

/-- Taking a byte leaves those behind it. -/
theorem bytes_nextByte (r : RandomStream) : r.nextByte.2.bytes = fun k => r.bytes (k + 1) := by
  funext k
  have hposition : r.position + 1 + k = r.position + (k + 1) := by omega
  simp only [bytes, nextByte, hposition]

end RandomStream

namespace Plain

/-- The plain form of a machine with its own random bytes. -/
def withOwnBytes (m : ChipEight.Machine) : Machine := ofMachine m.random.bytes m

variable (m : ChipEight.Machine)

/-- Carrying out an instruction agrees. -/
theorem execute_withOwnBytes (place : Address) (instruction : ChipEight.Instruction) :
    (withOwnBytes m).execute place.toWord (ofInstruction instruction) =
      some (withOwnBytes (m.execute place instruction).machine,
        (m.execute place instruction).outcome) := by
  rw [withOwnBytes, execute_ofMachine]
  by_cases hrandom : ∃ x mask, instruction = .random x mask
  · obtain ⟨x, mask, rfl⟩ := hrandom
    have hleft : (m.execute place (.random x mask)).machine.random.bytes =
        left m.random.bytes (.random x mask) := m.random.bytes_nextByte
    rw [withOwnBytes, hleft]
    rfl
  · have hother : ∀ x mask, instruction ≠ .random x mask :=
      fun x mask h => hrandom ⟨x, mask, h⟩
    have hgiven : given (m.random.bytes 0) instruction = instruction := by
      cases instruction with
      | random x mask => exact absurd rfl (hother x mask)
      | _ => rfl
    have hleft : left m.random.bytes instruction = m.random.bytes := by
      cases instruction with
      | random x mask => exact absurd rfl (hother x mask)
      | _ => rfl
    rw [hgiven, hleft, withOwnBytes, ChipEight.Machine.random_execute hother]

/-- A step agrees. -/
theorem step_withOwnBytes :
    (withOwnBytes m).step = some (withOwnBytes m.step.machine, m.step.outcome) := by
  cases hwait : m.keyWait with
  | some wait =>
    obtain ⟨r, w, hpoll⟩ := m.poll_keyWait wait
    have hrandom : (m.poll wait).1.random = m.random := by rw [hpoll]
    have hstep : m.step = ⟨(m.poll wait).1, .ok (m.poll wait).2, []⟩ := by
      rw [ChipEight.Machine.step, hwait]
    rw [withOwnBytes, step_of_keyWait _ _ hwait, hstep, withOwnBytes, hrandom]
  | none =>
    have hstep : m.step = m.stepInstruction := by rw [ChipEight.Machine.step, hwait]
    have hexecute : (withOwnBytes m).execute m.pc.toWord (ofInstruction m.instruction) =
        some (withOwnBytes m.execution.machine, m.execution.outcome) :=
      execute_withOwnBytes m m.pc m.instruction
    rw [withOwnBytes, step_of_execute _ _ hwait hexecute, hstep, ChipEight.Machine.stepInstruction]
    cases m.execution.outcome with
    | ok signal => rfl
    | error fault =>
      have hback := setCounter_ofMachine m.execution.machine.random.bytes m.execution.machine
        m.pc.toWord
      exact congrArg (fun next => some (next, Except.error fault)) hback

/-- Every operation agrees. -/
theorem perform_withOwnBytes (operation : Operation) :
    (withOwnBytes m).perform operation =
      some (withOwnBytes (m.perform operation).machine, (m.perform operation).answer) := by
  by_cases hstep : operation = .step
  · subst hstep
    rw [Machine.perform, step_withOwnBytes]
    rfl
  · rw [withOwnBytes, perform_ofMachine _ _ hstep, withOwnBytes,
      ChipEight.Machine.random_perform hstep]

/-- A whole session agrees. -/
theorem performAll_withOwnBytes (session : List Operation) :
    (withOwnBytes m).performAll session = some (withOwnBytes (m.performAll session)) := by
  induction session generalizing m with
  | nil => rfl
  | cons first rest ih =>
    rw [Machine.performAll, List.foldlM_cons, perform_withOwnBytes]
    exact ih (m.perform first).machine

end Plain

end ChipEight
