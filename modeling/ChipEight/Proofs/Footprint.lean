import ChipEight.Proofs.Steps

/-!
# What instructions and loads can change

Apart from the registers an instruction changes at most one part of a machine. `Changed`
lists which instruction may change which part, `execute_changed` shows it of all of them,
and what a step leaves alone is read off from there. No instruction presses or releases a
key, and only calls and returns touch the stack. A load changes memory and registers.
-/

namespace ChipEight

namespace Machine

/-- How an instruction leaves a machine: apart from the registers it changes at most one
part, and which part that is depends on the instruction. -/
inductive Changed (m : Machine) : Instruction → Machine → Prop where
  | registers {i : Instruction} (r : Registers) : Changed m i { m with registers := r }
  | clearScreen (r : Registers) (s : Screen) :
      Changed m .clearScreen { m with registers := r, screen := s }
  | draw {x y height : Nibble} (r : Registers) (s : Screen) :
      Changed m (.draw x y height) { m with registers := r, screen := s }
  | ret (r : Registers) (s : CallStack) : Changed m .ret { m with registers := r, stack := s }
  | call {target : Address} (r : Registers) (s : CallStack) :
      Changed m (.call target) { m with registers := r, stack := s }
  | random {x : Nibble} {mask : UInt8} (r : Registers) (s : RandomStream) :
      Changed m (.random x mask) { m with registers := r, random := s }
  | awaitKey {x : Nibble} (r : Registers) (w : Option KeyWait) :
      Changed m (.awaitKey x) { m with registers := r, keyWait := w }
  | setDelay {x : Nibble} (r : Registers) (value : UInt8) :
      Changed m (.setDelay x) { m with registers := r, timers := { m.timers with delay := value } }
  | setSound {x : Nibble} (r : Registers) (value : UInt8) :
      Changed m (.setSound x) { m with registers := r, timers := { m.timers with sound := value } }
  | storeDecimal {x : Nibble} (r : Registers) (cells : Memory) :
      Changed m (.storeDecimal x) { m with registers := r, memory := cells }
  | storeRegisters {x : Nibble} (r : Registers) (cells : Memory) :
      Changed m (.storeRegisters x) { m with registers := r, memory := cells }

/-- Equal machines are changed alike. -/
theorem Changed.of_eq {m after next : Machine} {i : Instruction} (h : after = next)
    (hchanged : Changed m i next) : Changed m i after := h ▸ hchanged

/-- A skip changes nothing but registers. -/
theorem changed_skipIf (m : Machine) (condition : Bool) {i : Instruction} :
    Changed m i (m.advance.skipIf condition) := by
  cases condition
  · exact .registers m.registers.advance
  · exact .registers m.registers.advance.advance

/-- Arithmetic changes nothing but registers. -/
theorem combine_registers (m : Machine) (op : Alu) (x y : Nibble) :
    ∃ r, m.combine op x y = { m with registers := r } := by
  unfold combine
  dsimp only
  split
  · exact ⟨_, rfl⟩
  · exact ⟨_, rfl⟩

/-- Loading registers changes nothing else. -/
theorem loadBytes_registers (m : Machine) (x : Nibble) :
    ∃ r, m.loadBytes x = { m with registers := r } := ⟨_, rfl⟩

/-- The end of a transfer changes nothing but registers. -/
theorem finishTransfer_registers (m : Machine) (x : Nibble) :
    ∃ r, m.finishTransfer x = { m with registers := r } := by
  unfold finishTransfer
  split
  · exact ⟨_, rfl⟩
  · exact ⟨m.registers, rfl⟩

/-- Drawing changes nothing but the screen and registers. -/
theorem draw_screen (m : Machine) (x y height : Nibble) :
    ∃ r s, m.draw x y height = { m with registers := r, screen := s } := by
  unfold draw
  dsimp only
  split
  · exact ⟨_, _, rfl⟩
  · exact ⟨m.registers, _, rfl⟩

/-- A poll changes nothing but the wait and registers. -/
theorem poll_keyWait (m : Machine) (wait : KeyWait) :
    ∃ r w, (m.poll wait).1 = { m with registers := r, keyWait := w } := by
  unfold poll
  split
  · exact ⟨m.registers, _, rfl⟩
  · split
    · exact ⟨m.registers, m.keyWait, rfl⟩
    · exact ⟨_, _, rfl⟩

/-- Opening a call changes nothing but the stack and registers. -/
theorem call_stack (m : Machine) (place target : Address) :
    ∃ r s, (m.call place target).machine = { m with registers := r, stack := s } := by
  unfold call
  split
  · exact ⟨_, _, rfl⟩
  · exact ⟨m.registers, m.stack, rfl⟩

/-- Closing a call changes nothing but the stack and registers. -/
theorem ret_stack (m : Machine) (place : Address) :
    ∃ r s, (m.ret place).machine = { m with registers := r, stack := s } := by
  unfold ret
  split
  · exact ⟨_, _, rfl⟩
  · exact ⟨m.registers, m.stack, rfl⟩

/-- What an instruction can change. -/
theorem execute_changed (m : Machine) (place : Address) (instruction : Instruction) :
    Changed m instruction (m.execute place instruction).machine := by
  cases instruction with
  | clearScreen => exact .clearScreen _ _
  | ret =>
    obtain ⟨r, s, h⟩ := m.advance.ret_stack place
    exact .of_eq h (.ret r s)
  | call target =>
    obtain ⟨r, s, h⟩ := m.advance.call_stack place target
    exact .of_eq h (.call r s)
  | draw x y height =>
    obtain ⟨r, s, h⟩ := m.advance.draw_screen x y height
    exact .of_eq h (.draw r s)
  | awaitKey x =>
    obtain ⟨r, w, h⟩ := m.advance.poll_keyWait ⟨x, none⟩
    exact .of_eq h (.awaitKey r w)
  | random x mask => exact .random _ _
  | setDelay x => exact .setDelay _ _
  | setSound x => exact .setSound _ _
  | storeDecimal x => exact .storeDecimal _ _
  | storeRegisters x =>
    obtain ⟨r, h⟩ := finishTransfer_registers
      (m.advance.storeBytes (m.registers.v.toList.take (x.val + 1))) x
    exact .of_eq h (.storeRegisters r _)
  | loadRegisters x =>
    obtain ⟨loaded, hload⟩ := m.advance.loadBytes_registers x
    obtain ⟨r, h⟩ := finishTransfer_registers { m.advance with registers := loaded } x
    exact .of_eq ((congrArg (·.finishTransfer x) hload).trans h) (.registers r)
  | combine op x y =>
    obtain ⟨r, h⟩ := m.advance.combine_registers op x y
    exact .of_eq h (.registers r)
  | skipIfByte x byte => exact changed_skipIf m (m.v x == byte)
  | skipUnlessByte x byte => exact changed_skipIf m (m.v x != byte)
  | skipIfSame x y => exact changed_skipIf m (m.v x == m.v y)
  | skipUnlessSame x y => exact changed_skipIf m (m.v x != m.v y)
  | skipIfHeld x => exact changed_skipIf m (m.keypad.holds (.ofByte (m.v x)))
  | skipUnlessHeld x => exact changed_skipIf m (!m.keypad.holds (.ofByte (m.v x)))
  | _ => exact .registers _

/-- No instruction presses or releases a key. -/
theorem keypad_execute (m : Machine) (place : Address) (instruction : Instruction) :
    (m.execute place instruction).machine.keypad = m.keypad := by
  have h := m.execute_changed place instruction
  generalize (m.execute place instruction).machine = after at h ⊢
  cases h <;> rfl

/-- Only calls and returns touch the stack. -/
theorem stack_execute {m : Machine} {place : Address} {instruction : Instruction}
    (hcall : ∀ target, instruction ≠ .call target) (hret : instruction ≠ .ret) :
    (m.execute place instruction).machine.stack = m.stack := by
  have h := m.execute_changed place instruction
  generalize (m.execute place instruction).machine = after at h ⊢
  cases h with
  | call => exact absurd rfl (hcall _)
  | ret => exact absurd rfl hret
  | _ => rfl

/-- Only `FX0A` begins or ends a wait. -/
theorem keyWait_execute {m : Machine} {place : Address} {instruction : Instruction}
    (hawait : ∀ x, instruction ≠ .awaitKey x) :
    (m.execute place instruction).machine.keyWait = m.keyWait := by
  have h := m.execute_changed place instruction
  generalize (m.execute place instruction).machine = after at h ⊢
  cases h with
  | awaitKey => exact absurd rfl (hawait _)
  | _ => rfl

/-- No step presses or releases a key. -/
theorem keypad_step (m : Machine) : m.step.machine.keypad = m.keypad := by
  obtain ⟨wait, -, hstep⟩ | ⟨-, signal, -, hstep⟩ | ⟨-, fault, -, hstep⟩ := m.step_cases
  · obtain ⟨r, w, hpoll⟩ := m.poll_keyWait wait
    rw [hstep, hpoll]
  · rw [hstep]
    exact m.keypad_execute m.pc m.instruction
  · rw [hstep]

/-- A poll does not touch the stack. -/
theorem stack_poll (m : Machine) (wait : KeyWait) : (m.poll wait).1.stack = m.stack := by
  obtain ⟨r, w, hpoll⟩ := m.poll_keyWait wait
  rw [hpoll]

/-- Loading a program changes nothing but memory and registers. -/
theorem load_memory (m : Machine) (program : List UInt8) :
    ∃ cells r, (m.perform (.load program)).machine =
      { m with memory := cells, registers := r } := by
  simp only [perform, load]
  cases m.memory.load program with
  | ok cells => exact ⟨cells, _, rfl⟩
  | error fault => exact ⟨m.memory, m.registers, rfl⟩

/-- Loading a program from a file changes nothing but memory and registers. -/
theorem loadFile_memory (m : Machine) (path : String) (content : Option (List UInt8)) :
    ∃ cells r, (m.perform (.loadFile path content)).machine =
      { m with memory := cells, registers := r } := by
  cases content with
  | none => exact ⟨m.memory, m.registers, rfl⟩
  | some program => exact m.load_memory program

/-- Only `CXNN` takes random bytes. -/
theorem random_execute {m : Machine} {place : Address} {instruction : Instruction}
    (hrandom : ∀ x mask, instruction ≠ .random x mask) :
    (m.execute place instruction).machine.random = m.random := by
  have h := m.execute_changed place instruction
  generalize (m.execute place instruction).machine = after at h ⊢
  cases h with
  | random => exact absurd rfl (hrandom _ _)
  | _ => rfl

/-- No operation but a step takes random bytes. -/
theorem random_perform {m : Machine} {operation : Operation} (h : operation ≠ .step) :
    (m.perform operation).machine.random = m.random := by
  cases operation with
  | load program =>
    obtain ⟨cells, r, hload⟩ := m.load_memory program
    rw [hload]
  | loadFile path content =>
    obtain ⟨cells, r, hload⟩ := m.loadFile_memory path content
    rw [hload]
  | step => exact absurd rfl h
  | _ => rfl

/-- No instruction changes the dialect. -/
theorem dialect_execute (m : Machine) (place : Address) (instruction : Instruction) :
    (m.execute place instruction).machine.dialect = m.dialect := by
  have h := m.execute_changed place instruction
  generalize (m.execute place instruction).machine = after at h ⊢
  cases h <;> rfl

/-- No step changes the dialect. -/
theorem dialect_step (m : Machine) : m.step.machine.dialect = m.dialect := by
  obtain ⟨wait, -, hstep⟩ | ⟨-, signal, -, hstep⟩ | ⟨-, fault, -, hstep⟩ := m.step_cases
  · obtain ⟨r, w, hpoll⟩ := m.poll_keyWait wait
    rw [hstep, hpoll]
  · rw [hstep]
    exact m.dialect_execute m.pc m.instruction
  · rw [hstep]

/-- No operation changes the dialect. -/
theorem dialect_perform (m : Machine) (operation : Operation) :
    (m.perform operation).machine.dialect = m.dialect := by
  cases operation with
  | load program =>
    obtain ⟨cells, r, h⟩ := m.load_memory program
    rw [h]
  | loadFile path content =>
    obtain ⟨cells, r, h⟩ := m.loadFile_memory path content
    rw [h]
  | step => exact m.dialect_step
  | _ => rfl

/-- No session changes the dialect. -/
theorem dialect_performAll (m : Machine) (session : List Operation) :
    (m.performAll session).dialect = m.dialect := by
  induction session generalizing m with
  | nil => rfl
  | cons first rest ih => rw [performAll_cons, ih, dialect_perform]

end Machine

end ChipEight
