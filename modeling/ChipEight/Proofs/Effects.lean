import ChipEight.Proofs.Adjustments
import ChipEight.Proofs.Outcomes

/-!
# What a step leaves alone

Which parts of a machine a step can change is a matter of the form of the word at the program
counter: `Confined` lists for each part the forms that can change it, and for each register
those that can write it. A step that polls a pending wait changes nothing but the wait and, when
it delivers a key, the register that waits for it; a step that fails changes nothing at all. The
table speaks of words as they lie in memory, so it holds whatever instructions are called once
they are decoded. It says what can change, not what does: a register may be given the value that
it has.
-/

namespace ChipEight

/-- Whether an operation on two registers writes the flag, besides the first of them. -/
def Alu.setsFlag (d : Dialect) : Alu → Bool
  | copy => false
  | or | and | xor => d.logicClearsFlag
  | add | sub | shiftRight | subFrom | shiftLeft => true

/-- An operation gives a byte for the flag register just if it writes the flag. -/
theorem Alu.isSome_flag_apply (op : Alu) (d : Dialect) (a b : UInt8) :
    (op.apply d a b).flag.isSome = op.setsFlag d := by
  have hlogic : (if d.logicClearsFlag then some (0 : UInt8) else none).isSome =
      d.logicClearsFlag := by
    cases d.logicClearsFlag <;> rfl
  cases op with
  | or => exact hlogic
  | and => exact hlogic
  | xor => exact hlogic
  | _ => rfl

namespace Instruction

/-- Whether an instruction moves the index register. -/
def movesIndex (d : Dialect) : Instruction → Bool
  | setIndex _ | addToIndex _ | pointAtGlyph _ => true
  | storeRegisters _ | loadRegisters _ => d.transferMovesIndex
  | _ => false

/-- The instruction can write register `j`. -/
def Writes (d : Dialect) (j : Nibble) : Instruction → Prop
  | setByte x _ | addByte x _ | random x _ | readDelay x => j = x
  | combine op x _ => j = x ∨ op.setsFlag d = true ∧ j = Registers.flag
  | draw _ _ _ => j = Registers.flag
  | loadRegisters x => j ≤ x
  | _ => False

/-- The register that an instruction is told to write, or to write up to. -/
def destination? : Instruction → Option Nibble
  | setByte x _ | addByte x _ | combine _ x _ | random x _ | readDelay x | loadRegisters x => some x
  | _ => none

/-- The destination of an instruction is the second digit of its word. -/
theorem destination?_decode {word : UInt16} {x : Nibble}
    (h : (decode word).destination? = some x) : x = (Fields.ofWord word).x := by
  unfold decode at h
  dsimp only at h
  split at h
  case h_1 =>
    split at h
    · cases h
    · split at h <;> cases h
  case h_6 => split at h <;> cases h
  case h_7 => exact (Option.some.inj h).symm
  case h_8 => exact (Option.some.inj h).symm
  case h_9 =>
    unfold decodeCombine at h
    split at h
    · exact (Option.some.inj h).symm
    · cases h
  case h_10 => split at h <;> cases h
  case h_13 => exact (Option.some.inj h).symm
  case h_15 =>
    split at h
    · cases h
    · split at h <;> cases h
  case h_16 =>
    unfold decodeMiscellaneous at h
    split at h
    case h_1 => exact (Option.some.inj h).symm
    case h_9 => exact (Option.some.inj h).symm
    all_goals cases h
  all_goals cases h

end Instruction

namespace Machine

section registers

variable (m : Machine)

/-- A register that is not stored to keeps its byte. -/
theorem v_setV_of_ne {x j : Nibble} (h : j ≠ x) (value : UInt8) :
    (m.setV x value).v j = m.v j := by
  rw [v_setV, if_neg h.symm]

/-- A skip stores nothing and leaves the index register. -/
theorem registers_skipIf (condition : Bool) :
    (m.skipIf condition).registers.v = m.registers.v ∧
      (m.skipIf condition).registers.i = m.registers.i := by
  cases condition
  · exact ⟨rfl, rfl⟩
  · exact ⟨rfl, rfl⟩

/-- Arithmetic leaves the index register. -/
theorem i_combine (op : Alu) (x y : Nibble) : (m.combine op x y).i = m.i := by
  unfold combine
  dsimp only
  split
  · rfl
  · rfl

/-- Arithmetic stores to its first register and, for some operations, to the flag. -/
theorem v_combine {op : Alu} {x y j : Nibble} (hx : j ≠ x)
    (hflag : op.setsFlag m.dialect = true → j ≠ Registers.flag) :
    (m.combine op x y).v j = m.v j := by
  have hsets := op.isSome_flag_apply m.dialect (m.v x) (m.v y)
  unfold combine
  dsimp only
  split
  · next flag hgiven =>
    rw [hgiven, Option.isSome_some] at hsets
    rw [v_setV_of_ne _ (hflag hsets.symm), v_setV_of_ne _ hx]
  · rw [v_setV_of_ne _ hx]

/-- Drawing leaves the index register. -/
theorem i_draw (x y height : Nibble) : (m.draw x y height).i = m.i := by
  unfold draw
  dsimp only
  split
  · rfl
  · rfl

/-- Drawing stores to the flag at most. -/
theorem v_draw {j : Nibble} (x y height : Nibble) (h : j ≠ Registers.flag) :
    (m.draw x y height).v j = m.v j := by
  unfold draw
  dsimp only
  split
  · exact v_setV_of_ne _ h _
  · rfl

/-- Opening a call stores nothing and leaves the index register. -/
theorem registers_call (place target : Address) :
    (m.call place target).machine.registers.v = m.registers.v ∧
      (m.call place target).machine.registers.i = m.registers.i := by
  unfold call
  split
  · exact ⟨rfl, rfl⟩
  · exact ⟨rfl, rfl⟩

/-- Closing a call stores nothing and leaves the index register. -/
theorem registers_ret (place : Address) :
    (m.ret place).machine.registers.v = m.registers.v ∧
      (m.ret place).machine.registers.i = m.registers.i := by
  unfold ret
  split
  · exact ⟨rfl, rfl⟩
  · exact ⟨rfl, rfl⟩

/-- The end of a transfer stores nothing. -/
theorem v_finishTransfer (x j : Nibble) : (m.finishTransfer x).v j = m.v j := by
  unfold finishTransfer
  split
  · rfl
  · rfl

/-- The end of a transfer moves the index register behind the registers, if the dialect says so. -/
theorem i_finishTransfer_eq (x : Nibble) : (m.finishTransfer x).i =
    if m.dialect.transferMovesIndex = true then m.i.forward (x.val + 1) else m.i := by
  unfold finishTransfer
  split
  · rfl
  · rfl

/-- The end of a transfer leaves the index register, unless the dialect moves it. -/
theorem i_finishTransfer (x : Nibble) (h : m.dialect.transferMovesIndex = false) :
    (m.finishTransfer x).i = m.i := by
  rw [i_finishTransfer_eq, h, if_neg Bool.false_ne_true]

/-- Loading registers leaves the index register. -/
theorem i_loadBytes (x : Nibble) : (m.loadBytes x).i = m.i := by
  rw [i, loadBytes, i]

/-- Loading registers stores to none behind the last of them. -/
theorem v_loadBytes {x j : Nibble} (h : ¬j ≤ x) : (m.loadBytes x).v j = m.v j := by
  have hget : (m.loadBytes x).v j =
      if j ≤ x then m.memory.read (m.i.forward j.val) else m.v j :=
    NibbleTable.get_ofFn _ j
  rw [hget, if_neg h]

/-- An instruction changes no register but those that it can write. -/
theorem v_execute {i : Instruction} {j : Nibble} (place : Address)
    (h : ¬i.Writes m.dialect j) : (m.execute place i).machine.v j = m.v j := by
  have hskip : ∀ condition, (m.advance.skipIf condition).v j = m.v j :=
    fun condition => congrArg (·.get j) (m.advance.registers_skipIf condition).1
  cases i with
  | setByte x byte => exact m.advance.v_setV_of_ne h byte
  | addByte x byte => exact m.advance.v_setV_of_ne h (m.v x + byte)
  | readDelay x => exact m.advance.v_setV_of_ne h m.timers.delay
  | random x mask => exact v_setV_of_ne _ h _
  | combine op x y =>
    obtain ⟨hx, hflag⟩ := not_or.1 h
    exact m.advance.v_combine hx fun hsets heq => hflag ⟨hsets, heq⟩
  | draw x y height => exact m.advance.v_draw x y height h
  | loadRegisters x =>
    exact ((m.advance.loadBytes x).v_finishTransfer x j).trans (m.advance.v_loadBytes h)
  | storeRegisters x => exact v_finishTransfer _ x j
  | call target => exact congrArg (·.get j) (m.advance.registers_call place target).1
  | ret => exact congrArg (·.get j) (m.advance.registers_ret place).1
  | skipIfByte x byte => exact hskip _
  | skipUnlessByte x byte => exact hskip _
  | skipIfSame x y => exact hskip _
  | skipUnlessSame x y => exact hskip _
  | skipIfHeld x => exact hskip _
  | skipUnlessHeld x => exact hskip _
  | _ => rfl

/-- An instruction that does not move the index register leaves it. -/
theorem i_execute {i : Instruction} (place : Address) (h : i.movesIndex m.dialect = false) :
    (m.execute place i).machine.i = m.i := by
  have hskip : ∀ condition, (m.advance.skipIf condition).i = m.i :=
    fun condition => (m.advance.registers_skipIf condition).2
  cases i with
  | setIndex target => cases h
  | addToIndex x => cases h
  | pointAtGlyph x => cases h
  | storeRegisters x =>
    exact (m.advance.storeBytes (m.registers.v.toList.take (x.val + 1))).i_finishTransfer x h
  | loadRegisters x =>
    have hmoves : (m.advance.loadBytes x).dialect.transferMovesIndex = false := by
      rw [dialect_loadBytes]
      exact h
    have hfinish := (m.advance.loadBytes x).i_finishTransfer x hmoves
    rw [i_loadBytes] at hfinish
    exact hfinish
  | combine op x y => exact m.advance.i_combine op x y
  | draw x y height => exact m.advance.i_draw x y height
  | call target => exact (m.advance.registers_call place target).2
  | ret => exact (m.advance.registers_ret place).2
  | skipIfByte x byte => exact hskip _
  | skipUnlessByte x byte => exact hskip _
  | skipIfSame x y => exact hskip _
  | skipUnlessSame x y => exact hskip _
  | skipIfHeld x => exact hskip _
  | skipUnlessHeld x => exact hskip _
  | _ => rfl

end registers

section step

variable {m : Machine}

/-- A poll stores nothing, unless the wait is over; then it stores to the register that waits. -/
theorem v_poll {wait : KeyWait} {j : Nibble}
    (h : ¬(wait.Over m.keypad ∧ j = wait.register)) : (m.poll wait).1.v j = m.v j := by
  unfold poll
  split
  · rfl
  · next key hlatched =>
    split
    · rfl
    · next hreleased =>
      have hover : wait.Over m.keypad := ⟨key, hlatched, Bool.eq_false_iff.2 hreleased⟩
      exact v_setV_of_ne _ (fun hj => h ⟨hover, hj⟩) _

/-- A poll moves neither the index register nor the program counter. -/
theorem counters_poll (m : Machine) (wait : KeyWait) :
    (m.poll wait).1.i = m.i ∧ (m.poll wait).1.pc = m.pc := by
  unfold poll
  split
  · exact ⟨rfl, rfl⟩
  · split
    · exact ⟨rfl, rfl⟩
    · exact ⟨rfl, rfl⟩

/-- A part of the machine that polls leave alone is changed only by the instruction that a step
carries out. -/
theorem completed_of_step_ne {α : Type} (part : Machine → α)
    (hpoll : ∀ wait, m.keyWait = some wait → part (m.poll wait).1 = part m)
    (h : part m.step.machine ≠ part m) :
    ∃ i, m.completed .step = some i ∧ part (m.execute m.pc i).machine ≠ part m := by
  obtain ⟨wait, hwait, hstep⟩ | ⟨hready, signal, hout, hstep⟩ | ⟨-, fault, -, hstep⟩ :=
    m.step_cases
  · rw [hstep] at h
    exact absurd (hpoll wait hwait) h
  · have hdone : m.completed .step = some m.instruction :=
      completed_eq_some_iff.2 ⟨rfl, hready, rfl, signal, hout⟩
    rw [step_machine_of_completed hdone] at h
    exact ⟨m.instruction, hdone, h⟩
  · rw [hstep] at h
    exact absurd rfl h

/-- The second digit of the word at the program counter, which is `X` in its form. -/
def digitX (m : Machine) : Nibble := (Instruction.Fields.ofWord m.fetch).x

/-- The next step polls nothing and does not fail, and the word at the program counter fits one
of the forms. -/
structure CarriesOut (m : Machine) (forms : List Instruction.Form) : Prop where
  /-- The machine does not wait for a key. -/
  ready : m.keyWait = none
  /-- The word has one of the forms. -/
  fits : ∃ form ∈ forms, form.Fits m.fetch
  /-- The step does not fail. -/
  succeeds : ∃ signal, m.step.outcome = .ok signal

/-- A step that completes an instruction carries out its form. -/
theorem carriesOut_of_completed {i : Instruction} {form : Instruction.Form}
    {forms : List Instruction.Form} (h : m.completed .step = some i)
    (hform : i.form? = some form) (hmem : form ∈ forms) : m.CarriesOut forms := by
  obtain ⟨-, hready, hinstruction, signal, hout⟩ := completed_eq_some_iff.1 h
  have hfits : form.Fits m.fetch := by
    refine (Instruction.fits_iff (Instruction.mem_forms hform) m.fetch).2 ?_
    change m.instruction.form? = some form
    rw [hinstruction]
    exact hform
  refine ⟨hready, ⟨form, hmem, hfits⟩, signal, ?_⟩
  rw [step_of_execution_ok hready hout]

/-- The destination of a completed instruction is the second digit of its word. -/
theorem digitX_of_completed {i : Instruction} {x : Nibble} (h : m.completed .step = some i)
    (hx : i.destination? = some x) : x = m.digitX := by
  obtain ⟨-, -, hinstruction, -⟩ := completed_eq_some_iff.1 h
  refine Instruction.destination?_decode ?_
  change m.instruction.destination? = some x
  rw [hinstruction]
  exact hx

open Instruction.Form in
/-- The ways in which a step can change register `j`. -/
inductive MayWrite (m : Machine) (j : Nibble) : Prop where
  /-- The word names it first and has a form that stores to the register named first. -/
  | named (first : j = m.digitX) (forms : m.CarriesOut [⟨0x6, X, N, N⟩, ⟨0x7, X, N, N⟩,
      ⟨0x8, X, Y, 0x0⟩, ⟨0x8, X, Y, 0x1⟩, ⟨0x8, X, Y, 0x2⟩, ⟨0x8, X, Y, 0x3⟩, ⟨0x8, X, Y, 0x4⟩,
      ⟨0x8, X, Y, 0x5⟩, ⟨0x8, X, Y, 0x6⟩, ⟨0x8, X, Y, 0x7⟩, ⟨0x8, X, Y, 0xE⟩,
      ⟨0xC, X, N, N⟩, ⟨0xF, X, 0x0, 0x7⟩])
  /-- A pending wait is over and delivers its key to it. -/
  | delivered (wait : KeyWait) (pending : m.keyWait = some wait) (ends : wait.Over m.keypad)
      (receives : j = wait.register)
  /-- The registers up to it, or to some other behind it, are loaded. -/
  | loaded (below : j ≤ m.digitX) (forms : m.CarriesOut [⟨0xF, X, 0x6, 0x5⟩])
  /-- It is the flag of a drawing, a sum, a difference or a shift. -/
  | flagged (flag : j = Registers.flag) (forms : m.CarriesOut [⟨0xD, X, Y, N⟩,
      ⟨0x8, X, Y, 0x4⟩, ⟨0x8, X, Y, 0x5⟩, ⟨0x8, X, Y, 0x6⟩, ⟨0x8, X, Y, 0x7⟩, ⟨0x8, X, Y, 0xE⟩])
  /-- It is the flag, which logical operations clear. -/
  | cleared (flag : j = Registers.flag) (clears : m.dialect.logicClearsFlag = true)
      (forms : m.CarriesOut [⟨0x8, X, Y, 0x1⟩, ⟨0x8, X, Y, 0x2⟩, ⟨0x8, X, Y, 0x3⟩])

open Instruction.Form in
/-- Which forms can change which part of a machine in one step. -/
structure Confined (m : Machine) : Prop where
  /-- Memory is changed by storing the digits of a number and by storing registers. -/
  memory : m.step.machine.memory ≠ m.memory →
    m.CarriesOut [⟨0xF, X, 0x3, 0x3⟩, ⟨0xF, X, 0x5, 0x5⟩]
  /-- The screen is changed by clearing it and by drawing. -/
  screen : m.step.machine.screen ≠ m.screen →
    m.CarriesOut [⟨0x0, 0x0, 0xE, 0x0⟩, ⟨0xD, X, Y, N⟩]
  /-- The stack, with slots that are not in use, is changed by calls and returns. -/
  stack : m.step.machine.stack ≠ m.stack →
    m.CarriesOut [⟨0x2, N, N, N⟩, ⟨0x0, 0x0, 0xE, 0xE⟩]
  /-- The index register is changed by pointing it somewhere and by adding to it, and in some
  dialects by transfers. -/
  index : m.step.machine.i ≠ m.i →
    m.CarriesOut [⟨0xA, N, N, N⟩, ⟨0xF, X, 0x1, 0xE⟩, ⟨0xF, X, 0x2, 0x9⟩] ∨
    m.dialect.transferMovesIndex = true ∧
      m.CarriesOut [⟨0xF, X, 0x5, 0x5⟩, ⟨0xF, X, 0x6, 0x5⟩]
  /-- The delay timer is changed by setting it. -/
  delay : m.step.machine.timers.delay ≠ m.timers.delay → m.CarriesOut [⟨0xF, X, 0x1, 0x5⟩]
  /-- The sound timer is changed by setting it. -/
  sound : m.step.machine.timers.sound ≠ m.timers.sound → m.CarriesOut [⟨0xF, X, 0x1, 0x8⟩]
  /-- Random bytes are taken by the instruction that stores them. -/
  random : m.step.machine.random ≠ m.random → m.CarriesOut [⟨0xC, X, N, N⟩]
  /-- A wait is changed by beginning it and by polls. -/
  keyWait : m.step.machine.keyWait ≠ m.keyWait →
    m.awaitsKey = true ∨ m.CarriesOut [⟨0xF, X, 0x0, 0xA⟩]
  /-- The keypad is never changed. -/
  keypad : m.step.machine.keypad = m.keypad
  /-- The dialect is never changed. -/
  dialect : m.step.machine.dialect = m.dialect
  /-- A register is changed only by a step that can write it. -/
  register : ∀ j, m.step.machine.v j ≠ m.v j → m.MayWrite j
  /-- A poll never moves the program counter. -/
  counter : m.awaitsKey = true → m.step.machine.pc = m.pc

/-- A part of the machine other than registers and wait is changed only by what an instruction
can change. -/
theorem changed_of_step_ne {α : Type} (part : Machine → α)
    (hpart : ∀ r w, part { m with registers := r, keyWait := w } = part m)
    (h : part m.step.machine ≠ part m) :
    ∃ i after, m.completed .step = some i ∧ Changed m i after ∧ part after ≠ part m := by
  have hpoll : ∀ wait, m.keyWait = some wait → part (m.poll wait).1 = part m := by
    intro wait _
    obtain ⟨r, w, hpoll⟩ := m.poll_keyWait wait
    rw [hpoll]
    exact hpart r w
  obtain ⟨i, hdone, hne⟩ := completed_of_step_ne part hpoll h
  exact ⟨i, (m.execute m.pc i).machine, hdone, m.execute_changed m.pc i, hne⟩

open Instruction.Form in
/-- A step changes memory only by storing digits or registers. -/
theorem carriesOut_of_memory_ne (h : m.step.machine.memory ≠ m.memory) :
    m.CarriesOut [⟨0xF, X, 0x3, 0x3⟩, ⟨0xF, X, 0x5, 0x5⟩] := by
  obtain ⟨i, after, hdone, hchanged, hne⟩ := changed_of_step_ne memory (fun _ _ => rfl) h
  cases hchanged with
  | storeDecimal => exact carriesOut_of_completed hdone rfl (by decide)
  | storeRegisters => exact carriesOut_of_completed hdone rfl (by decide)
  | _ => exact absurd rfl hne

open Instruction.Form in
/-- A step changes the screen only by clearing it or by drawing. -/
theorem carriesOut_of_screen_ne (h : m.step.machine.screen ≠ m.screen) :
    m.CarriesOut [⟨0x0, 0x0, 0xE, 0x0⟩, ⟨0xD, X, Y, N⟩] := by
  obtain ⟨i, after, hdone, hchanged, hne⟩ := changed_of_step_ne screen (fun _ _ => rfl) h
  cases hchanged with
  | clearScreen => exact carriesOut_of_completed hdone rfl (by decide)
  | draw => exact carriesOut_of_completed hdone rfl (by decide)
  | _ => exact absurd rfl hne

open Instruction.Form in
/-- A step changes the stack only by a call or a return. -/
theorem carriesOut_of_stack_ne (h : m.step.machine.stack ≠ m.stack) :
    m.CarriesOut [⟨0x2, N, N, N⟩, ⟨0x0, 0x0, 0xE, 0xE⟩] := by
  obtain ⟨i, after, hdone, hchanged, hne⟩ := changed_of_step_ne stack (fun _ _ => rfl) h
  cases hchanged with
  | call => exact carriesOut_of_completed hdone rfl (by decide)
  | ret => exact carriesOut_of_completed hdone rfl (by decide)
  | _ => exact absurd rfl hne

open Instruction.Form in
/-- A step changes the delay timer only by setting it. -/
theorem carriesOut_of_delay_ne (h : m.step.machine.timers.delay ≠ m.timers.delay) :
    m.CarriesOut [⟨0xF, X, 0x1, 0x5⟩] := by
  obtain ⟨i, after, hdone, hchanged, hne⟩ :=
    changed_of_step_ne (fun m => m.timers.delay) (fun _ _ => rfl) h
  cases hchanged with
  | setDelay => exact carriesOut_of_completed hdone rfl (by decide)
  | _ => exact absurd rfl hne

open Instruction.Form in
/-- A step changes the sound timer only by setting it. -/
theorem carriesOut_of_sound_ne (h : m.step.machine.timers.sound ≠ m.timers.sound) :
    m.CarriesOut [⟨0xF, X, 0x1, 0x8⟩] := by
  obtain ⟨i, after, hdone, hchanged, hne⟩ :=
    changed_of_step_ne (fun m => m.timers.sound) (fun _ _ => rfl) h
  cases hchanged with
  | setSound => exact carriesOut_of_completed hdone rfl (by decide)
  | _ => exact absurd rfl hne

open Instruction.Form in
/-- A step takes a random byte only to store it. -/
theorem carriesOut_of_random_ne (h : m.step.machine.random ≠ m.random) :
    m.CarriesOut [⟨0xC, X, N, N⟩] := by
  obtain ⟨i, after, hdone, hchanged, hne⟩ := changed_of_step_ne random (fun _ _ => rfl) h
  cases hchanged with
  | random => exact carriesOut_of_completed hdone rfl (by decide)
  | _ => exact absurd rfl hne

open Instruction.Form in
/-- Without a pending wait only the instruction that begins one can leave one. -/
theorem carriesOut_of_keyWait_ne (hready : m.keyWait = none)
    (h : m.step.machine.keyWait ≠ m.keyWait) : m.CarriesOut [⟨0xF, X, 0x0, 0xA⟩] := by
  have hpoll : ∀ wait, m.keyWait = some wait → (m.poll wait).1.keyWait = m.keyWait := by
    intro wait hwait
    rw [hready] at hwait
    cases hwait
  obtain ⟨i, hdone, hne⟩ := completed_of_step_ne keyWait hpoll h
  by_cases hawait : ∃ x, i = .awaitKey x
  · obtain ⟨x, rfl⟩ := hawait
    exact carriesOut_of_completed hdone rfl (by decide)
  · exact absurd (keyWait_execute fun x hx => hawait ⟨x, hx⟩) hne

open Instruction.Form in
/-- A step moves the index register only by an instruction that moves it. -/
theorem carriesOut_of_index_ne (h : m.step.machine.i ≠ m.i) :
    m.CarriesOut [⟨0xA, N, N, N⟩, ⟨0xF, X, 0x1, 0xE⟩, ⟨0xF, X, 0x2, 0x9⟩] ∨
      m.dialect.transferMovesIndex = true ∧
        m.CarriesOut [⟨0xF, X, 0x5, 0x5⟩, ⟨0xF, X, 0x6, 0x5⟩] := by
  obtain ⟨i, hdone, hne⟩ :=
    completed_of_step_ne i (fun wait _ => (m.counters_poll wait).1) h
  have hmoves : i.movesIndex m.dialect = true := by
    by_contra hstays
    exact hne (m.i_execute m.pc (Bool.eq_false_iff.2 hstays))
  cases i with
  | setIndex target => exact .inl (carriesOut_of_completed hdone rfl (by decide))
  | addToIndex x => exact .inl (carriesOut_of_completed hdone rfl (by decide))
  | pointAtGlyph x => exact .inl (carriesOut_of_completed hdone rfl (by decide))
  | storeRegisters x => exact .inr ⟨hmoves, carriesOut_of_completed hdone rfl (by decide)⟩
  | loadRegisters x => exact .inr ⟨hmoves, carriesOut_of_completed hdone rfl (by decide)⟩
  | _ => cases hmoves

/-- The flag is written by an operation in one of the forms that carry, borrow or shift a bit out,
or in some dialects by one of the three logical forms. -/
theorem mayWrite_of_setsFlag {op : Alu} {x y j : Nibble}
    (h : m.completed .step = some (.combine op x y)) (hsets : op.setsFlag m.dialect = true)
    (hflag : j = Registers.flag) : m.MayWrite j := by
  cases op with
  | copy => cases hsets
  | or => exact .cleared hflag hsets (carriesOut_of_completed h rfl (by decide))
  | and => exact .cleared hflag hsets (carriesOut_of_completed h rfl (by decide))
  | xor => exact .cleared hflag hsets (carriesOut_of_completed h rfl (by decide))
  | _ => exact .flagged hflag (carriesOut_of_completed h rfl (by decide))

/-- What an instruction can write, the step that carries it out can write. -/
theorem mayWrite_of_writes {i : Instruction} {j : Nibble} (h : m.completed .step = some i)
    (hwrites : i.Writes m.dialect j) : m.MayWrite j := by
  have hfirst : ∀ x, i.destination? = some x → x = m.digitX := fun x => digitX_of_completed h
  cases i with
  | setByte x byte =>
    exact .named (hwrites.trans (hfirst x rfl)) (carriesOut_of_completed h rfl (by decide))
  | addByte x byte =>
    exact .named (hwrites.trans (hfirst x rfl)) (carriesOut_of_completed h rfl (by decide))
  | random x mask =>
    exact .named (hwrites.trans (hfirst x rfl)) (carriesOut_of_completed h rfl (by decide))
  | readDelay x =>
    exact .named (hwrites.trans (hfirst x rfl)) (carriesOut_of_completed h rfl (by decide))
  | combine op x y =>
    obtain hx | ⟨hsets, hflag⟩ := hwrites
    · exact .named (hx.trans (hfirst x rfl))
        (carriesOut_of_completed h rfl (by cases op <;> decide))
    · exact mayWrite_of_setsFlag h hsets hflag
  | draw x y height => exact .flagged hwrites (carriesOut_of_completed h rfl (by decide))
  | loadRegisters x =>
    have hbelow : j ≤ m.digitX := by
      rw [← hfirst x rfl]
      exact hwrites
    exact .loaded hbelow (carriesOut_of_completed h rfl (by decide))
  | _ => cases hwrites

/-- A step changes a register only if it can write it. -/
theorem mayWrite_of_register_ne {j : Nibble} (h : m.step.machine.v j ≠ m.v j) :
    m.MayWrite j := by
  by_cases hdelivers : ∃ wait, m.keyWait = some wait ∧ wait.Over m.keypad ∧ j = wait.register
  · obtain ⟨wait, hwait, hover, hreceives⟩ := hdelivers
    exact .delivered wait hwait hover hreceives
  have hpoll : ∀ wait, m.keyWait = some wait → (m.poll wait).1.v j = m.v j :=
    fun wait hwait => v_poll fun hover => hdelivers ⟨wait, hwait, hover⟩
  obtain ⟨i, hdone, hne⟩ := completed_of_step_ne (fun m => m.v j) hpoll h
  have hwrites : i.Writes m.dialect j := by
    by_contra hnot
    exact hne (m.v_execute m.pc hnot)
  exact mayWrite_of_writes hdone hwrites

end step

open Instruction.Form in
/-- Every step, of every machine in every dialect, changes each part of the machine only in those
ways. -/
theorem step_confined (m : Machine) : m.Confined := by
  have hkeyWait : m.step.machine.keyWait ≠ m.keyWait →
      m.awaitsKey = true ∨ m.CarriesOut [⟨0xF, X, 0x0, 0xA⟩] := by
    intro hne
    cases hready : m.keyWait with
    | none => exact .inr (carriesOut_of_keyWait_ne hready hne)
    | some wait => exact .inl (congrArg Option.isSome hready)
  have hcounter : m.awaitsKey = true → m.step.machine.pc = m.pc := by
    intro hawaits
    obtain ⟨wait, hwait⟩ := Option.isSome_iff_exists.1 hawaits
    rw [step_of_keyWait hwait]
    exact (m.counters_poll wait).2
  exact
    { memory := carriesOut_of_memory_ne, screen := carriesOut_of_screen_ne,
      stack := carriesOut_of_stack_ne, index := carriesOut_of_index_ne,
      delay := carriesOut_of_delay_ne, sound := carriesOut_of_sound_ne,
      random := carriesOut_of_random_ne, keyWait := hkeyWait, keypad := m.keypad_step,
      dialect := m.dialect_step, register := fun _ => mayWrite_of_register_ne,
      counter := hcounter }

end Machine

end ChipEight
