import ChipEight.Proofs.Alignment
import ChipEight.Proofs.Stores
import ChipEight.Proofs.Words

/-!
# Where programs go on

Jumps and calls go to the address in their word, a jump by a register goes that many cells further,
and a return goes behind the call that is still open and was opened last. Six words skip: three test
a condition and skip the next instruction if it holds, the other three test the same conditions and
skip unless they hold. Behind all other words the next instruction comes next. Addresses go round
where memory ends, so a skip at the last cells leads to the first ones.
-/

namespace ChipEight

/-- A condition that programs test by skipping. -/
inductive Test where
  /-- A register holds a certain byte. -/
  | byte (x : Nibble) (value : UInt8)
  /-- Two registers hold the same byte. -/
  | same (x y : Nibble)
  /-- The key for the last hexadecimal digit of a register is held down. -/
  | held (x : Nibble)

namespace Test

/-- The instruction that skips if the condition holds: `3XNN`, `5XY0` or `EX9E`. -/
def skipIf : Test → Instruction
  | byte x value => .skipIfByte x value
  | same x y => .skipIfSame x y
  | held x => .skipIfHeld x

/-- The instruction that skips unless the condition holds: `4XNN`, `9XY0` or `EXA1`. -/
def skipUnless : Test → Instruction
  | byte x value => .skipUnlessByte x value
  | same x y => .skipUnlessSame x y
  | held x => .skipUnlessHeld x

/-- The condition holds on a machine. -/
def Holds (m : Machine) : Test → Prop
  | byte x value => m.v x = value
  | same x y => m.v x = m.v y
  | held x => m.keypad.holds ⟨(m.v x).toNat % 16, Nat.mod_lt _ (by decide)⟩ = true

instance (m : Machine) : DecidablePred (Holds m)
  | byte x value => inferInstanceAs (Decidable (m.v x = value))
  | same x y => inferInstanceAs (Decidable (m.v x = m.v y))
  | held x => inferInstanceAs
    (Decidable (m.keypad.holds ⟨(m.v x).toNat % 16, Nat.mod_lt _ (by decide)⟩ = true))

/-- A condition does not depend on the word at the program counter. -/
theorem holds_facing (m : Machine) (word : UInt16) (test : Test) :
    test.Holds (m.facing word) ↔ test.Holds m := by
  cases test <;> exact Iff.rfl

/-- Both instructions of a test have words. -/
theorem isSome_form? (test : Test) :
    test.skipIf.form?.isSome = true ∧ test.skipUnless.form?.isSome = true := by
  cases test <;> exact ⟨rfl, rfl⟩

end Test

namespace Instruction

open Form in
/-- Forms of the words behind which a program can go on elsewhere than at the next instruction. -/
def branchForms : List Form := [
  ⟨0x0, 0x0, 0xE, 0xE⟩, ⟨0x1, N, N, N⟩, ⟨0x2, N, N, N⟩, ⟨0x3, X, N, N⟩, ⟨0x4, X, N, N⟩,
  ⟨0x5, X, Y, 0x0⟩, ⟨0x9, X, Y, 0x0⟩, ⟨0xB, N, N, N⟩, ⟨0xE, X, 0x9, 0xE⟩, ⟨0xE, X, 0xA, 0x1⟩]

/-- An instruction that is not sequential has one of these forms. -/
theorem exists_branchForm {i : Instruction} (h : i.isSequential = false) :
    ∃ form ∈ branchForms, i.form? = some form := by
  cases i with
  | ret | jump | call | jumpBy | skipIfByte | skipUnlessByte | skipIfSame | skipUnlessSame
  | skipIfHeld | skipUnlessHeld => exact ⟨_, by decide, rfl⟩
  | _ => cases h

/-- A word that fits none of these forms is that of a sequential instruction. -/
theorem isSequential_decode {word : UInt16} (h : ∀ form ∈ branchForms, ¬form.Fits word) :
    (decode word).isSequential = true := by
  by_contra hbranches
  obtain ⟨form, hmem, hform⟩ := exists_branchForm (Bool.eq_false_iff.2 hbranches)
  exact h form hmem ((fits_iff (mem_forms hform) word).2 hform)

end Instruction

namespace Machine

section skips

variable (m : Machine) (place : Address) (test : Test)

/-- A skip if a condition holds. -/
theorem pc_execute_skipIf : (m.execute place test.skipIf).machine.pc =
    if test.Holds m then m.pc.forward 4 else m.pc.forward 2 := by
  cases test with
  | byte x value => exact (m.pc_skipIf _).trans (if_congr beq_iff_eq rfl rfl)
  | same x y => exact (m.pc_skipIf _).trans (if_congr beq_iff_eq rfl rfl)
  | held x => exact m.pc_skipIf _

/-- A skip unless a condition holds. -/
theorem pc_execute_skipUnless : (m.execute place test.skipUnless).machine.pc =
    if test.Holds m then m.pc.forward 2 else m.pc.forward 4 := by
  rw [← ite_not]
  cases test with
  | byte x value => exact (m.pc_skipIf _).trans (if_congr bne_iff_ne rfl rfl)
  | same x y => exact (m.pc_skipIf _).trans (if_congr bne_iff_ne rfl rfl)
  | held x =>
    refine (m.pc_skipIf _).trans (if_congr ?_ rfl rfl)
    rw [Bool.not_eq_true', ← Bool.not_eq_true]
    exact Iff.rfl

end skips

/-- The next step skips an instruction. -/
def Skips (m : Machine) : Prop := m.step.machine.pc = m.pc.forward 4

/-- Where a machine goes on when its next step carries out an instruction. -/
structure GoesOn (m : Machine) : Prop where
  /-- `1NNN` goes to its address. -/
  jump : ∀ target, m.fetch = (Instruction.jump target).encode → m.step.machine.pc = target
  /-- `2NNN` goes to its address. -/
  call : ∀ target, m.fetch = (Instruction.call target).encode → m.step.machine.pc = target
  /-- `00EE` goes to the newest return address. -/
  ret : m.fetch = Instruction.ret.encode → m.stack.toList.getLast? = some m.step.machine.pc
  /-- `BNNN` goes as many cells further than its address as `V0` says or, in some dialects, as the
  register says that its address begins with. -/
  jumpBy : ∀ target, m.fetch = (Instruction.jumpBy target).encode →
    m.step.machine.pc = target.forward (m.v
      (if m.dialect.jumpsByX then Instruction.topDigit target else .ofNat 0)).toNat
  /-- `3XNN`, `5XY0` and `EX9E` skip an instruction if their condition holds. -/
  skipIf : ∀ test : Test, m.fetch = test.skipIf.encode →
    m.step.machine.pc = if test.Holds m then m.pc.forward 4 else m.pc.forward 2
  /-- `4XNN`, `9XY0` and `EXA1` skip an instruction unless their condition holds. -/
  skipUnless : ∀ test : Test, m.fetch = test.skipUnless.encode →
    m.step.machine.pc = if test.Holds m then m.pc.forward 2 else m.pc.forward 4
  /-- All others go to the next instruction. -/
  others : (∀ form ∈ Instruction.branchForms, ¬form.Fits m.fetch) →
    m.step.machine.pc = m.pc.forward 2

variable {m : Machine}

/-- A step that polls nothing and does not fail completes the instruction at the program counter. -/
theorem completed_of_outcome {signal : Signal} (hready : m.keyWait = none)
    (hout : m.step.outcome = .ok signal) : m.completed .step = some m.instruction := by
  simp only [completed, hready, hout]

/-- A step that completes an instruction goes on where this instruction leads. -/
theorem goesOn_of_completed (hdone : m.completed .step = some m.instruction) : m.GoesOn := by
  have hready : m.keyWait = none := (completed_eq_some_iff.1 hdone).2.1
  have hinstruction : ∀ i : Instruction, i.form?.isSome = true → m.fetch = i.encode →
      m.completed .step = some i := by
    intro i hform hword
    rw [hdone, Faces.instruction_eq ⟨hready, hword⟩ hform]
  have hafter : ∀ i : Instruction, i.form?.isSome = true → m.fetch = i.encode →
      m.step.machine.pc = (m.execute m.pc i).machine.pc := fun i hform hword =>
    congrArg pc (step_machine_of_completed (hinstruction i hform hword))
  exact
    { jump := fun target hword => hafter (.jump target) rfl hword
      call := fun target hword => pc_of_completed_call (hinstruction (.call target) rfl hword)
      ret := fun hword => by
        have hstack : m.stack.toList = m.step.machine.stack.toList ++ [m.step.machine.pc] :=
          stack_of_completed_ret (hinstruction .ret rfl hword)
        rw [hstack, List.getLast?_concat]
      jumpBy := fun target hword => hafter (.jumpBy target) rfl hword
      skipIf := fun test hword => by
        rw [hafter test.skipIf test.isSome_form?.1 hword, pc_execute_skipIf]
      skipUnless := fun test hword => by
        rw [hafter test.skipUnless test.isSome_form?.2 hword, pc_execute_skipUnless]
      others := fun hnone => by
        rw [step_machine_of_completed hdone]
        exact m.pc_execute_of_isSequential m.pc (Instruction.isSequential_decode hnone) }

/-- The two instructions of a test never fail. -/
theorem outcome_execute_test (m : Machine) (place : Address) (test : Test) :
    (m.execute place test.skipIf).outcome = .ok .proceed ∧
      (m.execute place test.skipUnless).outcome = .ok .proceed := by
  cases test <;> exact ⟨rfl, rfl⟩

/-- A machine that comes to a test skips one instruction if the condition holds and the test is to
skip then, or if it does not hold and the test is to skip unless it holds. -/
theorem skips_iff (test : Test) :
    (m.Faces test.skipIf → (m.Skips ↔ test.Holds m)) ∧
      (m.Faces test.skipUnless → (m.Skips ↔ ¬test.Holds m)) := by
  have hne : m.pc.forward 2 ≠ m.pc.forward 4 := fun h =>
    absurd (Address.forward_inj (by decide) (by decide) h) (by decide)
  obtain ⟨hout, hout'⟩ := m.outcome_execute_test m.pc test
  constructor
  · intro h
    rw [Skips, (h.step_eq test.isSome_form?.1 hout).2, pc_execute_skipIf]
    simp [hne]
  · intro h
    rw [Skips, (h.step_eq test.isSome_form?.2 hout').2, pc_execute_skipUnless]
    simp [hne]

/-- Every step that carries out an instruction goes on where the word at the program counter leads.
And of the two words that test a condition, put before any machine that waits for no key, exactly
one skips. -/
theorem step_goes_on (hready : m.keyWait = none) :
    (∀ signal, m.step.outcome = .ok signal → m.GoesOn) ∧
    ∀ test : Test, (m.facing test.skipIf.encode).Skips ↔
      ¬(m.facing test.skipUnless.encode).Skips := by
  refine ⟨fun signal hout => goesOn_of_completed (completed_of_outcome hready hout), ?_⟩
  intro test
  have hif : (m.facing test.skipIf.encode).Faces test.skipIf := faces_facing hready test.skipIf
  have hunless : (m.facing test.skipUnless.encode).Faces test.skipUnless :=
    faces_facing hready test.skipUnless
  rw [(skips_iff test).1 hif, (skips_iff test).2 hunless, not_not, test.holds_facing,
    test.holds_facing]

/-- A machine whose program counter is at the last cell, with a word there that skips if the last
register is zero, as it is. -/
def atLastCell : Machine :=
  ((create .modern (.ofSeed 0)).setCounter 0xFFF).facing (Test.byte (.ofNat 15) 0).skipIf.encode

/-- The skip goes round the end of memory. -/
theorem atLastCell_skips_round :
    atLastCell.keyWait = none ∧ atLastCell.step.outcome = .ok .proceed ∧
      atLastCell.step.machine.pc.val = 3 := by
  have hfaces : atLastCell.Faces (Test.byte (.ofNat 15) 0).skipIf := faces_facing rfl _
  have hout := (hfaces.step_eq rfl rfl).1
  have hgoes : atLastCell.GoesOn := (step_goes_on hfaces.ready).1 .proceed hout
  have hholds : (Test.byte (.ofNat 15) 0).Holds atLastCell := by decide
  refine ⟨hfaces.ready, hout, ?_⟩
  rw [hgoes.skipIf _ hfaces.word, if_pos hholds]
  decide

end Machine

end ChipEight
