import ChipEight.Proofs.Alignment
import ChipEight.Proofs.Words

/-!
# Arithmetic on registers

`8XYN` makes a result and, for most operations, a number for the flag of what two registers hold.
Both registers are read before anything is written, and the result is written to `VX` before the
flag. So the equations between the old and the new numbers hold whichever registers `X` and `Y` are.
If `X` is the flag register itself, it holds the number for the flag in the end, and the result is
lost.
-/

namespace ChipEight

namespace Alu

/-- The equations of an operation that finds the numbers `a` and `b` in its two registers: its
result is `r`, and `c` is the number for the flag, if it sets the flag. -/
def Law (d : Dialect) (a b r c : Nat) : Alu → Prop
  | copy => r = b
  | or => (∀ bit, r.testBit bit = (a.testBit bit || b.testBit bit)) ∧ c = 0
  | and => (∀ bit, r.testBit bit = (a.testBit bit && b.testBit bit)) ∧ c = 0
  | xor => (∀ bit, r.testBit bit = (a.testBit bit ^^ b.testBit bit)) ∧ c = 0
  | add => 256 * c + r = a + b
  | sub => (r : Int) = ((a : Int) - b) % 256 ∧ (c = 1 ↔ b ≤ a)
  | shiftRight => 2 * r + c = if d.shiftsY then b else a
  | subFrom => (r : Int) = ((b : Int) - a) % 256 ∧ (c = 1 ↔ a ≤ b)
  | shiftLeft => 256 * c + r = 2 * if d.shiftsY then b else a

/-- The byte of a result for the flag; it is zero if there is none. -/
def Result.flagOrZero (result : Result) : UInt8 := result.flag.getD 0

section bytes

variable (a b : UInt8)

/-- The number that stands for a condition. -/
theorem toNat_flagByte (condition : Bool) : (flagByte condition).toNat = condition.toNat := by
  cases condition <;> rfl

/-- A sum is the byte that is left of it, and 256 if there is a carry. -/
theorem carry_add :
    256 * (decide (256 ≤ a.toNat + b.toNat)).toNat + (a + b).toNat = a.toNat + b.toNat := by
  have ha := a.toNat_lt
  have hb := b.toNat_lt
  rw [UInt8.toNat_add]
  by_cases hcarry : 256 ≤ a.toNat + b.toNat
  · rw [decide_eq_true hcarry, Bool.toNat_true]
    omega
  · rw [decide_eq_false hcarry, Bool.toNat_false]
    omega

/-- The byte that is left of a difference is the difference modulo 256. -/
theorem toNat_sub_mod : ((a - b).toNat : Int) = ((a.toNat : Int) - b.toNat) % 256 := by
  have ha := a.toNat_lt
  have hb := b.toNat_lt
  rw [UInt8.toNat_sub]
  omega

/-- The flag of a difference is one just if it does not borrow. -/
theorem flagByte_le_iff : (flagByte (decide (b ≤ a))).toNat = 1 ↔ b.toNat ≤ a.toNat := by
  rw [toNat_flagByte, Bool.toNat_eq_one, decide_eq_true_eq, UInt8.le_iff_toNat_le]

/-- The bit that a shift to the right moves out. -/
theorem toNat_lowBit : (a &&& 1).toNat = a.toNat % 2 := by
  rw [UInt8.toNat_and]
  exact Nat.and_two_pow_sub_one_eq_mod a.toNat 1

/-- The bit that a shift to the left moves out. -/
theorem toNat_highBit : (a >>> 7).toNat = a.toNat / 128 := by
  rw [UInt8.toNat_shiftRight]
  exact Nat.shiftRight_eq_div_pow a.toNat 7

/-- A shift to the right halves a number, and the bit that it moves out is the rest. -/
theorem shiftRight_rest : 2 * (a >>> 1).toNat + (a &&& 1).toNat = a.toNat := by
  have hhalf : (a >>> 1).toNat = a.toNat / 2 := by
    rw [UInt8.toNat_shiftRight]
    exact Nat.shiftRight_eq_div_pow a.toNat 1
  rw [hhalf, toNat_lowBit]
  omega

/-- A shift to the left doubles a number, and the bit that it moves out is worth 256. -/
theorem shiftLeft_carry : 256 * (a >>> 7).toNat + (a <<< 1).toNat = 2 * a.toNat := by
  have ha := a.toNat_lt
  have hdouble : (a <<< 1).toNat = a.toNat * 2 % 256 := by
    rw [UInt8.toNat_shiftLeft]
    exact congrArg (· % 256) (Nat.shiftLeft_eq a.toNat 1)
  rw [hdouble, toNat_highBit]
  omega

end bytes

section apply

variable (op : Alu) (d : Dialect) (a b : UInt8)

/-- The logical operations make the flag zero, or leave it. -/
theorem toNat_cleared :
    ((if d.logicClearsFlag then some (0 : UInt8) else none).getD 0).toNat = 0 := by
  cases d.logicClearsFlag <;> rfl

/-- What an operation gives satisfies its equations. -/
theorem law_apply :
    op.Law d a.toNat b.toNat (op.apply d a b).value.toNat (op.apply d a b).flagOrZero.toNat := by
  have hshifted : (if d.shiftsY then b else a).toNat = if d.shiftsY then b.toNat else a.toNat :=
    apply_ite UInt8.toNat _ b a
  cases op with
  | copy => rfl
  | or => exact ⟨fun bit => by rw [apply, UInt8.toNat_or, Nat.testBit_or], toNat_cleared d⟩
  | and => exact ⟨fun bit => by rw [apply, UInt8.toNat_and, Nat.testBit_and], toNat_cleared d⟩
  | xor => exact ⟨fun bit => by rw [apply, UInt8.toNat_xor, Nat.testBit_xor], toNat_cleared d⟩
  | add =>
    have hsum := carry_add a b
    rw [← toNat_flagByte] at hsum
    exact hsum
  | sub => exact ⟨toNat_sub_mod a b, flagByte_le_iff a b⟩
  | subFrom => exact ⟨toNat_sub_mod b a, flagByte_le_iff b a⟩
  | shiftRight => exact (shiftRight_rest _).trans hshifted
  | shiftLeft => exact (shiftLeft_carry _).trans (congrArg (2 * ·) hshifted)

/-- The flag holds zero or one. -/
theorem flagOrZero_apply_le : (op.apply d a b).flagOrZero.toNat ≤ 1 := by
  have hcondition : ∀ condition, (flagByte condition).toNat ≤ 1 := by decide
  cases op with
  | copy => exact Nat.zero_le 1
  | or | and | xor => exact Nat.le_trans (Nat.le_of_eq (toNat_cleared d)) (Nat.zero_le 1)
  | add | sub | subFrom => exact hcondition _
  | shiftRight =>
    change ((if d.shiftsY then b else a) &&& 1).toNat ≤ 1
    rw [toNat_lowBit]
    omega
  | shiftLeft =>
    have hlt := (if d.shiftsY then b else a).toNat_lt
    change ((if d.shiftsY then b else a) >>> 7).toNat ≤ 1
    rw [toNat_highBit]
    omega

end apply

end Alu

namespace Machine

/-- The registers after an operation: the flag, if the operation sets it, holds the byte for the
flag, the first register holds the result unless it is the flag, and all others keep their bytes. -/
theorem v_combine_eq (m : Machine) (op : Alu) (x y j : Nibble) :
    (m.combine op x y).v j =
      if j = Registers.flag ∧ op.setsFlag m.dialect = true then
        (op.apply m.dialect (m.v x) (m.v y)).flagOrZero
      else if j = x then (op.apply m.dialect (m.v x) (m.v y)).value
      else m.v j := by
  have hsets := op.isSome_flag_apply m.dialect (m.v x) (m.v y)
  rw [← hsets]
  unfold combine Alu.Result.flagOrZero
  dsimp only
  cases (op.apply m.dialect (m.v x) (m.v y)).flag with
  | none => simp [v_setV, eq_comm]
  | some flag => simp [v_setV, eq_comm]

/-- What a machine becomes when an operation combines two registers. -/
structure Calculates (m : Machine) (op : Alu) (x y : Nibble) (after : Machine) : Prop where
  /-- A result and a number for the flag satisfy the equations of the operation. They are in the
  first register and in the flag, where the flag wins; no other register holds anything else. -/
  values : ∃ r c : Nat, r < 256 ∧ c ≤ 1 ∧ op.Law m.dialect (m.v x).toNat (m.v y).toNat r c ∧
    ∀ j, (after.v j).toNat =
      if j = Registers.flag ∧ op.setsFlag m.dialect = true then c
      else if j = x then r
      else (m.v j).toNat
  /-- The index register stays. -/
  index : after.i = m.i
  /-- The next instruction comes next. -/
  counter : after.pc = m.pc.forward 2
  /-- Nothing else is different. -/
  rest : after = { m with registers := after.registers }

/-- A machine that is about to carry out `8XYN` does the calculation in its next step, whichever
registers `X` and `Y` are. -/
theorem step_calculates {m : Machine} {op : Alu} {x y : Nibble} (h : m.Faces (.combine op x y)) :
    m.step.outcome = .ok .proceed ∧ m.Calculates op x y m.step.machine := by
  obtain ⟨hout, hstep⟩ := h.step_eq rfl rfl
  refine ⟨hout, ?_⟩
  rw [hstep]
  change m.Calculates op x y (m.advance.combine op x y)
  obtain ⟨r, hrest⟩ := m.advance.combine_registers op x y
  have hvalues : ∀ j, ((m.advance.combine op x y).v j).toNat =
      if j = Registers.flag ∧ op.setsFlag m.dialect = true then
        (op.apply m.dialect (m.v x) (m.v y)).flagOrZero.toNat
      else if j = x then (op.apply m.dialect (m.v x) (m.v y)).value.toNat
      else (m.v j).toNat := by
    intro j
    rw [v_combine_eq, apply_ite UInt8.toNat, apply_ite UInt8.toNat]
    rfl
  exact
    { values := ⟨_, _, UInt8.toNat_lt _, op.flagOrZero_apply_le m.dialect (m.v x) (m.v y),
        op.law_apply m.dialect (m.v x) (m.v y), hvalues⟩
      index := m.advance.i_combine op x y
      counter := m.advance.pc_combine op x y
      rest := by rw [hrest]; rfl }

/-- The sum of the flag register with itself. -/
def flagDoubling : Instruction := .combine .add Registers.flag Registers.flag

/-- A machine that is about to calculate it, with a number that is too large. -/
def doubling : Machine :=
  ((create .modern (.ofSeed 0)).setV Registers.flag 200).facing flagDoubling.encode

/-- The flag wins: the register holds the carry, and the sum is lost. -/
theorem doubling_keeps_carry :
    doubling.Faces flagDoubling ∧ (doubling.step.machine.v Registers.flag).toNat = 1 := by
  have hfaces : doubling.Faces flagDoubling := faces_facing rfl flagDoubling
  have hnumber : (doubling.v Registers.flag).toNat = 200 := by decide
  obtain ⟨r, c, hr, -, hlaw, hvalues⟩ := (step_calculates hfaces).2.values
  rw [hnumber] at hlaw
  have hsum : 256 * c + r = 200 + 200 := hlaw
  refine ⟨hfaces, ?_⟩
  rw [hvalues, if_pos ⟨rfl, rfl⟩]
  omega

end Machine

end ChipEight
