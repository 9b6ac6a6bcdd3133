import ChipEight.Proofs.Alignment
import ChipEight.Proofs.Stores
import ChipEight.Proofs.Words

/-!
# What the storing instructions store

Two instructions store bytes from the index register on: one the three decimal digits of a
register, the highest first, the other all registers up to the one that it names. Memory is a ring,
so such a block can begin in the last cells and go on in the first ones. No other cell changes, the
byte registers keep what they hold, and the index register moves only behind stored registers, and
only in the dialects that say so.
-/

namespace ChipEight

/-- The values up to that of a digit, in order. -/
theorem NibbleTable.take_toList {α : Type} (t : NibbleTable α) (x : Nibble) :
    t.toList.take (x.val + 1) = List.ofFn fun k : Fin (x.val + 1) => t.get (k.castLE x.isLt) := by
  have hlength : (t.toList.take (x.val + 1)).length = x.val + 1 := by
    rw [List.length_take, toList, Vector.length_toList]
    exact Nat.min_eq_left x.isLt
  refine List.ext_getElem (hlength.trans List.length_ofFn.symm) fun k hk hk' => ?_
  rw [List.getElem_ofFn, List.getElem_take]
  exact Vector.getElem_toList _

namespace Memory

variable {count : Nat}

/-- Each byte of a block is read back from its cell. -/
theorem read_writeBytes_ofFn (m : Memory) (a : Address) (byte : Fin count → UInt8)
    (hcount : count ≤ 4096) (k : Fin count) :
    (m.writeBytes a (List.ofFn byte)).read (a.forward k) = byte k := by
  have hlength : (List.ofFn byte).length ≤ 4096 := by rwa [List.length_ofFn]
  have hk : k.val < (List.ofFn byte).length := by
    rw [List.length_ofFn]
    exact k.isLt
  rw [read_writeBytes_forward m hlength hk, List.getElem_ofFn]

/-- A cell that belongs to no byte of a block keeps what it has. -/
theorem read_writeBytes_ofFn_of_apart (m : Memory) {a b : Address} (byte : Fin count → UInt8)
    (h : ∀ k : Fin count, a.forward k ≠ b) :
    (m.writeBytes a (List.ofFn byte)).read b = m.read b := by
  refine read_writeBytes_of_apart m fun k hk => ?_
  rw [List.length_ofFn] at hk
  exact h ⟨k, hk⟩

end Memory

namespace Instruction

/-- Whether an instruction stores bytes from the index register on. -/
def storesBytes : Instruction → Bool
  | storeDecimal _ | storeRegisters _ => true
  | _ => false

variable {i : Instruction}

/-- An instruction that stores bytes writes no byte register. -/
theorem not_writes_of_storesBytes (h : i.storesBytes = true) (d : Dialect) (j : Nibble) :
    ¬i.Writes d j := by
  cases i with
  | storeDecimal x | storeRegisters x => exact id
  | _ => cases h

/-- Behind an instruction that stores bytes the program goes on. -/
theorem isSequential_of_storesBytes (h : i.storesBytes = true) : i.isSequential = true := by
  cases i with
  | storeDecimal x | storeRegisters x => rfl
  | _ => cases h

end Instruction

namespace Machine

/-- The number that a byte stands for is that of its three decimal digits. -/
theorem exists_decimal_digits (value : UInt8) : ∃ digit : Fin 3 → UInt8,
    decimalDigits value = List.ofFn digit ∧ (∀ k, (digit k).toNat ≤ 9) ∧
      100 * (digit 0).toNat + 10 * (digit 1).toNat + (digit 2).toNat = value.toNat := by
  have hvalue := value.toNat_lt
  have hhundreds : (value / 100).toNat = value.toNat / 100 := UInt8.toNat_div value 100
  have htens : (value / 10 % 10).toNat = value.toNat / 10 % 10 := by
    rw [UInt8.toNat_mod, UInt8.toNat_div]
    rfl
  have hones : (value % 10).toNat = value.toNat % 10 := UInt8.toNat_mod value 10
  refine ⟨(decimalDigits value).get, rfl, ?_, ?_⟩
  · intro k
    match k with
    | 0 =>
      change (value / 100).toNat ≤ 9
      omega
    | 1 =>
      change (value / 10 % 10).toNat ≤ 9
      omega
    | 2 =>
      change (value % 10).toNat ≤ 9
      omega
  · change 100 * (value / 100).toNat + 10 * (value / 10 % 10).toNat + (value % 10).toNat = _
    omega

/-- What a machine becomes when bytes are stored from its index register on. -/
structure StoresBlock (m : Machine) {count : Nat} (byte : Fin count → UInt8) (index : Address)
    (after : Machine) : Prop where
  /-- Each byte is in its cell, counted round the end of memory. -/
  stored : ∀ k : Fin count, after.memory.read (m.i.forward k) = byte k
  /-- All other cells keep their bytes. -/
  others : ∀ a, (∀ k : Fin count, m.i.forward k ≠ a) → after.memory.read a = m.memory.read a
  /-- The byte registers keep what they hold. -/
  registers : ∀ j, after.v j = m.v j
  /-- Where the index register points. -/
  index : after.i = index
  /-- The next instruction comes next. -/
  counter : after.pc = m.pc.forward 2
  /-- Nothing else is different. -/
  rest : after = { m with memory := after.memory, registers := after.registers }

variable {m : Machine}

/-- An instruction that stores bytes changes nothing but memory and registers. -/
theorem execute_eq_of_storesBytes {i : Instruction} (place : Address)
    (h : i.storesBytes = true) : ∃ cells r,
      (m.execute place i).machine = { m with memory := cells, registers := r } := by
  have hchanged := m.execute_changed place i
  generalize (m.execute place i).machine = after at hchanged ⊢
  cases hchanged with
  | registers r => exact ⟨m.memory, r, rfl⟩
  | storeDecimal r cells => exact ⟨cells, r, rfl⟩
  | storeRegisters r cells => exact ⟨cells, r, rfl⟩
  | _ => cases h

/-- An instruction that stores bytes stores them as a block. -/
theorem storesBlock_execute {i : Instruction} {count : Nat} {byte : Fin count → UInt8}
    (place : Address) (hstores : i.storesBytes = true) (hbytes : m.storing i = List.ofFn byte)
    (hcount : count ≤ 4096) :
    m.StoresBlock byte (m.execute place i).machine.i (m.execute place i).machine := by
  have hmemory := m.memory_execute place i
  rw [hbytes] at hmemory
  obtain ⟨cells, r, hmachine⟩ := m.execute_eq_of_storesBytes place hstores
  exact
    { stored := fun k => by rw [hmemory, Memory.read_writeBytes_ofFn _ _ _ hcount]
      others := fun a ha => by rw [hmemory, Memory.read_writeBytes_ofFn_of_apart _ _ ha]
      registers := fun j =>
        m.v_execute place (Instruction.not_writes_of_storesBytes hstores m.dialect j)
      index := rfl
      counter := m.pc_execute_of_isSequential place
        (Instruction.isSequential_of_storesBytes hstores)
      rest := by rw [hmachine] }

/-- A machine that is about to carry out `FX33` stores three decimal digits that make up the number
in `VX`, and one that is about to carry out `FX55` stores the registers up to `VX`. The index
register moves behind the stored registers in some dialects, and else it stays. -/
theorem step_stores_block {x : Nibble} :
    (m.Faces (.storeDecimal x) → m.step.outcome = .ok .proceed ∧
      ∃ digit : Fin 3 → UInt8, (∀ k, (digit k).toNat ≤ 9) ∧
        100 * (digit 0).toNat + 10 * (digit 1).toNat + (digit 2).toNat = (m.v x).toNat ∧
        m.StoresBlock digit m.i m.step.machine) ∧
    (m.Faces (.storeRegisters x) → m.step.outcome = .ok .proceed ∧
      m.StoresBlock (fun k : Fin (x.val + 1) => m.v (k.castLE x.isLt))
        (if m.dialect.transferMovesIndex = true then m.i.forward (x.val + 1) else m.i)
        m.step.machine) := by
  constructor
  · intro h
    obtain ⟨hout, hstep⟩ := h.step_eq rfl rfl
    obtain ⟨digit, hdigits, hsmall, hvalue⟩ := exists_decimal_digits (m.v x)
    have hblock := storesBlock_execute (i := .storeDecimal x) m.pc rfl hdigits (by decide)
    rw [m.i_execute m.pc rfl, ← hstep] at hblock
    exact ⟨hout, digit, hsmall, hvalue, hblock⟩
  · intro h
    obtain ⟨hout, hstep⟩ := h.step_eq rfl rfl
    have hregisters : m.storing (.storeRegisters x) =
        List.ofFn fun k : Fin (x.val + 1) => m.v (k.castLE x.isLt) := m.registers.v.take_toList x
    have hcount : x.val + 1 ≤ 4096 := Nat.le_trans x.isLt (by decide)
    have hblock := storesBlock_execute m.pc rfl hregisters hcount
    have hindex : (m.execute m.pc (.storeRegisters x)).machine.i =
        if m.dialect.transferMovesIndex = true then m.i.forward (x.val + 1) else m.i :=
      i_finishTransfer_eq _ x
    rw [hindex, ← hstep] at hblock
    exact ⟨hout, hblock⟩

/-- A machine about to carry out an instruction, with the index register at the last cell but one.
The registers hold the numbers from 235 on, and the dialect moves the index register. -/
def nearEnd (i : Instruction) : Machine :=
  { create .cosmacVip (.ofSeed 0) with
    registers := ⟨.ofFn fun k => 235 + k.toByte, .ofWord 0xFFE, .ofWord 0x200⟩ }.facing i.encode

/-- The third digit of 237, or the third register, which holds this number, is stored in the first
cell, and nothing is stored in the second one. -/
theorem nearEnd_stores_round :
    ((nearEnd (.storeDecimal (.ofNat 2))).Faces (.storeDecimal (.ofNat 2)) ∧
      (nearEnd (.storeDecimal (.ofNat 2))).step.machine.memory.read .zero = 7 ∧
      (nearEnd (.storeDecimal (.ofNat 2))).step.machine.i = .ofWord 0xFFE) ∧
    ((nearEnd (.storeRegisters (.ofNat 2))).Faces (.storeRegisters (.ofNat 2)) ∧
      (nearEnd (.storeRegisters (.ofNat 2))).step.machine.memory.read .zero = 237 ∧
      (nearEnd (.storeRegisters (.ofNat 2))).step.machine.memory.read (.ofWord 1) = 0 ∧
      (nearEnd (.storeRegisters (.ofNat 2))).step.machine.i = .ofWord 1) := by
  have hdecimal : (nearEnd (.storeDecimal (.ofNat 2))).Faces (.storeDecimal (.ofNat 2)) :=
    faces_facing rfl _
  have hregisters : (nearEnd (.storeRegisters (.ofNat 2))).Faces (.storeRegisters (.ofNat 2)) :=
    faces_facing rfl _
  obtain ⟨-, digit, hsmall, hvalue, hdigits⟩ := step_stores_block.1 hdecimal
  obtain ⟨-, hblock⟩ := step_stores_block.2 hregisters
  refine ⟨⟨hdecimal, ?_, hdigits.index⟩, hregisters, hblock.stored 2, ?_, hblock.index⟩
  · have hlast : (digit 2).toNat = 7 := by
      have hnumber : 100 * (digit 0).toNat + 10 * (digit 1).toNat + (digit 2).toNat = 237 := hvalue
      have hhundreds := hsmall 0
      have htens := hsmall 1
      have hones := hsmall 2
      omega
    exact (hdigits.stored 2).trans (UInt8.toNat_inj.1 hlast)
  · rw [hblock.others (.ofWord 1) (by decide)]
    decide +kernel

end Machine

end ChipEight
