import ChipEight.Proofs.Transfers

/-!
# Storing registers and loading them again

One instruction stores the registers up to the one that it names from the index register on, another
loads them from there. Both count the same cells, round the end of memory if need be, and both move
the index register alike. So each undoes the other: stored registers are loaded again as they were,
whatever has become of the machine as long as its memory is the same and the index register points
where it did, and bytes that were loaded are stored where they came from, which leaves memory as it
is.
-/

namespace ChipEight

namespace Machine

section transfer

variable (m : Machine) (x : Nibble) (place : Address)

/-- What the registers hold after some of them were loaded. -/
theorem v_loadRegisters (j : Nibble) : (m.execute place (.loadRegisters x)).machine.v j =
    if j ≤ x then m.memory.read (m.i.forward j.val) else m.v j := by
  have hload : (m.advance.loadBytes x).v j =
      if j ≤ x then m.memory.read (m.i.forward j.val) else m.v j := NibbleTable.get_ofFn _ j
  exact ((m.advance.loadBytes x).v_finishTransfer x j).trans hload

/-- Where the index register points after registers were stored or loaded. -/
theorem i_transfer : ∀ i ∈ [Instruction.storeRegisters x, .loadRegisters x],
    (m.execute place i).machine.i =
      if m.dialect.transferMovesIndex = true then m.i.forward (x.val + 1) else m.i := by
  intro i hi
  simp only [List.mem_cons, List.not_mem_nil, or_false] at hi
  rcases hi with rfl | rfl
  · exact i_finishTransfer_eq _ x
  · exact i_finishTransfer_eq _ x

/-- Registers are stored as a block, one byte for each of them. -/
theorem storesBlock_storeRegisters :
    m.StoresBlock (fun k : Fin (x.val + 1) => m.v (k.castLE x.isLt))
      (m.execute place (.storeRegisters x)).machine.i
      (m.execute place (.storeRegisters x)).machine :=
  storesBlock_execute place rfl (m.registers.v.take_toList x)
    (Nat.le_trans x.isLt (by decide))

variable {m x}

/-- A stored register is in its cell. -/
theorem read_storeRegisters {j : Nibble} (h : j ≤ x) :
    (m.execute place (.storeRegisters x)).machine.memory.read (m.i.forward j.val) = m.v j :=
  (m.storesBlock_storeRegisters x place).stored ⟨j.val, Nat.lt_succ_of_le h⟩

/-- Registers that hold the bytes of their cells are stored without any change to memory. -/
theorem memory_storeRegisters (h : ∀ j ≤ x, m.v j = m.memory.read (m.i.forward j.val)) :
    (m.execute place (.storeRegisters x)).machine.memory = m.memory := by
  have hblock := m.storesBlock_storeRegisters x place
  refine Memory.eq_of_read_eq fun a => ?_
  by_cases hcell : ∃ k : Fin (x.val + 1), m.i.forward k = a
  · obtain ⟨k, rfl⟩ := hcell
    rw [hblock.stored k]
    exact h (k.castLE x.isLt) (Nat.le_of_lt_succ k.isLt)
  · exact hblock.others a fun k hk => hcell ⟨k, hk⟩

end transfer

/-- What loading the registers up to `x` makes of a machine that finds, from its index register on,
the registers that another machine has stored. -/
structure Restores (m n : Machine) (x : Nibble) (after : Machine) : Prop where
  /-- The loaded registers hold what they held when they were stored. -/
  loaded : ∀ j ≤ x, after.v j = m.v j
  /-- The registers behind them hold what they held before the load. -/
  kept : ∀ j, ¬j ≤ x → after.v j = n.v j

variable {m n : Machine} {x : Nibble}

/-- Registers that were stored are loaded again, whatever has become of the machine but for its
memory and its index register. -/
theorem restores_loadRegisters {place later : Address}
    (hmemory : n.memory = (m.execute place (.storeRegisters x)).machine.memory) (hi : n.i = m.i) :
    m.Restores n x (n.execute later (.loadRegisters x)).machine := by
  refine ⟨fun j hj => ?_, fun j hj => ?_⟩
  · rw [v_loadRegisters, if_pos hj, hi, hmemory, read_storeRegisters place hj]
  · rw [v_loadRegisters, if_neg hj]

/-- Registers that were loaded are stored where they came from, which changes no memory. -/
theorem memory_storeRegisters_of_loaded {place later : Address}
    (hmemory : n.memory = (m.execute place (.loadRegisters x)).machine.memory) (hi : n.i = m.i)
    (hv : ∀ j ≤ x, n.v j = (m.execute place (.loadRegisters x)).machine.v j) :
    (n.execute later (.storeRegisters x)).machine.memory = m.memory := by
  have hload : (m.execute place (.loadRegisters x)).machine.memory = m.memory :=
    m.memory_execute place (.loadRegisters x)
  rw [memory_storeRegisters later, hmemory, hload]
  intro j hj
  rw [hv j hj, v_loadRegisters, if_pos hj, hmemory, hload, hi]

/-- Storing the registers up to one of them and loading them are inverse to each other, wherever the
two instructions lie, as long as the second one finds the index register where the first one found
it. A load gives the stored registers back if memory is what the first instruction left, and leaves
the others. Storing what was loaded leaves all of memory as it was. Neither instruction fails, and
in one dialect both leave the index register at the same address. So it is of two steps that carry
them out. -/
theorem transfers_undo_each_other (hi : n.i = m.i) :
    (∀ place later, n.memory = (m.execute place (.storeRegisters x)).machine.memory →
      m.Restores n x (n.execute later (.loadRegisters x)).machine) ∧
    (∀ place later, n.memory = (m.execute place (.loadRegisters x)).machine.memory →
      (∀ j ≤ x, n.v j = (m.execute place (.loadRegisters x)).machine.v j) →
      (n.execute later (.storeRegisters x)).machine.memory = m.memory) ∧
    (∀ place, ∀ i ∈ [Instruction.storeRegisters x, .loadRegisters x],
      (m.execute place i).outcome = .ok .proceed ∧
      (m.execute place i).machine.i =
        if m.dialect.transferMovesIndex = true then m.i.forward (x.val + 1) else m.i) ∧
    (m.Faces (.storeRegisters x) → n.Faces (.loadRegisters x) →
      n.memory = m.step.machine.memory → m.Restores n x n.step.machine ∧
        (n.dialect = m.dialect → n.step.machine.i = m.step.machine.i)) ∧
    (m.Faces (.loadRegisters x) → n.Faces (.storeRegisters x) →
      n.memory = m.step.machine.memory → (∀ j ≤ x, n.v j = m.step.machine.v j) →
      n.step.machine.memory = m.memory ∧
        (n.dialect = m.dialect → n.step.machine.i = m.step.machine.i)) := by
  have hsame : n.dialect = m.dialect → ∀ i ∈ [Instruction.storeRegisters x, .loadRegisters x],
      ∀ i' ∈ [Instruction.storeRegisters x, .loadRegisters x],
      (n.execute n.pc i).machine.i = (m.execute m.pc i').machine.i := by
    intro hdialect i hmem i' hmem'
    rw [i_transfer _ _ _ i hmem, i_transfer _ _ _ i' hmem', hdialect, hi]
  refine ⟨fun place later hmemory => restores_loadRegisters hmemory hi,
    fun place later hmemory hv => memory_storeRegisters_of_loaded hmemory hi hv,
    fun place i hmem => ⟨?_, m.i_transfer x place i hmem⟩, fun hm hn hmemory => ?_,
    fun hm hn hmemory hv => ?_⟩
  · simp only [List.mem_cons, List.not_mem_nil, or_false] at hmem
    rcases hmem with rfl | rfl
    · rfl
    · rfl
  · rw [(hm.step_eq rfl rfl).2] at hmemory ⊢
    rw [(hn.step_eq rfl rfl).2]
    exact ⟨restores_loadRegisters hmemory hi, fun hd => hsame hd _ (by simp) _ (by simp)⟩
  · rw [(hm.step_eq rfl rfl).2] at hmemory hv ⊢
    rw [(hn.step_eq rfl rfl).2]
    exact ⟨memory_storeRegisters_of_loaded hmemory hi hv,
      fun hd => hsame hd _ (by simp) _ (by simp)⟩

/-- A machine whose program stores three registers and loads them again, with the index register at
the last cell but one. The registers hold the numbers from 235 on. -/
def saving : Machine :=
  { create .cosmacVip (.ofSeed 0) with
    memory := Memory.initial.writeWord (.ofWord 0x202) 0xF265
    registers := ⟨.ofFn fun k => 235 + k.toByte, .ofWord 0xFFE, .ofWord 0x200⟩ }.facing
      (Instruction.storeRegisters (.ofNat 2)).encode

/-- The same machine when it has stored the registers, all of which have been cleared since, and the
index register is back at the last cell but one. -/
def saved : Machine :=
  { saving.step.machine with registers := ⟨.replicate 0, saving.i, .ofWord 0x202⟩ }

/-- Three registers are restored, the fourth stays cleared, and the index register ends up in the
second cell, as it did before. -/
theorem saved_is_restored :
    saving.Faces (.storeRegisters (.ofNat 2)) ∧ saved.Faces (.loadRegisters (.ofNat 2)) ∧
      saved.step.machine.v (.ofNat 0) = 235 ∧ saved.step.machine.v (.ofNat 2) = 237 ∧
      saved.step.machine.v (.ofNat 3) = 0 ∧ saved.step.machine.i = saving.step.machine.i := by
  have hstore : saving.Faces (.storeRegisters (.ofNat 2)) := faces_facing rfl _
  have hload : saved.Faces (.loadRegisters (.ofNat 2)) :=
    ⟨by decide +kernel, by decide +kernel⟩
  have hi : saved.i = saving.i := by rw [i, saved]
  have hmemory : saved.memory = saving.step.machine.memory := by rw [saved]
  obtain ⟨hrestores, hindex⟩ := (transfers_undo_each_other hi).2.2.2.1 hstore hload hmemory
  refine ⟨hstore, hload, (hrestores.loaded _ (by decide)).trans ?_,
    (hrestores.loaded _ (by decide)).trans ?_, (hrestores.kept _ (by decide)).trans ?_,
    hindex ?_⟩
  all_goals decide +kernel

end Machine

end ChipEight
