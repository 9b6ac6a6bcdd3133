import ChipEight.Proofs.Effects
import ChipEight.Proofs.Loading

/-!
# Where bytes are stored

Memory is a ring. Bytes that are stored one behind the other are read back from there, round the end
if need be, and every other cell keeps what it has. Two instructions store bytes, from the index
register on, and a host can store one; a load fills the program area. So a cell below the program
area keeps its byte through every session that does not store there.
-/

namespace ChipEight

namespace Address

/-- Different distances of less than a whole round lead to different cells. -/
theorem forward_inj {a : Address} {j k : Nat} (hj : j < 4096) (hk : k < 4096)
    (h : a.forward j = a.forward k) : j = k := by
  have hval : (a.val + j) % 4096 = (a.val + k) % 4096 := congrArg Fin.val h
  omega

end Address

namespace Memory

variable {a b : Address} {bytes : List UInt8}

/-- Where no byte is stored, memory keeps what it has. -/
theorem read_writeBytes_of_apart (m : Memory) (h : ∀ k < bytes.length, a.forward k ≠ b) :
    (m.writeBytes a bytes).read b = m.read b := by
  induction bytes generalizing m a with
  | nil => rfl
  | cons byte rest ih =>
    have hfirst : a.forward 0 ≠ b := h 0 (Nat.succ_pos rest.length)
    have hplace : a.forward 0 = a := Fin.ext (Nat.mod_eq_of_lt a.isLt)
    rw [hplace] at hfirst
    have hrest : ∀ k < rest.length, (a.forward 1).forward k ≠ b := by
      intro k hk
      rw [Address.forward_forward, Nat.add_comm]
      exact h (k + 1) (Nat.succ_lt_succ hk)
    rw [writeBytes, ih _ hrest, read_write, if_neg hfirst]

/-- Bytes that do not fill memory more than once are read back from where they were stored. -/
theorem read_writeBytes_forward (m : Memory) (hlength : bytes.length ≤ 4096) {k : Nat}
    (hk : k < bytes.length) : (m.writeBytes a bytes).read (a.forward k) = bytes[k] := by
  induction bytes generalizing m a k with
  | nil => exact absurd hk (Nat.not_lt_zero k)
  | cons byte rest ih =>
    rw [List.length_cons] at hlength hk
    cases k with
    | zero =>
      have hplace : a.forward 0 = a := Fin.ext (Nat.mod_eq_of_lt a.isLt)
      have hapart : ∀ j < rest.length, (a.forward 1).forward j ≠ a.forward 0 := by
        intro j hj hsame
        rw [Address.forward_forward] at hsame
        have hdistance := Address.forward_inj (by omega) (by omega) hsame
        omega
      rw [writeBytes, read_writeBytes_of_apart _ hapart, hplace, read_write, if_pos rfl,
        List.getElem_cons_zero]
    | succ k =>
      have hplace : a.forward (k + 1) = (a.forward 1).forward k := by
        rw [Address.forward_forward, Nat.add_comm]
      rw [writeBytes, hplace, List.getElem_cons_succ]
      exact ih _ (by omega) (by omega)

/-- A byte that is read along with others is the one at its place. -/
theorem getElem_readBytes (m : Memory) (a : Address) {count k : Nat}
    (hk : k < (m.readBytes a count).length) :
    (m.readBytes a count)[k] = m.read (a.forward k) := by
  simp only [readBytes, List.getElem_map, List.getElem_range]

/-- Stored bytes are read back as a whole. -/
theorem readBytes_writeBytes (m : Memory) (a : Address) (h : bytes.length ≤ 4096) :
    (m.writeBytes a bytes).readBytes a bytes.length = bytes := by
  refine List.ext_getElem (length_readBytes _ _ _) fun k hk hbytes => ?_
  rw [getElem_readBytes, read_writeBytes_forward m h hbytes]

/-- Fewer bytes from further on are a part of those that are read from before. -/
theorem readBytes_forward (m : Memory) (a : Address) {first count total : Nat}
    (h : first + count ≤ total) :
    m.readBytes (a.forward first) count = ((m.readBytes a total).drop first).take count := by
  have hlength : (((m.readBytes a total).drop first).take count).length = count := by
    rw [List.length_take, List.length_drop, length_readBytes]
    omega
  refine List.ext_getElem ((length_readBytes _ _ _).trans hlength.symm) fun k hk hpart => ?_
  rw [getElem_readBytes, List.getElem_take, List.getElem_drop, getElem_readBytes,
    Address.forward_forward]

end Memory

namespace Machine

variable {m : Machine}

/-- The bytes that an instruction stores from the index register on. -/
def storing (m : Machine) : Instruction → List UInt8
  | .storeDecimal x => decimalDigits (m.v x)
  | .storeRegisters x => m.registers.v.toList.take (x.val + 1)
  | _ => []

/-- What memory holds after an instruction. -/
theorem memory_execute (m : Machine) (place : Address) (instruction : Instruction) :
    (m.execute place instruction).machine.memory =
      m.memory.writeBytes m.i (m.storing instruction) := by
  have hchanged := m.execute_changed place instruction
  cases instruction with
  | storeDecimal x => rfl
  | storeRegisters x =>
    obtain ⟨r, h⟩ := finishTransfer_registers
      (m.advance.storeBytes (m.registers.v.toList.take (x.val + 1))) x
    exact congrArg memory h
  | _ =>
    generalize (m.execute place _).machine = after at hchanged ⊢
    cases hchanged <;> rfl

/-- The cells that an operation stores bytes in, apart from loads: those of `FX33` and `FX55`, if it
carries out one of them, and the one that a host stores a byte in. -/
def storedAt (m : Machine) (operation : Operation) : List Address :=
  match operation with
  | .write word _ => [.ofWord word]
  | _ =>
    match m.completed operation with
    | some instruction => (List.range (m.storing instruction).length).map m.i.forward
    | none => []

/-- A cell below the program area keeps its byte through an operation that does not store there. -/
theorem read_perform_of_not_storedAt {operation : Operation} {b : Address} (hbelow : b.val < 0x200)
    (h : b ∉ m.storedAt operation) :
    (m.perform operation).machine.memory.read b = m.memory.read b := by
  have hloads : operation.loads = true →
      (m.perform operation).machine.memory.read b = m.memory.read b := by
    intro hloads
    obtain ⟨program, cells, -, hcells, hmachine⟩ | ⟨-, hmachine⟩ := m.machine_of_attempt hloads
    · rw [hmachine]
      exact hcells.below b hbelow
    · rw [hmachine]
  cases operation with
  | load program => exact hloads rfl
  | loadFile path content => exact hloads rfl
  | write word value =>
    have hother : Address.ofWord word ≠ b := fun hsame => h (List.mem_singleton.2 hsame.symm)
    exact (m.memory.read_write _ b value).trans (if_neg hother)
  | step =>
    by_cases hmemory : m.step.machine.memory = m.memory
    · exact congrArg (Memory.read · b) hmemory
    · obtain ⟨i, after, hdone, -, -⟩ := changed_of_step_ne memory (fun _ _ => rfl) hmemory
      rw [machine_of_completed hdone, memory_execute]
      refine Memory.read_writeBytes_of_apart _ fun k hk hsame => h ?_
      simp only [storedAt, hdone]
      exact List.mem_map.2 ⟨k, List.mem_range.2 hk, hsame⟩
  | _ => rfl

/-- A cell below the program area keeps its byte through a session that does not store there. -/
theorem read_performAll_of_not_storedAt {session : List Operation} {b : Address}
    (hbelow : b.val < 0x200)
    (h : ∀ i operation, session[i]? = some operation →
      b ∉ (m.before session i).storedAt operation) :
    (m.performAll session).memory.read b = m.memory.read b := by
  induction session generalizing m with
  | nil => rfl
  | cons first rest ih =>
    have hfirst : b ∉ m.storedAt first := h 0 first rfl
    rw [performAll_cons, ih fun i operation hoperation => h (i + 1) operation hoperation]
    exact read_perform_of_not_storedAt hbelow hfirst

end Machine

end ChipEight
