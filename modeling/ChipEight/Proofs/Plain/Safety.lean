import ChipEight.Proofs.Plain.Sessions

/-!
# No operation fails

In bytes and words a machine could hold a program counter past the end of memory, a depth that
the stack does not have, or a register number of two digits. None of them ever comes up: what
`Machine.Fits` says holds of every new machine and is kept by every operation, whatever is in
memory and whatever the random bytes are. A machine that fits is the plain form of some machine,
and so no check of any operation on it fails.
-/

namespace ChipEight

namespace Plain

/-- A wait for a key that is about a register and a key which exist. -/
structure KeyWait.Fits (wait : KeyWait) : Prop where
  /-- The register has one digit. -/
  register_le : wait.register ≤ 0x0F
  /-- The key has one digit. -/
  latched_le : ∀ key ∈ wait.latched, key ≤ 0x0F

/-- A machine that points nowhere outside its memory, its stack and its registers. -/
structure Machine.Fits (m : Machine) : Prop where
  /-- The program counter is an address. -/
  counter_le : m.registers.pc ≤ 0x0FFF
  /-- The index register is an address. -/
  index_le : m.registers.i ≤ 0x0FFF
  /-- No more slots of the stack are in use than there are. -/
  depth_le : m.stack.sp ≤ 16
  /-- Every slot of the stack holds an address, whether it is in use or not. -/
  slot_le : ∀ slot ∈ m.stack.entries, slot ≤ 0x0FFF
  /-- A pending wait is about a register and a key which exist. -/
  keyWait_fits : ∀ wait ∈ m.keyWait, wait.Fits

/-- An address has three digits. -/
theorem toWord_le (a : Address) : a.toWord ≤ 0x0FFF := by
  have hlt := a.isLt
  rw [UInt16.le_iff_toNat_le, Address.toNat_toWord]
  exact Nat.le_of_lt_succ hlt

/-- A word of three digits is the word of an address. -/
theorem toWord_ofWord_of_le {word : UInt16} (h : word ≤ 0x0FFF) :
    (Address.ofWord word).toWord = word := by
  have hle : word.toNat ≤ 0x0FFF := UInt16.le_iff_toNat_le.1 h
  apply UInt16.toNat_inj.1
  rw [Address.toNat_toWord]
  exact Nat.mod_eq_of_lt (Nat.lt_succ_of_le hle)

/-- A byte of one digit is the byte of a digit. -/
theorem toByte_ofByte_of_le {byte : UInt8} (h : byte ≤ 0x0F) :
    (Nibble.ofByte byte).toByte = byte := by
  have hle : byte.toNat ≤ 0x0F := UInt8.le_iff_toNat_le.1 h
  apply UInt8.toNat_inj.1
  rw [Nibble.toNat_toByte]
  exact Nat.mod_eq_of_lt (Nat.lt_succ_of_le hle)

section ofMachine

variable (random : Nat → UInt8) (m : ChipEight.Machine)

/-- The plain form of a machine fits. -/
theorem fits_ofMachine : (ofMachine random m).Fits where
  counter_le := toWord_le m.pc
  index_le := toWord_le m.i
  depth_le := by
    have hdepth : (ofMachine random m).stack.sp.toNat = m.stack.depth := toNat_sp_ofStack m.stack
    rw [UInt8.le_iff_toNat_le, hdepth]
    exact m.stack.depth_le
  slot_le := by
    intro slot hslot
    obtain ⟨a, -, rfl⟩ := Vector.mem_map.1 hslot
    exact toWord_le a
  keyWait_fits := by
    intro wait hwait
    obtain ⟨original, -, rfl⟩ := Option.mem_map.1 hwait
    refine ⟨toByte_le original.register, fun key hkey => ?_⟩
    obtain ⟨digit, -, rfl⟩ := Option.mem_map.1 hkey
    exact toByte_le digit

end ofMachine

/-- The word of a row of pixels. -/
def toRow (row : Vector Bool 64) : BitVec 64 :=
  (BitVec.ofBoolListBE row.toList).cast Vector.length_toList

/-- The pixels of the word are those of the row. -/
theorem ofRow_toRow (row : Vector Bool 64) : ofRow (toRow row) = row := by
  refine Vector.ext fun px hpx => ?_
  have hlt : px < row.toList.length := by
    rw [Vector.length_toList]
    exact hpx
  rw [ofRow, Vector.getElem_ofFn, toRow, BitVec.getMsbD_cast, BitVec.getMsbD_ofBoolListBE,
    List.getD_eq_getElem?_getD, List.getElem?_eq_getElem hlt, Option.getD_some,
    Vector.getElem_toList]

/-- All pixels are those of a screen. -/
theorem exists_ofScreen (pixels : Pixels) : ∃ s, ofScreen s = pixels := by
  refine ⟨⟨pixels.map toRow⟩, Vector.ext fun y hy => ?_⟩
  rw [ofScreen, Vector.getElem_map, Vector.getElem_map, ofRow_toRow]

/-- A stack with no more slots in use than there are, and with addresses in them, is the plain
form of a stack. -/
theorem exists_ofStack {s : CallStack} (hdepth : s.sp ≤ 16)
    (hslots : ∀ slot ∈ s.entries, slot ≤ 0x0FFF) : ∃ original, ofStack original = s := by
  have hle : s.sp.toNat ≤ 16 := UInt8.le_iff_toNat_le.1 hdepth
  have hentries : (s.entries.map Address.ofWord).map Address.toWord = s.entries := by
    refine Vector.ext fun k hk => ?_
    rw [Vector.getElem_map, Vector.getElem_map]
    exact toWord_ofWord_of_le (hslots s.entries[k] (Vector.getElem_mem hk))
  refine ⟨⟨s.entries.map Address.ofWord, s.sp.toNat, hle⟩, ?_⟩
  rw [ofStack, hentries, UInt8.ofNat_toNat]

/-- A wait that fits is the plain form of a wait. -/
theorem KeyWait.Fits.exists_ofKeyWait {wait : KeyWait} (h : wait.Fits) :
    ∃ original, ofKeyWait original = wait := by
  refine ⟨⟨.ofByte wait.register, wait.latched.map Nibble.ofByte⟩, ?_⟩
  obtain ⟨register, latched⟩ := wait
  have hlatched : (latched.map Nibble.ofByte).map Nibble.toByte = latched := by
    cases latched with
    | none => rfl
    | some key => exact congrArg some (toByte_ofByte_of_le (h.latched_le key rfl))
  rw [ofKeyWait, hlatched, toByte_ofByte_of_le h.register_le]

namespace Machine

variable {m : Machine}

/-- A machine that fits is the plain form of a machine. -/
theorem Fits.exists_ofMachine (h : m.Fits) :
    ∃ random original, ofMachine random original = m := by
  obtain ⟨screen, hscreen⟩ := exists_ofScreen m.pixels
  obtain ⟨stack, hstack⟩ := exists_ofStack h.depth_le h.slot_le
  have hkeyWait : ∃ wait : Option ChipEight.KeyWait, wait.map ofKeyWait = m.keyWait := by
    cases hwait : m.keyWait with
    | none => exact ⟨none, rfl⟩
    | some wait =>
      obtain ⟨original, horiginal⟩ := (h.keyWait_fits wait hwait).exists_ofKeyWait
      exact ⟨some original, congrArg some horiginal⟩
  obtain ⟨keyWait, hkeyWait⟩ := hkeyWait
  refine ⟨m.random,
          { memory := ⟨m.memory⟩,
            registers := ⟨⟨m.registers.v⟩, .ofWord m.registers.i, .ofWord m.registers.pc⟩,
            stack, timers := m.timers, screen, keypad := ⟨⟨m.keys⟩⟩, keyWait,
            dialect := m.dialect, random := .ofSeed 0 }, ?_⟩
  rw [ofMachine, ofRegisters, toWord_ofWord_of_le h.counter_le, toWord_ofWord_of_le h.index_le,
    hstack, hscreen, hkeyWait]

/-- On a machine that fits a step succeeds and leaves a machine that fits. -/
theorem Fits.step (h : m.Fits) : ∃ next outcome, m.step = some (next, outcome) ∧ next.Fits := by
  obtain ⟨random, original, rfl⟩ := h.exists_ofMachine
  cases hwait : original.keyWait with
  | some wait => exact ⟨_, _, step_of_keyWait _ _ hwait, fits_ofMachine _ _⟩
  | none =>
    have hexecute := execute_ofMachine random original original.pc original.instruction
    obtain ⟨next, hnext⟩ := settle_ofMachine _ _ original.pc _
    have hstep := step_of_execute _ _ hwait hexecute
    rw [hnext] at hstep
    exact ⟨_, _, hstep, fits_ofMachine _ next⟩

/-- On a machine that fits every operation succeeds and leaves a machine that fits. -/
theorem Fits.perform (h : m.Fits) (operation : Operation) :
    ∃ next answer, m.perform operation = some (next, answer) ∧ next.Fits := by
  by_cases hstep : operation = .step
  · obtain ⟨next, outcome, heq, hfits⟩ := h.step
    refine ⟨next, .stepped outcome, ?_, hfits⟩
    rw [hstep, Machine.perform, heq]
    rfl
  · obtain ⟨random, original, rfl⟩ := h.exists_ofMachine
    exact ⟨_, _, perform_ofMachine _ _ hstep, fits_ofMachine _ _⟩

/-- On a machine that fits every list of operations succeeds and leaves a machine that fits. -/
theorem Fits.performAll (h : m.Fits) (session : List Operation) :
    ∃ next, m.performAll session = some next ∧ next.Fits := by
  induction session generalizing m with
  | nil => exact ⟨m, rfl, h⟩
  | cons first rest ih =>
    obtain ⟨next, answer, hperform, hnext⟩ := h.perform first
    obtain ⟨final, hfinal, hfits⟩ := ih hnext
    refine ⟨final, ?_, hfits⟩
    rw [Machine.performAll, List.foldlM_cons, hperform]
    exact hfinal

/-- What is in memory does not matter. -/
theorem Fits.with_memory (h : m.Fits) (cells : Vector UInt8 4096) :
    Fits { m with memory := cells } :=
  ⟨h.counter_le, h.index_le, h.depth_le, h.slot_le, h.keyWait_fits⟩

/-- What a session leaves of a new machine. -/
def run (dialect : Dialect) (random : Nat → UInt8) (session : List Operation) : Option Machine :=
  (create dialect random).bind fun first => first.performAll session

end Machine

/-- From a new machine every session succeeds, in any dialect and with any random bytes. It
leaves a machine that fits, on which every operation would succeed and leave one that fits,
whatever were in memory. With the random bytes of a generator it is the plain form of what the
session makes of the machine with that generator. -/
theorem session_fits (dialect : Dialect) (session : List Operation) :
    (∀ random, ∃ m, Machine.run dialect random session = some m ∧ m.Fits ∧
      ∀ cells operation, ∃ next answer,
        Machine.perform { m with memory := cells } operation = some (next, answer) ∧
          next.Fits) ∧
    ∀ generator : RandomStream, Machine.run dialect generator.bytes session =
      some (withOwnBytes ((ChipEight.Machine.create dialect generator).performAll session)) := by
  constructor
  · intro random
    have hcreate : Machine.create dialect random =
        some (ofMachine random (.create dialect (.ofSeed 0))) :=
      create_ofMachine random dialect (.ofSeed 0)
    obtain ⟨m, hrun, hfits⟩ :=
      (fits_ofMachine random (.create dialect (.ofSeed 0))).performAll session
    refine ⟨m, ?_, hfits, fun cells operation => (hfits.with_memory cells).perform operation⟩
    rw [Machine.run, hcreate]
    exact hrun
  · intro generator
    have hcreate : Machine.create dialect generator.bytes =
        some (withOwnBytes (.create dialect generator)) := create_ofMachine _ dialect generator
    rw [Machine.run, hcreate]
    exact performAll_withOwnBytes (.create dialect generator) session

end Plain

end ChipEight
