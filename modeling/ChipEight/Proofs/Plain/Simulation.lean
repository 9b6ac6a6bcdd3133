import ChipEight.Proofs.Plain.Machine

/-!
# Machines run like their plain form

Whatever a host does to a machine, on the plain form of the machine it passes every check,
leaves the plain form of what the machine becomes, and answers the same. This is shown for each
part of an instruction, then for instructions, and then for all operations. The random bytes may
be any: a random instruction does what storing the next byte under its mask does.
-/

namespace ChipEight

/-- The low four bits of a byte are the digit that it names. -/
theorem Nibble.toByte_ofByte (b : UInt8) : (Nibble.ofByte b).toByte = b &&& 0x0F := by
  apply UInt8.toNat_inj.1
  rw [Nibble.toNat_toByte, UInt8.toNat_and]
  exact (Nat.and_two_pow_sub_one_eq_mod b.toNat 4).symm

/-- Storing one more byte behind others. -/
theorem Memory.writeBytes_concat (m : Memory) (a : Address) (bytes : List UInt8) (last : UInt8) :
    m.writeBytes a (bytes ++ [last]) =
      (m.writeBytes a bytes).write (a.forward bytes.length) last := by
  induction bytes generalizing m a with
  | nil =>
    have hzero : a.forward 0 = a := Fin.ext (Nat.mod_eq_of_lt a.isLt)
    rw [List.length_nil, hzero]
    rfl
  | cons first rest ih =>
    rw [List.cons_append, writeBytes, ih, Address.forward_forward, List.length_cons,
      Nat.add_comm 1]
    rfl

namespace Plain

/-- The dark screen has no lit pixel. -/
theorem ofScreen_dark : ofScreen .dark = .replicate 32 (.replicate 64 false) := by
  refine Vector.ext fun y hy => Vector.ext fun px hpx => ?_
  simp only [ofScreen, ofRow, Screen.dark, Vector.getElem_map, Vector.getElem_replicate,
    Vector.getElem_ofFn]
  exact BitVec.getMsbD_zero

/-- Adding a byte to an address goes forward. -/
theorem ofWord_add_byte (a : Address) (offset : UInt8) :
    Address.ofWord (a.toWord + offset.toUInt16) = a.forward offset.toNat := by
  have hword : offset.toUInt16 = .ofNat offset.toNat := by
    apply UInt16.toNat_inj.1
    have hlt := offset.toNat_lt
    rw [UInt8.toNat_toUInt16, UInt16.toNat_ofNat']
    omega
  rw [hword, Address.ofWord_add, Address.ofWord_toWord]

/-- The instruction that is left to carry out when the next random byte is known. -/
def given (byte : UInt8) : ChipEight.Instruction → ChipEight.Instruction
  | .random x mask => .setByte x (byte &&& mask)
  | instruction => instruction

/-- The random bytes that are still to come after an instruction. -/
def left (bytes : Nat → UInt8) : ChipEight.Instruction → Nat → UInt8
  | .random _ _ => fun k => bytes (k + 1)
  | _ => bytes

section parts

variable (bytes : Nat → UInt8) (m : ChipEight.Machine)

/-- The plain form has the same memory cells. -/
theorem memory_ofMachine : (ofMachine bytes m).memory = m.memory.cells := rfl

/-- The plain form has the same registers. -/
theorem registers_ofMachine : (ofMachine bytes m).registers = ofRegisters m.registers := rfl

/-- The plain form has the same index register. -/
theorem i_ofMachine : (ofMachine bytes m).registers.i = m.i.toWord := rfl

/-- The plain form has the same program counter. -/
theorem pc_ofMachine : (ofMachine bytes m).registers.pc = m.pc.toWord := rfl

/-- The plain form has the same stack. -/
theorem stack_ofMachine : (ofMachine bytes m).stack = ofStack m.stack := rfl

/-- The plain form has the same dialect. -/
theorem dialect_ofMachine : (ofMachine bytes m).dialect = m.dialect := rfl

/-- Reading a register agrees. -/
theorem v_ofMachine (x : Nibble) : (ofMachine bytes m).v x.toByte = some (m.v x) :=
  get_ofRegisters m.registers x

/-- Writing a register agrees. -/
theorem setV_ofMachine (x : Nibble) (value : UInt8) :
    (ofMachine bytes m).setV x.toByte value = some (ofMachine bytes (m.setV x value)) := by
  rw [Machine.setV, registers_ofMachine, set_ofRegisters]
  rfl

/-- Writing the flag agrees. -/
theorem setFlag_ofMachine (condition : Bool) :
    (ofMachine bytes m).setFlag condition = some (ofMachine bytes (m.setFlag condition)) := by
  rw [Machine.setFlag, registers_ofMachine, setFlag_ofRegisters]
  rfl

/-- Writing the index register agrees. -/
theorem setIndex_ofMachine (word : UInt16) :
    (ofMachine bytes m).setIndex word = ofMachine bytes (m.pointAt (.ofWord word)) := by
  rw [Machine.setIndex, registers_ofMachine, setIndex_ofRegisters]
  rfl

/-- Writing the program counter agrees. -/
theorem setCounter_ofMachine (word : UInt16) :
    (ofMachine bytes m).setCounter word = ofMachine bytes (m.goTo (.ofWord word)) := by
  rw [Machine.setCounter, registers_ofMachine, setCounter_ofRegisters]
  rfl

/-- Going to an address agrees. -/
theorem goTo_ofMachine (target : Address) :
    (ofMachine bytes m).setCounter target.toWord = ofMachine bytes (m.goTo target) := by
  rw [setCounter_ofMachine, Address.ofWord_toWord]

/-- Pointing at an address agrees. -/
theorem pointAt_ofMachine (target : Address) :
    (ofMachine bytes m).setIndex target.toWord = ofMachine bytes (m.pointAt target) := by
  rw [setIndex_ofMachine, Address.ofWord_toWord]

/-- Moving on agrees. -/
theorem advance_ofMachine : (ofMachine bytes m).advance = ofMachine bytes m.advance := by
  rw [Machine.advance, registers_ofMachine, advance_ofRegisters]
  rfl

/-- Skipping agrees. -/
theorem skipIf_ofMachine (condition : Bool) :
    (ofMachine bytes m).skipIf condition = ofMachine bytes (m.skipIf condition) := by
  cases condition with
  | false => rfl
  | true => exact advance_ofMachine bytes m

/-- Combining registers agrees. -/
theorem combine_ofMachine (op : Alu) (x y : Nibble) :
    (ofMachine bytes m).combine op x.toByte y.toByte =
      some (ofMachine bytes (m.combine op x y)) := by
  rw [Machine.combine, v_ofMachine, v_ofMachine]
  simp only [Option.bind_eq_bind, Option.bind_some]
  rw [setV_ofMachine, ChipEight.Machine.combine]
  simp only [Option.bind_some]
  rw [dialect_ofMachine]
  cases (op.apply m.dialect (m.v x) (m.v y)).flag with
  | none => rfl
  | some flag => exact setV_ofMachine bytes _ ChipEight.Registers.flag flag

/-- Storing a random byte is storing the next one of those to come. -/
theorem randomize_ofMachine (x : Nibble) (mask : UInt8) :
    (ofMachine bytes m).randomize x.toByte mask =
      some (ofMachine (fun k => bytes (k + 1)) (m.setV x (bytes 0 &&& mask))) :=
  setV_ofMachine (fun k => bytes (k + 1)) m x (bytes 0 &&& mask)

/-- Reading the sprite agrees. -/
theorem sprite_ofMachine (height : Nibble) :
    readBytes (ofMachine bytes m).memory (ofMachine bytes m).registers.i height.toByte.toNat =
      some (m.sprite height) := by
  have hread := readBytes_cells m.memory m.i.toWord height.val
  rw [Address.ofWord_toWord] at hread
  rw [height.toNat_toByte]
  exact hread

/-- Drawing agrees. -/
theorem draw_ofMachine (x y height : Nibble) :
    (ofMachine bytes m).draw x.toByte y.toByte height.toByte =
      some (ofMachine bytes (m.draw x y height)) := by
  have hheight := height.isLt
  have hlength : 32 + (m.sprite height).length ≤ sizeBound := by
    rw [ChipEight.Machine.sprite, Memory.length_readBytes]
    unfold sizeBound
    omega
  have hdraw : Plain.draw (ofMachine bytes m).pixels
      (if (ofMachine bytes m).dialect.clipsSprites then Edges.clip else .wrap) (m.v x).toNat
      (m.v y).toNat (m.sprite height) =
        some (ofScreen (m.screen.draw m.edges (m.v x).toNat (m.v y).toNat
          (m.sprite height)).screen,
          (m.screen.draw m.edges (m.v x).toNat (m.v y).toNat (m.sprite height)).erased) :=
    draw_ofScreen m.screen m.edges (m.v x).toNat (m.v y).toNat hlength
  rw [Machine.draw, v_ofMachine, v_ofMachine]
  simp only [Option.bind_eq_bind, Option.bind_some]
  rw [sprite_ofMachine]
  simp only [Option.bind_some]
  rw [hdraw, ChipEight.Machine.draw]
  simp only [Option.bind_some]
  generalize m.screen.draw m.edges (m.v x).toNat (m.v y).toNat (m.sprite height) = drawn
  rw [dialect_ofMachine]
  split
  · exact setFlag_ofMachine bytes { m with screen := drawn.screen } drawn.erased
  · rfl

/-- Asking for a key agrees. -/
theorem holdsKeyIn_ofMachine (x : Nibble) :
    (ofMachine bytes m).holdsKeyIn x.toByte = some (m.keypad.holds (.ofByte (m.v x))) := by
  rw [Machine.holdsKeyIn, v_ofMachine]
  simp only [Option.bind_eq_bind, Option.bind_some]
  rw [← Nibble.toByte_ofByte]
  exact getElem?_digit m.keypad.keys (.ofByte (m.v x))

/-- Polling agrees. -/
theorem poll_ofMachine (wait : ChipEight.KeyWait) :
    (ofMachine bytes m).poll (ofKeyWait wait) =
      some (ofMachine bytes (m.poll wait).1, (m.poll wait).2) := by
  obtain ⟨x, latched⟩ := wait
  cases latched with
  | none =>
    have hlowest : lowest (ofMachine bytes m).keys = some (m.keypad.lowest?.map Nibble.toByte) :=
      lowest_keys m.keypad
    rw [ofKeyWait, Machine.poll]
    simp only [Option.map_none, hlowest, Option.bind_eq_bind, Option.bind_some]
    rfl
  | some key =>
    have hheld : (ofMachine bytes m).keys[key.toByte.toNat]? = some (m.keypad.holds key) :=
      getElem?_digit m.keypad.keys key
    rw [ofKeyWait, Machine.poll, ChipEight.Machine.poll]
    simp only [Option.map_some, hheld, Option.bind_eq_bind, Option.bind_some]
    cases m.keypad.holds key with
    | true => rfl
    | false =>
      have hset : Machine.setV { ofMachine bytes m with keyWait := none } x.toByte key.toByte =
          some (ofMachine bytes ({ m with keyWait := none }.setV x key.toByte)) :=
        setV_ofMachine bytes { m with keyWait := none } x key.toByte
      rw [if_neg Bool.false_ne_true, if_neg Bool.false_ne_true, hset]
      rfl

/-- Pointing at a glyph agrees. -/
theorem pointAtGlyph_ofMachine (x : Nibble) :
    (ofMachine bytes m).pointAtGlyph x.toByte =
      some (ofMachine bytes (m.pointAt (Font.glyphAddress (.ofByte (m.v x))))) := by
  have hdigit := (Nibble.ofByte (m.v x)).isLt
  have hstart : Address.ofWord (.ofNat (0x50 + (Nibble.ofByte (m.v x)).val * 5)) =
      Font.glyphAddress (.ofByte (m.v x)) := by
    apply Fin.ext
    simp only [Address.ofWord, UInt16.toNat_ofNat', Font.glyphAddress, Font.start,
      Font.glyphHeight]
    omega
  rw [Machine.pointAtGlyph, v_ofMachine]
  simp only [Option.bind_eq_bind, Option.bind_some]
  rw [← Nibble.toByte_ofByte, Nibble.toNat_toByte, bounded_of_lt (by unfold sizeBound; omega)]
  simp only [Option.bind_some]
  rw [bounded_of_lt (by unfold sizeBound; omega)]
  simp only [Option.bind_some]
  rw [setIndex_ofMachine, hstart]

/-- Writing near the index register agrees. -/
theorem write_near_index (count : Nat) (cells : Memory) (value : UInt8) :
    write cells.cells ((ofMachine bytes m).registers.i + .ofNat count) value =
      some (cells.write (m.i.forward count) value).cells := by
  have hplace : Address.ofWord ((ofMachine bytes m).registers.i + .ofNat count) =
      m.i.forward count := by
    rw [i_ofMachine, Address.ofWord_add, Address.ofWord_toWord]
  rw [write_cells, hplace]

/-- Storing the digits of a byte agrees. -/
theorem storeDecimal_ofMachine (x : Nibble) :
    (ofMachine bytes m).storeDecimal x.toByte =
      some (ofMachine bytes (m.storeBytes (ChipEight.Machine.decimalDigits (m.v x)))) := by
  have hhere : m.i.forward 0 = m.i := Fin.ext (Nat.mod_eq_of_lt m.i.isLt)
  have hfirst : write m.memory.cells (ofMachine bytes m).registers.i (m.v x / 100) =
      some (m.memory.write m.i (m.v x / 100)).cells := by
    have hwrite := write_near_index bytes m 0 m.memory (m.v x / 100)
    rw [hhere, show UInt16.ofNat 0 = 0 from rfl, UInt16.add_zero] at hwrite
    exact hwrite
  have hsecond : ∀ cells : Memory, write cells.cells ((ofMachine bytes m).registers.i + 1)
      (m.v x / 10 % 10) = some (cells.write (m.i.forward 1) (m.v x / 10 % 10)).cells :=
    fun cells => write_near_index bytes m 1 cells (m.v x / 10 % 10)
  have hthird : ∀ cells : Memory, write cells.cells ((ofMachine bytes m).registers.i + 2)
      (m.v x % 10) = some (cells.write (m.i.forward 2) (m.v x % 10)).cells :=
    fun cells => write_near_index bytes m 2 cells (m.v x % 10)
  rw [Machine.storeDecimal, v_ofMachine, memory_ofMachine]
  simp only [Option.bind_eq_bind, Option.bind_some, hfirst, hsecond, hthird]
  rw [ChipEight.Machine.storeBytes, ChipEight.Machine.decimalDigits]
  simp only [Memory.writeBytes, Address.forward_forward]
  rfl

/-- Moving the index register after a transfer agrees. -/
theorem finishTransfer_ofMachine (x : Nibble) :
    (ofMachine bytes m).finishTransfer x.toByte = some (ofMachine bytes (m.finishTransfer x)) := by
  have hx := x.isLt
  rw [Machine.finishTransfer, ChipEight.Machine.finishTransfer, dialect_ofMachine]
  split
  · rw [x.toNat_toByte, bounded_of_lt (by omega)]
    simp only [Option.bind_eq_bind, Option.bind_some]
    rw [setIndex_ofMachine, i_ofMachine, Address.ofWord_add, Address.ofWord_toWord]
  · rfl

/-- Storing some registers, one after the other, agrees. -/
theorem store_loop {count : Nat} (h : count ≤ 16) :
    (List.range count).foldlM
      (fun cells k => do
        let byte ← (ofMachine bytes m).registers.v[k]?
        write cells ((ofMachine bytes m).registers.i + .ofNat k) byte)
      m.memory.cells =
    some (m.memory.writeBytes m.i (m.registers.v.toList.take count)).cells := by
  induction count with
  | zero => rfl
  | succ count ih =>
    have hlength : m.registers.v.toList.length = 16 := Vector.length_toList
    have hread : (ofMachine bytes m).registers.v[count]? = some m.registers.v.toList[count] := by
      have hlt : count < 16 := h
      have hvalues : (ofMachine bytes m).registers.v = m.registers.v.values := rfl
      rw [hvalues, Vector.getElem?_eq_getElem hlt]
      simp only [NibbleTable.toList, Vector.getElem_toList]
    rw [List.range_succ, List.foldlM_append, ih (by omega)]
    simp only [List.foldlM_cons, List.foldlM_nil, hread, Option.bind_eq_bind, Option.bind_some,
      write_near_index]
    rw [List.take_add_one, List.getElem?_eq_getElem (by omega), Option.toList_some,
      Memory.writeBytes_concat, List.length_take, Nat.min_eq_left (by omega)]
    rfl

/-- Storing registers agrees. -/
theorem storeRegisters_ofMachine (x : Nibble) :
    (ofMachine bytes m).storeRegisters x.toByte = some (ofMachine bytes
      ((m.storeBytes (m.registers.v.toList.take (x.val + 1))).finishTransfer x)) := by
  rw [Machine.storeRegisters, memory_ofMachine, x.toNat_toByte, store_loop bytes m x.isLt]
  simp only [Option.bind_eq_bind, Option.bind_some]
  exact finishTransfer_ofMachine bytes (m.storeBytes (m.registers.v.toList.take (x.val + 1))) x

/-- Loading some registers, one after the other, agrees. -/
theorem load_loop {count : Nat} (h : count ≤ 16) :
    (List.range count).foldlM
      (fun v k => do
        let byte ← read (ofMachine bytes m).memory ((ofMachine bytes m).registers.i + .ofNat k)
        store v k byte)
      m.registers.v.values =
    some (Vector.ofFn fun k : Fin 16 =>
      if k.val < count then m.memory.read (m.i.forward k.val) else m.v k) := by
  induction count with
  | zero =>
    refine congrArg some (Vector.ext fun k hk => ?_)
    rw [Vector.getElem_ofFn, if_neg (Nat.not_lt_zero k)]
    rfl
  | succ count ih =>
    have hread : read (ofMachine bytes m).memory ((ofMachine bytes m).registers.i + .ofNat count) =
        some (m.memory.read (m.i.forward count)) := by
      rw [memory_ofMachine, read_cells, i_ofMachine, Address.ofWord_add, Address.ofWord_toWord]
    have hlt : count < 16 := h
    rw [List.range_succ, List.foldlM_append, ih (by omega)]
    simp only [List.foldlM_cons, List.foldlM_nil, hread, Option.bind_eq_bind, Option.bind_some,
      store_of_lt _ _ hlt]
    refine congrArg some (Vector.ext fun k hk => ?_)
    rw [Vector.getElem_set, Vector.getElem_ofFn, Vector.getElem_ofFn]
    dsimp only
    by_cases hsame : count = k
    · subst hsame
      rw [if_pos rfl, if_pos (Nat.lt_succ_self count)]
    · rw [if_neg hsame]
      exact if_congr (by omega) rfl rfl

/-- Loading registers agrees. -/
theorem loadRegisters_ofMachine (x : Nibble) :
    (ofMachine bytes m).loadRegisters x.toByte =
      some (ofMachine bytes ((m.loadBytes x).finishTransfer x)) := by
  have hv : (ofMachine bytes m).registers.v = m.registers.v.values := rfl
  have hloaded : (Vector.ofFn fun k : Fin 16 =>
      if k.val < x.val + 1 then m.memory.read (m.i.forward k.val) else m.v k) =
        (m.loadBytes x).registers.v.values := by
    refine Vector.ext fun k hk => ?_
    simp only [ChipEight.Machine.loadBytes, NibbleTable.ofFn, Vector.getElem_ofFn]
    exact if_congr Nat.lt_succ_iff rfl rfl
  rw [Machine.loadRegisters, hv, x.toNat_toByte, load_loop bytes m x.isLt, hloaded]
  simp only [Option.bind_eq_bind, Option.bind_some]
  exact finishTransfer_ofMachine bytes (m.loadBytes x) x

/-- Opening a call agrees. -/
theorem call_ofMachine (place target : Address) :
    (ofMachine bytes m).call place.toWord target.toWord =
      some (ofMachine bytes (m.call place target).machine, (m.call place target).outcome) := by
  rw [Machine.call, stack_ofMachine, pc_ofMachine, push_ofStack, ChipEight.Machine.call]
  cases m.stack.push m.pc with
  | none => rfl
  | some stack =>
    have hjump := goTo_ofMachine bytes { m with stack } target
    exact congrArg (fun next => some (next, Except.ok Signal.proceed)) hjump

/-- Closing a call agrees. -/
theorem ret_ofMachine (place : Address) :
    (ofMachine bytes m).ret place.toWord =
      some (ofMachine bytes (m.ret place).machine, (m.ret place).outcome) := by
  rw [Machine.ret, stack_ofMachine, pop_ofStack, ChipEight.Machine.ret]
  cases m.stack.pop with
  | none => rfl
  | some popped =>
    have hjump := goTo_ofMachine bytes { m with stack := popped.2 } popped.1
    exact congrArg (fun next => some (next, Except.ok Signal.proceed)) hjump

/-- The register that is added to a jump agrees. -/
theorem jumpRegister_ofMachine (target : Address) :
    (if (ofMachine bytes m).dialect.jumpsByX then
        (ChipEight.Instruction.topDigit target).toByte else 0) =
      (m.jumpRegister target).toByte := by
  rw [dialect_ofMachine, ChipEight.Machine.jumpRegister, apply_ite Nibble.toByte]
  rfl

/-- Carrying out an instruction agrees, once the random byte that it takes is given. -/
theorem execute_ofMachine (place : Address) (instruction : ChipEight.Instruction) :
    (ofMachine bytes m).execute place.toWord (ofInstruction instruction) =
      some (ofMachine (left bytes instruction)
          (m.execute place (given (bytes 0) instruction)).machine,
        (m.execute place (given (bytes 0) instruction)).outcome) := by
  unfold Machine.execute
  dsimp only
  rw [advance_ofMachine]
  cases instruction with
  | clearScreen =>
    simp only [ofInstruction, ← ofScreen_dark]
    rfl
  | ret => exact ret_ofMachine bytes m.advance place
  | jump target =>
    simp only [ofInstruction, goTo_ofMachine]
    rfl
  | call target => exact call_ofMachine bytes m.advance place target
  | setIndex target =>
    simp only [ofInstruction, pointAt_ofMachine]
    rfl
  | jumpBy target =>
    simp only [ofInstruction, jumpRegister_ofMachine, v_ofMachine, Option.bind_eq_bind,
      Option.bind_some, setCounter_ofMachine, ofWord_add_byte]
    rfl
  | draw x y height =>
    simp only [ofInstruction, draw_ofMachine, Option.bind_eq_bind, Option.bind_some]
    rfl
  | awaitKey x =>
    have hpoll : (ofMachine bytes m.advance).poll ⟨x.toByte, none⟩ =
        some (ofMachine bytes (m.advance.poll ⟨x, none⟩).1, (m.advance.poll ⟨x, none⟩).2) :=
      poll_ofMachine bytes m.advance ⟨x, none⟩
    simp only [ofInstruction, hpoll, Option.bind_eq_bind, Option.bind_some]
    rfl
  | addToIndex x =>
    simp only [ofInstruction, v_ofMachine, Option.bind_eq_bind, Option.bind_some,
      setIndex_ofMachine, i_ofMachine, ofWord_add_byte]
    rfl
  | unassigned word => rfl
  | _ =>
    -- The others read and write registers, timers and memory by the parts above.
    simp only [ofInstruction, v_ofMachine, setV_ofMachine, skipIf_ofMachine, combine_ofMachine,
      randomize_ofMachine, holdsKeyIn_ofMachine, pointAtGlyph_ofMachine,
      storeDecimal_ofMachine, storeRegisters_ofMachine, loadRegisters_ofMachine,
      Option.bind_eq_bind, Option.bind_some, Option.map_some]
    rfl

/-- Loading a program agrees. -/
theorem loadProgram_ofMachine (program : List UInt8) :
    (ofMachine bytes m).loadProgram program =
      match m.load program with
      | .ok next => some (ofMachine bytes next, .ok ())
      | .error fault => some (ofMachine bytes m, .error fault) := by
  rw [Machine.loadProgram, memory_ofMachine, load_cells, ChipEight.Machine.load]
  cases m.memory.load program with
  | error fault => rfl
  | ok memory =>
    have hstart := goTo_ofMachine bytes { m with memory } Memory.programStart
    exact congrArg (fun next => some (next, Except.ok ())) hstart

/-- Going back after a fault leaves the plain form of a machine. -/
theorem settle_ofMachine (place : Address) (outcome : Except Fault Signal) :
    ∃ next, (ofMachine bytes m).settle place.toWord outcome = ofMachine bytes next := by
  cases outcome with
  | ok signal => exact ⟨m, rfl⟩
  | error fault => exact ⟨m.goTo place, goTo_ofMachine bytes m place⟩

/-- What a step comes to when no wait is pending and the instruction at the program counter was
carried out. -/
theorem step_of_execute {after : Machine} {outcome : Except Fault Signal}
    (hwait : m.keyWait = none)
    (h : (ofMachine bytes m).execute m.pc.toWord (ofInstruction m.instruction) =
      some (after, outcome)) :
    (ofMachine bytes m).step = some (after.settle m.pc.toWord outcome, outcome) := by
  have hnone : (ofMachine bytes m).keyWait = none := congrArg (Option.map ofKeyWait) hwait
  have hdecode : decode m.fetch = some (ofInstruction m.instruction) := decode_eq m.fetch
  rw [Machine.step, hnone]
  dsimp only
  rw [memory_ofMachine, pc_ofMachine, readWord_cells, Address.ofWord_toWord]
  -- The word that was read is by definition the one that the machine fetches.
  change (decode m.fetch >>= _) = _
  rw [hdecode]
  simp only [Option.bind_eq_bind, Option.bind_some, h]

/-- What a step comes to when a wait is pending. -/
theorem step_of_keyWait {wait : ChipEight.KeyWait} (hwait : m.keyWait = some wait) :
    (ofMachine bytes m).step =
      some (ofMachine bytes (m.poll wait).1, .ok (m.poll wait).2) := by
  have hsome : (ofMachine bytes m).keyWait = some (ofKeyWait wait) :=
    congrArg (Option.map ofKeyWait) hwait
  rw [Machine.step, hsome]
  simp only [poll_ofMachine, Option.bind_eq_bind, Option.bind_some]

/-- Every operation but a step agrees, whatever random bytes are to come. -/
theorem perform_ofMachine {operation : Operation} (h : operation ≠ .step) :
    (ofMachine bytes m).perform operation =
      some (ofMachine bytes (m.perform operation).machine, (m.perform operation).answer) := by
  cases operation with
  | step => exact absurd rfl h
  | load program =>
    simp only [Machine.perform, loadProgram_ofMachine, ChipEight.Machine.perform]
    cases m.load program <;> rfl
  | loadFile path content =>
    cases content with
    | none => rfl
    | some program =>
      simp only [Machine.perform, loadProgram_ofMachine, ChipEight.Machine.perform,
        ChipEight.Machine.loadFile]
      cases m.load program <;> rfl
  | setKey key pressed =>
    have hkeys : store (ofMachine bytes m).keys key.toByte.toNat pressed =
        some (m.keypad.keys.set key pressed).values := store_digit m.keypad.keys key pressed
    simp only [Machine.perform, hkeys, Option.bind_eq_bind, Option.bind_some]
    rfl
  | write word value =>
    simp only [Machine.perform, memory_ofMachine, write_cells, Option.bind_eq_bind,
      Option.bind_some]
    rfl
  | _ =>
    simp only [Machine.perform, setV_ofMachine, setIndex_ofMachine, setCounter_ofMachine,
      advance_ofMachine, setFlag_ofMachine, Option.map_some]
    rfl

/-- A new machine agrees. -/
theorem create_ofMachine (dialect : Dialect) (random : RandomStream) :
    Machine.create dialect bytes = some (ofMachine bytes (.create dialect random)) := by
  have hslots : (Vector.replicate 16 Address.zero).map Address.toWord = .replicate 16 0 :=
    Vector.map_replicate
  rw [Machine.create, initialCells_eq, ← ofScreen_dark, ← hslots]
  rfl

end parts

end Plain

end ChipEight
