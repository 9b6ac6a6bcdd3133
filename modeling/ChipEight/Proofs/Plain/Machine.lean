import ChipEight.Machine.Operation
import ChipEight.Proofs.Plain.Drawing
import ChipEight.Proofs.Plain.Instructions

/-!
# The machine in plain words

Here the whole state of a machine is kept in bytes, words and arrays. An operation that makes a
check which fails answers `none`, so it depends on the state whether it gets to its end. The random
bytes to come may be any, whatever generator they are from.
-/

namespace ChipEight

namespace Plain

/-- A wait for a key that is not over. -/
structure KeyWait where
  /-- The register that will receive the key. -/
  register : UInt8
  /-- The key that was seen pressed and has to be released, once there is one. -/
  latched : Option UInt8

/-- The state of a machine. -/
structure Machine where
  /-- The memory cells. -/
  memory : Vector UInt8 4096
  /-- The registers, index register and program counter. -/
  registers : Registers
  /-- Return addresses of the open calls. -/
  stack : CallStack
  /-- The delay and the sound timer. -/
  timers : Timers
  /-- The pixels. -/
  pixels : Pixels
  /-- The keys held down. -/
  keys : Vector Bool 16
  /-- The pending wait for a key. -/
  keyWait : Option KeyWait
  /-- How the details of the instruction set are settled. -/
  dialect : Dialect
  /-- The random bytes to come. -/
  random : Nat → UInt8

namespace Machine

/-- A new machine, given the random bytes to come. -/
def create (dialect : Dialect) (random : Nat → UInt8) : Option Machine := do
  let memory ← initialCells
  some
    { memory, registers := ⟨.replicate 16 0, 0, 0x200⟩, stack := ⟨.replicate 16 0, 0⟩,
      timers := .initial, pixels := .replicate 32 (.replicate 64 false),
      keys := .replicate 16 false, keyWait := none, dialect, random }

variable (m : Machine)

/-- The byte in a register. -/
def v (x : UInt8) : Option UInt8 := m.registers.get x

/-- Stores a byte in a register. -/
def setV (x value : UInt8) : Option Machine := do
  let registers ← m.registers.set x value
  some { m with registers }

/-- Tells in the flag register whether a condition is met. -/
def setFlag (condition : Bool) : Option Machine := do
  let registers ← m.registers.setFlag condition
  some { m with registers }

/-- Points the index register at the address that a word names. -/
def setIndex (word : UInt16) : Machine := { m with registers := m.registers.setIndex word }

/-- Continues at the address that a word names. -/
def setCounter (word : UInt16) : Machine := { m with registers := m.registers.setCounter word }

/-- Moves the program counter past one instruction. -/
def advance : Machine := { m with registers := m.registers.advance }

/-- Moves past one more instruction if the condition holds. -/
def skipIf (condition : Bool) : Machine := if condition then m.advance else m

/-- Stores what an operation on two registers gives. -/
def combine (op : Alu) (x y : UInt8) : Option Machine := do
  let a ← m.v x
  let b ← m.v y
  let result := op.apply m.dialect a b
  let m ← m.setV x result.value
  match result.flag with
  | some flag => m.setV 0xF flag
  | none => some m

/-- Stores a random byte under a mask. -/
def randomize (x mask : UInt8) : Option Machine :=
  { m with random := fun k => m.random (k + 1) }.setV x (m.random 0 &&& mask)

/-- Draws the sprite at the index register. -/
def draw (x y height : UInt8) : Option Machine := do
  let column ← m.v x
  let row ← m.v y
  let sprite ← readBytes m.memory m.registers.i height.toNat
  let edges := if m.dialect.clipsSprites then Edges.clip else .wrap
  let (pixels, erased) ← Plain.draw m.pixels edges column.toNat row.toNat sprite
  let m := { m with pixels }
  if m.dialect.drawClearsFlag || erased then m.setFlag erased else some m

/-- Whether the key is held whose number is in a register. -/
def holdsKeyIn (x : UInt8) : Option Bool := do
  let value ← m.v x
  m.keys[(value &&& 0x0F).toNat]?

/-- Asks once whether the wait for a key is over. -/
def poll (wait : KeyWait) : Option (Machine × Signal) :=
  match wait.latched with
  | none => do
    let key ← lowest m.keys
    some ({ m with keyWait := some ⟨wait.register, key⟩ }, .awaitingKey)
  | some key => do
    let held ← m.keys[key.toNat]?
    if held then some (m, .awaitingKey)
    else
      let m ← { m with keyWait := none }.setV wait.register key
      some (m, .proceed)

/-- Points the index register at the glyph for a digit. -/
def pointAtGlyph (x : UInt8) : Option Machine := do
  let value ← m.v x
  let offset ← bounded sizeBound ((value &&& 0x0F).toNat * 5)
  let start ← bounded sizeBound (0x50 + offset)
  some (m.setIndex (.ofNat start))

/-- Stores the three decimal digits of a byte. -/
def storeDecimal (x : UInt8) : Option Machine := do
  let value ← m.v x
  let memory ← write m.memory m.registers.i (value / 100)
  let memory ← write memory (m.registers.i + 1) (value / 10 % 10)
  let memory ← write memory (m.registers.i + 2) (value % 10)
  some { m with memory }

/-- Moves the index register past the registers up to one of them, if the dialect says so. -/
def finishTransfer (x : UInt8) : Option Machine :=
  if m.dialect.transferMovesIndex then do
    let count ← bounded 0x10000 (x.toNat + 1)
    some (m.setIndex (m.registers.i + .ofNat count))
  else some m

/-- Stores the registers up to one of them from the index register on. -/
def storeRegisters (x : UInt8) : Option Machine := do
  let memory ← (List.range (x.toNat + 1)).foldlM
    (fun cells k => do
      let byte ← m.registers.v[k]?
      write cells (m.registers.i + .ofNat k) byte)
    m.memory
  finishTransfer { m with memory } x

/-- Loads the registers up to one of them from the index register on. -/
def loadRegisters (x : UInt8) : Option Machine := do
  let v ← (List.range (x.toNat + 1)).foldlM
    (fun v k => do
      let byte ← read m.memory (m.registers.i + .ofNat k)
      store v k byte)
    m.registers.v
  finishTransfer { m with registers := { m.registers with v } } x

/-- Opens a subroutine call that lies at `place`. -/
def call (place target : UInt16) : Option (Machine × Except Fault Signal) := do
  match ← m.stack.push m.registers.pc with
  | some stack => some ({ m with stack }.setCounter target, .ok .proceed)
  | none => some (m, .error (.stackOverflow place))

/-- Closes the newest subroutine call. -/
def ret (place : UInt16) : Option (Machine × Except Fault Signal) := do
  match ← m.stack.pop with
  | some (target, stack) => some ({ m with stack }.setCounter target, .ok .proceed)
  | none => some (m, .error (.stackUnderflow place))

/-- Carries out one instruction that lies at `place`. -/
def execute (place : UInt16) (instruction : Instruction) :
    Option (Machine × Except Fault Signal) :=
  let m := m.advance
  let done (m : Machine) : Machine × Except Fault Signal := (m, .ok .proceed)
  match instruction with
  | .clearScreen => some (done { m with pixels := .replicate 32 (.replicate 64 false) })
  | .ret => m.ret place
  | .jump target => some (done (m.setCounter target))
  | .call target => m.call place target
  | .skipIfByte x byte => do
    let a ← m.v x
    some (done (m.skipIf (a == byte)))
  | .skipUnlessByte x byte => do
    let a ← m.v x
    some (done (m.skipIf (a != byte)))
  | .skipIfSame x y => do
    let a ← m.v x
    let b ← m.v y
    some (done (m.skipIf (a == b)))
  | .setByte x byte => (m.setV x byte).map done
  | .addByte x byte => do
    let a ← m.v x
    let m ← m.setV x (a + byte)
    some (done m)
  | .combine op x y => (m.combine op x y).map done
  | .skipUnlessSame x y => do
    let a ← m.v x
    let b ← m.v y
    some (done (m.skipIf (a != b)))
  | .setIndex target => some (done (m.setIndex target))
  | .jumpBy x target => do
    let offset ← m.v (if m.dialect.jumpsByX then x else 0)
    some (done (m.setCounter (target + offset.toUInt16)))
  | .random x mask => (m.randomize x mask).map done
  | .draw x y height => do
    let drawn ← m.draw x y height
    some (drawn, .ok (if m.dialect.drawEndsFrame then .nextFrame else .proceed))
  | .skipIfHeld x => do
    let held ← m.holdsKeyIn x
    some (done (m.skipIf held))
  | .skipUnlessHeld x => do
    let held ← m.holdsKeyIn x
    some (done (m.skipIf !held))
  | .readDelay x => (m.setV x m.timers.delay).map done
  | .awaitKey x => do
    let (m, signal) ← m.poll ⟨x, none⟩
    some (m, .ok signal)
  | .setDelay x => do
    let a ← m.v x
    some (done { m with timers := { m.timers with delay := a } })
  | .setSound x => do
    let a ← m.v x
    some (done { m with timers := { m.timers with sound := a } })
  | .addToIndex x => do
    let a ← m.v x
    some (done (m.setIndex (m.registers.i + a.toUInt16)))
  | .pointAtGlyph x => (m.pointAtGlyph x).map done
  | .storeDecimal x => (m.storeDecimal x).map done
  | .storeRegisters x => (m.storeRegisters x).map done
  | .loadRegisters x => (m.loadRegisters x).map done
  | .unassigned word => some (m, .error (.unassigned word place))

/-- After a fault the program counter goes back to where the word was fetched. -/
def settle (place : UInt16) : Except Fault Signal → Machine
  | .ok _ => m
  | .error _ => m.setCounter place

/-- One step. -/
def step : Option (Machine × Except Fault Signal) :=
  match m.keyWait with
  | some wait => do
    let (m, signal) ← m.poll wait
    some (m, .ok signal)
  | none => do
    let pc := m.registers.pc
    let word ← readWord m.memory pc
    let instruction ← decode word
    let (m, outcome) ← m.execute pc instruction
    some (m.settle pc outcome, outcome)

/-- Loads a program and continues at its start. -/
def loadProgram (program : List UInt8) : Option (Machine × Except LoadFault Unit) := do
  match ← Plain.load m.memory program with
  | .ok memory => some ({ m with memory }.setCounter 0x200, .ok ())
  | .error fault => some (m, .error fault)

/-- Performs an operation. -/
def perform (operation : Operation) : Option (Machine × Answer) :=
  let done (m : Machine) : Machine × Answer := (m, .done)
  match operation with
  | .load program => do
    let (m, result) ← m.loadProgram program
    some (m, .loaded result)
  | .loadFile path none => some (m, .loaded (.error (.unreadable path)))
  | .loadFile _ (some program) => do
    let (m, result) ← m.loadProgram program
    some (m, .loaded result)
  | .step => do
    let (m, outcome) ← m.step
    some (m, .stepped outcome)
  | .tick => some (done { m with timers := m.timers.tick })
  | .setKey key pressed => do
    let keys ← store m.keys key.toByte.toNat pressed
    some (done { m with keys })
  | .setV x value => (m.setV x.toByte value).map done
  | .setIndex word => some (done (m.setIndex word))
  | .setCounter word => some (done (m.setCounter word))
  | .advance => some (done m.advance)
  | .setFlag condition => (m.setFlag condition).map done
  | .setDelay value => some (done { m with timers := { m.timers with delay := value } })
  | .setSound value => some (done { m with timers := { m.timers with sound := value } })
  | .write word value => do
    let memory ← write m.memory word value
    some (done { m with memory })

/-- The machine after a list of operations. -/
def performAll (m : Machine) (operations : List Operation) : Option Machine :=
  operations.foldlM (fun m operation => (m.perform operation).map Prod.fst) m

end Machine

/-- The plain form of a wait. -/
def ofKeyWait (wait : ChipEight.KeyWait) : KeyWait :=
  ⟨wait.register.toByte, wait.latched.map Nibble.toByte⟩

/-- The plain form of a machine, given the random bytes to come. -/
def ofMachine (random : Nat → UInt8) (m : ChipEight.Machine) : Machine where
  memory := m.memory.cells
  registers := ofRegisters m.registers
  stack := ofStack m.stack
  timers := m.timers
  pixels := ofScreen m.screen
  keys := m.keypad.keys.values
  keyWait := m.keyWait.map ofKeyWait
  dialect := m.dialect
  random := random

end Plain

end ChipEight
