import ChipEight.Instruction.Basic
import ChipEight.Machine.Basic

/-!
# Instructions at work

What each instruction does to a machine. The program counter moves past the
instruction first, so a jump or a call replaces the address already advanced. An
instruction that cannot be carried out leaves the machine where it gave up, with the
program counter already moved; it is up to the caller to go back.
-/

namespace ChipEight

/-- What an operation on two registers gives. -/
structure Alu.Result where
  /-- The byte for the first register. -/
  value : UInt8
  /-- The byte for the flag register, which is written after the first register; with
  none, the flag register keeps what it has. -/
  flag : Option UInt8
  deriving DecidableEq

/-- Combines the bytes of the first and the second register. -/
def Alu.apply (op : Alu) (d : Dialect) (a b : UInt8) : Alu.Result :=
  let cleared := if d.logicClearsFlag then some 0 else none
  let shifted := if d.shiftsY then b else a
  match op with
  | copy => ⟨b, none⟩
  | or => ⟨a ||| b, cleared⟩
  | and => ⟨a &&& b, cleared⟩
  | xor => ⟨a ^^^ b, cleared⟩
  | add => ⟨a + b, some (flagByte (decide (256 ≤ a.toNat + b.toNat)))⟩
  | sub => ⟨a - b, some (flagByte (decide (b ≤ a)))⟩
  | shiftRight => ⟨shifted >>> 1, some (shifted &&& 1)⟩
  | subFrom => ⟨b - a, some (flagByte (decide (a ≤ b)))⟩
  | shiftLeft => ⟨shifted <<< 1, some (shifted >>> 7)⟩

/-- What carrying out an instruction leaves. -/
structure Execution where
  /-- The machine as the instruction left it, also where it gave up. -/
  machine : Machine
  /-- The request to whoever paces the machine, or the fault. -/
  outcome : Except Fault Signal

namespace Machine

/-- Moves past one more instruction if the condition holds. -/
def skipIf (m : Machine) (condition : Bool) : Machine := if condition then m.advance else m

/-- Stores what an operation gives: first the value, then the flag. -/
def combine (m : Machine) (op : Alu) (x y : Nibble) : Machine :=
  let result := op.apply m.dialect (m.v x) (m.v y)
  let m := m.setV x result.value
  match result.flag with
  | some flag => m.setV Registers.flag flag
  | none => m

/-- Stores a random byte under a mask. -/
def randomize (m : Machine) (x : Nibble) (mask : UInt8) : Machine :=
  let (byte, random) := m.random.nextByte
  { m with random }.setV x (byte &&& mask)

/-- The sprite of the given height at the index register. -/
def sprite (m : Machine) (height : Nibble) : List UInt8 := m.memory.readBytes m.i height.val

/-- What happens to sprites at the edges. -/
def edges (m : Machine) : Edges := if m.dialect.clipsSprites then .clip else .wrap

/-- Draws the sprite at the index register. The flag tells whether something was
erased; when nothing was, the dialect says whether it is cleared or left. -/
def draw (m : Machine) (x y height : Nibble) : Machine :=
  let drawn := m.screen.draw m.edges (m.v x).toNat (m.v y).toNat (m.sprite height)
  let m := { m with screen := drawn.screen }
  if m.dialect.drawClearsFlag || drawn.erased then m.setFlag drawn.erased else m

/-- Asks once whether the wait for a key is over. A key is latched when it is seen
pressed, the lowest-numbered one if there are several, and delivered when that same
key is seen released. -/
def poll (m : Machine) (wait : KeyWait) : Machine × Signal :=
  match wait.latched with
  | none => ({ m with keyWait := some { wait with latched := m.keypad.lowest? } }, .awaitingKey)
  | some key =>
    if m.keypad.holds key then (m, .awaitingKey)
    else ({ m with keyWait := none }.setV wait.register key.toByte, .proceed)

/-- The three decimal digits of a byte, the hundreds first. -/
def decimalDigits (value : UInt8) : List UInt8 := [value / 100, value / 10 % 10, value % 10]

/-- Stores bytes from the index register on. -/
def storeBytes (m : Machine) (bytes : List UInt8) : Machine :=
  { m with memory := m.memory.writeBytes m.i bytes }

/-- Loads the registers up to `x` from the index register on. -/
def loadBytes (m : Machine) (x : Nibble) : Machine :=
  { m with registers := { m.registers with
      v := .ofFn fun k => if k ≤ x then m.memory.read (m.i.forward k.val) else m.v k } }

/-- Moves the index register past the registers up to `x`, if the dialect says so. -/
def finishTransfer (m : Machine) (x : Nibble) : Machine :=
  if m.dialect.transferMovesIndex then m.pointAt (m.i.forward (x.val + 1)) else m

/-- The register that `BNNN` adds to its target. -/
def jumpRegister (m : Machine) (target : Address) : Nibble :=
  if m.dialect.jumpsByX then Instruction.topDigit target else .ofNat 0

/-- Opens a subroutine call: the program counter, which is already past the call, is
remembered. The call itself lies at `place`. -/
def call (m : Machine) (place target : Address) : Execution :=
  match m.stack.push m.pc with
  | some stack => ⟨{ m with stack }.goTo target, .ok .proceed⟩
  | none => ⟨m, .error (.stackOverflow place.toWord)⟩

/-- Closes the newest subroutine call. -/
def ret (m : Machine) (place : Address) : Execution :=
  match m.stack.pop with
  | some (target, stack) => ⟨{ m with stack }.goTo target, .ok .proceed⟩
  | none => ⟨m, .error (.stackUnderflow place.toWord)⟩

/-- Carries out one instruction that lies at `place`. -/
def execute (m : Machine) (place : Address) (instruction : Instruction) : Execution :=
  let m := m.advance
  let done (m : Machine) : Execution := ⟨m, .ok .proceed⟩
  match instruction with
  | .clearScreen => done { m with screen := .dark }
  | .ret => m.ret place
  | .jump target => done (m.goTo target)
  | .call target => m.call place target
  | .skipIfByte x byte => done (m.skipIf (m.v x == byte))
  | .skipUnlessByte x byte => done (m.skipIf (m.v x != byte))
  | .skipIfSame x y => done (m.skipIf (m.v x == m.v y))
  | .setByte x byte => done (m.setV x byte)
  | .addByte x byte => done (m.setV x (m.v x + byte))
  | .combine op x y => done (m.combine op x y)
  | .skipUnlessSame x y => done (m.skipIf (m.v x != m.v y))
  | .setIndex target => done (m.pointAt target)
  | .jumpBy target => done (m.goTo (target.forward (m.v (m.jumpRegister target)).toNat))
  | .random x mask => done (m.randomize x mask)
  | .draw x y height =>
    ⟨m.draw x y height, .ok (if m.dialect.drawEndsFrame then .nextFrame else .proceed)⟩
  | .skipIfHeld x => done (m.skipIf (m.keypad.holds (.ofByte (m.v x))))
  | .skipUnlessHeld x => done (m.skipIf (!m.keypad.holds (.ofByte (m.v x))))
  | .readDelay x => done (m.setV x m.timers.delay)
  | .awaitKey x =>
    let (m, signal) := m.poll ⟨x, none⟩
    ⟨m, .ok signal⟩
  | .setDelay x => done { m with timers := { m.timers with delay := m.v x } }
  | .setSound x => done { m with timers := { m.timers with sound := m.v x } }
  | .addToIndex x => done (m.pointAt (m.i.forward (m.v x).toNat))
  | .pointAtGlyph x => done (m.pointAt (Font.glyphAddress (.ofByte (m.v x))))
  | .storeDecimal x => done (m.storeBytes (decimalDigits (m.v x)))
  | .storeRegisters x =>
    done ((m.storeBytes (m.registers.v.toList.take (x.val + 1))).finishTransfer x)
  | .loadRegisters x => done ((m.loadBytes x).finishTransfer x)
  | .unassigned word => ⟨m, .error (.unassigned word place.toWord)⟩

end Machine

end ChipEight
