import ChipEight.BoundedStack
import ChipEight.Dialect
import ChipEight.Keypad
import ChipEight.RandomStream
import ChipEight.Registers
import ChipEight.Screen
import ChipEight.Timers

/-!
# The machine

The whole state of a CHIP-8 interpreter: memory, registers, open calls, timers, screen,
keypad, a pending wait for a key, the dialect and the random generator. All of it is
a value; what an operation does to a machine is the machine it returns.
-/

namespace ChipEight

/-- A wait for a key that is not over. -/
structure KeyWait where
  /-- The register that will receive the key. -/
  register : Nibble
  /-- The key that was seen pressed and has to be released, once there is one. -/
  latched : Option Nibble
  deriving DecidableEq

/-- The state of a CHIP-8 interpreter. -/
structure Machine where
  /-- The memory cells. -/
  memory : Memory
  /-- The registers, index register and program counter. -/
  registers : Registers
  /-- Return addresses of the open calls. -/
  stack : CallStack
  /-- The delay and the sound timer. -/
  timers : Timers
  /-- The pixels. -/
  screen : Screen
  /-- The keys held down. -/
  keypad : Keypad
  /-- The pending wait for a key, if instructions are suspended. -/
  keyWait : Option KeyWait
  /-- How the details of the instruction set are settled. -/
  dialect : Dialect
  /-- Where the random bytes come from. -/
  random : RandomStream
  deriving DecidableEq

/-- What a step that went well asks of whoever paces the machine. -/
inductive Signal where
  /-- Go on with the next instruction. -/
  | proceed
  /-- Show the screen before the next instruction. -/
  | nextFrame
  /-- Let the user press or release a key. -/
  | awaitingKey
  deriving DecidableEq

namespace Machine

/-- A new machine with a random generator: the font in memory, everything else empty, and
the program counter at the start of the program. -/
def create (dialect : Dialect) (random : RandomStream) : Machine where
  memory := .initial
  registers := .initial
  stack := .empty .zero
  timers := .initial
  screen := .dark
  keypad := .initial
  keyWait := none
  dialect := dialect
  random := random

/-- The byte in a register. -/
def v (m : Machine) (x : Nibble) : UInt8 := m.registers.get x

/-- The program counter. -/
def pc (m : Machine) : Address := m.registers.pc

/-- The index register. -/
def i (m : Machine) : Address := m.registers.i

/-- Stores a byte in a register. -/
def setV (m : Machine) (x : Nibble) (value : UInt8) : Machine :=
  { m with registers := m.registers.set x value }

/-- Tells in the flag register whether a condition is met. -/
def setFlag (m : Machine) (condition : Bool) : Machine :=
  { m with registers := m.registers.setFlag condition }

/-- Continues at an address. -/
def goTo (m : Machine) (target : Address) : Machine :=
  { m with registers := { m.registers with pc := target } }

/-- Continues at the address that a word names. -/
def setCounter (m : Machine) (word : UInt16) : Machine :=
  { m with registers := m.registers.setCounter word }

/-- Points the index register at an address. -/
def pointAt (m : Machine) (target : Address) : Machine :=
  { m with registers := { m.registers with i := target } }

/-- Moves the program counter past one instruction. -/
def advance (m : Machine) : Machine := { m with registers := m.registers.advance }

/-- Counts both timers down once. -/
def tick (m : Machine) : Machine := { m with timers := m.timers.tick }

/-- Presses or releases a key. -/
def setKey (m : Machine) (key : Nibble) (pressed : Bool) : Machine :=
  { m with keypad := m.keypad.set key pressed }

/-- Whether the tone sounds. -/
def sounding (m : Machine) : Bool := m.timers.sounding

/-- Whether instructions are suspended until a key was pressed and released. -/
def awaitsKey (m : Machine) : Bool := m.keyWait.isSome

/-- Puts a program into memory and continues at its start. Nothing else changes. -/
def load (m : Machine) (program : List UInt8) : Except LoadFault Machine :=
  (m.memory.load program).map fun memory =>
    { m with memory, registers := { m.registers with pc := Memory.programStart } }

/-- Loads the program in a file, given its name and its content if it can be read. -/
def loadFile (m : Machine) (path : String) : Option (List UInt8) → Except LoadFault Machine
  | none => .error (.unreadable path)
  | some program => m.load program

/-- What was stored in a register is found there, and no other register changes. -/
theorem v_setV (m : Machine) (x j : Nibble) (value : UInt8) :
    (m.setV x value).v j = if x = j then value else m.v j :=
  m.registers.get_set x j value

/-- Storing the byte that a register holds changes nothing. -/
theorem setV_v (m : Machine) (x : Nibble) : m.setV x (m.v x) = m := by
  have hvalues : m.registers.v.set x (m.v x) = m.registers.v := m.registers.v.set_get x
  rw [setV, Registers.set, hvalues]

/-- Of two bytes stored in one register the second stays. -/
theorem setV_setV (m : Machine) (x : Nibble) (first second : UInt8) :
    (m.setV x first).setV x second = m.setV x second := by
  have hvalues : (m.registers.v.set x first).set x second = m.registers.v.set x second :=
    m.registers.v.set_set x first second
  rw [setV, setV, setV, Registers.set, Registers.set, Registers.set, hvalues]

end Machine

end ChipEight
