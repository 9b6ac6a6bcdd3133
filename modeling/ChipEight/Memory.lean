import ChipEight.Bounds
import ChipEight.Fault
import ChipEight.Font

/-!
# Memory

A ring of 4096 bytes. The font lies at `0x050`; a program is loaded at `0x200` and
may use everything from there to the end.
-/

namespace ChipEight

/-- The contents of all memory cells. -/
structure Memory where
  /-- The bytes in order of their addresses. -/
  cells : Vector UInt8 4096
  deriving DecidableEq

namespace Memory

/-- Address at which programs are loaded and started. -/
def programStart : Address := ⟨0x200, by decide⟩

/-- Number of bytes a program can have at most. -/
def programRoom : Nat := 4096 - programStart.val

/-- The byte at an address. -/
def read (m : Memory) (a : Address) : UInt8 := m.cells[a]

/-- Stores a byte at an address. -/
def write (m : Memory) (a : Address) (value : UInt8) : Memory := ⟨m.cells.set a value⟩

/-- The 16-bit word at an address, high byte first. -/
def readWord (m : Memory) (a : Address) : UInt16 :=
  (m.read a).toUInt16 <<< 8 ||| (m.read (a.forward 1)).toUInt16

/-- The bytes from an address on, as many as asked for. -/
def readBytes (m : Memory) (a : Address) (count : Nat) : List UInt8 :=
  (List.range count).map fun k => m.read (a.forward k)

/-- Stores bytes one behind the other from an address on. -/
def writeBytes (m : Memory) (a : Address) : List UInt8 → Memory
  | [] => m
  | byte :: rest => (m.write a byte).writeBytes (a.forward 1) rest

/-- Memory with nothing in it. -/
def cleared : Memory := ⟨.replicate 4096 0⟩

/-- Memory with nothing but the font in it. -/
def initial : Memory := cleared.writeBytes (Font.glyphAddress (.ofNat 0)) Font.bytes.toList

/-- What memory holds after a program was loaded: below the program area what it held
before, then the program, then zeros. -/
def image (m : Memory) (program : List UInt8) : List UInt8 :=
  m.cells.toList.take programStart.val ++ program ++
    List.replicate (programRoom - program.length) 0

/-- A program that fits leaves memory its size. -/
theorem length_image (m : Memory) {program : List UInt8} (h : program.length ≤ programRoom) :
    (m.image program).length = 4096 := by
  simp only [image, programRoom, programStart] at *
  simp
  omega

/-- Puts a program into the program area and clears what it leaves free. A program that
does not fit is refused. -/
def load (m : Memory) (program : List UInt8) : Except LoadFault Memory :=
  if h : program.length ≤ programRoom then
    .ok ⟨⟨(m.image program).toArray, by rw [List.size_toArray, length_image m h]⟩⟩
  else .error (.tooLarge program.length programRoom)

/-- The bytes from address `start` up to, not including, `stop`. Each end is held against
the size of memory before the two are held against each other. -/
def range (m : Memory) (start stop : Nat) : Except BoundsError (List UInt8) :=
  if 4096 < start then .error (.rangeStart start)
  else if 4096 < stop then .error (.rangeEnd stop)
  else if stop < start then .error (.rangeOrder start stop)
  else .ok ((m.cells.toList.take stop).drop start)

/-- What was stored at an address is read there and nothing else changes. -/
theorem read_write (m : Memory) (a b : Address) (value : UInt8) :
    (m.write a value).read b = if a = b then value else m.read b := by
  simp only [read, write, Fin.getElem_fin, Vector.getElem_set, Fin.ext_iff]

/-- As many bytes are read as were asked for. -/
@[simp] theorem length_readBytes (m : Memory) (a : Address) (count : Nat) :
    (m.readBytes a count).length = count := by
  simp [readBytes]

end Memory

end ChipEight
