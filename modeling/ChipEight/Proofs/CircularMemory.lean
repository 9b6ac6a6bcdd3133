import ChipEight.Proofs.Plain.Parts
import ChipEight.Proofs.Programs

/-!
# Memory as a ring

A 16-bit word names a cell of memory, and so does a word with any number of further steps: the one
whose number is their sum modulo 4096. All ways to get at memory follow this law. On plain words
they come round in different ways, by a mask, by an addition that overflows or by a count that is cut
down to sixteen bits; as 4096 divides all these moduli, it makes no difference where it is done.
-/

namespace ChipEight

namespace Address

/-- Two words name the same address if they agree modulo the number of cells. -/
theorem ofWord_eq_iff {a b : UInt16} : ofWord a = ofWord b ↔ a.toNat % 4096 = b.toNat % 4096 :=
  Fin.ext_iff

/-- Steps from the address that a word names are counted round the ring. -/
theorem val_ofWord_forward (word : UInt16) (count : Nat) :
    ((ofWord word).forward count).val = (word.toNat + count) % 4096 :=
  Nat.mod_add_mod word.toNat 4096 count

end Address

namespace Memory

/-- The byte in the cell with a number, which is counted round the ring. -/
def around (m : Memory) (number : Nat) : UInt8 := m.cells[number % 4096]

/-- The byte some steps from the address that a word names. -/
theorem read_ofWord_forward (m : Memory) (word : UInt16) (count : Nat) :
    m.read ((Address.ofWord word).forward count) = m.around (word.toNat + count) := by
  simp only [read, around, Fin.getElem_fin, Address.val_ofWord_forward]

/-- The accesses to memory by the 16-bit words of addresses go round the ring. -/
structure Circular (m : Memory) : Prop where
  /-- A byte is read from the cell that its word names. -/
  read : ∀ a : UInt16, m.read (.ofWord a) = m.around a.toNat
  /-- As many bytes are read as were asked for. -/
  length_readBytes : ∀ (a : UInt16) (count : Nat), (m.readBytes (.ofWord a) count).length = count
  /-- Bytes in a row come from the cells further on, one after the other, however many they are. -/
  getElem?_readBytes : ∀ (a : UInt16) (count k : Nat), (m.readBytes (.ofWord a) count)[k]? =
    if k < count then some (m.around (a.toNat + k)) else none
  /-- The two bytes of a word of memory stand one behind the other, the high one first. -/
  toNat_readWord : ∀ a : UInt16, (m.readWord (.ofWord a)).toNat =
    256 * (m.around a.toNat).toNat + (m.around (a.toNat + 1)).toNat
  /-- A byte that was stored is read by all words for its cell, and every other cell keeps its
  byte. -/
  read_write : ∀ (a b : UInt16) (value : UInt8), (m.write (.ofWord a) value).read (.ofWord b) =
    if a.toNat % 4096 = b.toNat % 4096 then value else m.read (.ofWord b)

/-- All accesses go round the ring. -/
theorem circular (m : Memory) : m.Circular where
  read _ := rfl
  length_readBytes a count := m.length_readBytes (.ofWord a) count
  getElem?_readBytes a count k := by
    rw [readBytes, List.getElem?_map]
    by_cases hk : k < count
    · rw [List.getElem?_range hk, Option.map_some, read_ofWord_forward, if_pos hk]
    · simp [hk]
  toNat_readWord a := by
    rw [Memory.toNat_readWord, read_ofWord_forward]
    rfl
  read_write a b value := by
    rw [Memory.read_write]
    simp only [Address.ofWord_eq_iff]

/-- Whatever a memory holds, all accesses to it go round the ring, and so do those to its plain array
of cells: none of them goes out of bounds, and they come to the same for all words and for any
number of bytes, also for more than there are words. -/
theorem circular_with_plain_accesses (m : Memory) : m.Circular ∧
    (∀ a : UInt16, Plain.read m.cells a = some (m.read (.ofWord a))) ∧
    (∀ (a : UInt16) (count : Nat),
      Plain.readBytes m.cells a count = some (m.readBytes (.ofWord a) count)) ∧
    (∀ a : UInt16, Plain.readWord m.cells a = some (m.readWord (.ofWord a))) ∧
    ∀ (a : UInt16) (value : UInt8),
      Plain.write m.cells a value = some (m.write (.ofWord a) value).cells :=
  ⟨m.circular, Plain.read_cells m, Plain.readBytes_cells m, Plain.readWord_cells m,
    Plain.write_cells m⟩

end Memory

end ChipEight
