import ChipEight.Machine.Step

/-!
# Instructions in memory

A word in memory is its high byte followed by its low byte. Storing a word makes it the
word that is read at its address, so a machine can be made to face any instruction.
-/

namespace ChipEight

namespace Memory

/-- The number that a word in memory stands for. -/
theorem toNat_readWord (m : Memory) (a : Address) :
    (m.readWord a).toNat = 256 * (m.read a).toNat + (m.read (a.forward 1)).toNat := by
  have hhigh := (m.read a).toNat_lt
  have hlow := (m.read (a.forward 1)).toNat_lt
  have hshift : ((m.read a).toUInt16 <<< 8).toNat = (m.read a).toNat <<< 8 := by
    rw [UInt16.toNat_shiftLeft, UInt8.toNat_toUInt16]
    change (m.read a).toNat <<< 8 % 65536 = (m.read a).toNat <<< 8
    rw [Nat.shiftLeft_eq]
    omega
  rw [readWord, UInt16.toNat_or, hshift, UInt8.toNat_toUInt16,
    ← Nat.shiftLeft_add_eq_or_of_lt hlow, Nat.shiftLeft_eq]
  omega

/-- Stores a 16-bit word at an address, high byte first. -/
def writeWord (m : Memory) (a : Address) (word : UInt16) : Memory :=
  (m.write a (word >>> 8).toUInt8).write (a.forward 1) word.toUInt8

/-- A word that was stored at an address is read there. -/
theorem readWord_writeWord (m : Memory) (a : Address) (word : UInt16) :
    (m.writeWord a word).readWord a = word := by
  have hword := word.toNat_lt
  have hne : ¬a.forward 1 = a := by
    intro h
    have hval := congrArg Fin.val h
    simp only [Address.forward] at hval
    omega
  have hhigh : (m.writeWord a word).read a = (word >>> 8).toUInt8 := by
    rw [writeWord, read_write, if_neg hne, read_write, if_pos rfl]
  have hlow : (m.writeWord a word).read (a.forward 1) = word.toUInt8 := by
    rw [writeWord, read_write, if_pos rfl]
  apply UInt16.toNat_inj.1
  rw [toNat_readWord, hhigh, hlow]
  simp [Nat.shiftRight_eq_div_pow]
  omega

/-- Storing a word changes no word that shares no cell with it. -/
theorem readWord_writeWord_of_apart (m : Memory) {a b : Address} (word : UInt16)
    (hsame : a ≠ b) (habove : a.forward 1 ≠ b) (hbelow : a ≠ b.forward 1) :
    (m.writeWord a word).readWord b = m.readWord b := by
  have hnext : a.forward 1 ≠ b.forward 1 := by
    intro h
    have hval := congrArg Fin.val h
    have ha := a.isLt
    have hb := b.isLt
    simp only [Address.forward] at hval
    exact hsame (Fin.ext (by omega))
  simp only [readWord, writeWord, read_write, if_neg hsame, if_neg habove, if_neg hbelow,
    if_neg hnext]

end Memory

namespace Machine

/-- The machine with a word stored where the program counter is. -/
def facing (m : Machine) (word : UInt16) : Machine :=
  { m with memory := m.memory.writeWord m.pc word }

/-- The stored word is fetched. -/
theorem fetch_facing (m : Machine) (word : UInt16) : (m.facing word).fetch = word :=
  m.memory.readWord_writeWord m.pc word

/-- The instruction of the stored word comes next. -/
theorem instruction_facing (m : Machine) (word : UInt16) :
    (m.facing word).instruction = .decode word :=
  congrArg Instruction.decode (m.memory.readWord_writeWord m.pc word)

end Machine

end ChipEight
