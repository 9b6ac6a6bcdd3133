/-!
# Addresses and hexadecimal digits

Memory has 4096 cells in a ring, so an address is a number below 4096 and going
forward from the last cell leads to the first. Register numbers, key numbers and
sprite heights are single hexadecimal digits.
-/

namespace ChipEight

/-- A place in the memory ring. -/
abbrev Address := Fin 4096

namespace Address

/-- The address at the beginning of the ring. -/
def zero : Address := ⟨0, by decide⟩

/-- The address that a 16-bit word names: its low twelve bits. -/
def ofWord (word : UInt16) : Address := ⟨word.toNat % 4096, by omega⟩

/-- The address as a 16-bit word. -/
def toWord (a : Address) : UInt16 := .ofNat a.val

/-- The address `count` cells further along the ring. -/
def forward (a : Address) (count : Nat) : Address := ⟨(a.val + count) % 4096, by omega⟩

/-- Naming an address by a word and reading the word back changes nothing. -/
@[simp] theorem ofWord_toWord (a : Address) : ofWord a.toWord = a := by
  have := a.isLt
  apply Fin.ext
  simp only [ofWord, toWord, UInt16.toNat_ofNat']
  omega

/-- Going forward twice is going forward by the sum. -/
theorem forward_forward (a : Address) (m n : Nat) :
    (a.forward m).forward n = a.forward (m + n) := by
  apply Fin.ext
  simp only [forward]
  omega

end Address

/-- One hexadecimal digit: the number of a register or of a key, or the height of a
sprite. -/
abbrev Nibble := Fin 16

namespace Nibble

/-- The last hexadecimal digit of a number. -/
def ofNat (n : Nat) : Nibble := ⟨n % 16, by omega⟩

/-- The low four bits of a byte. -/
def ofByte (b : UInt8) : Nibble := ofNat b.toNat

/-- The digit as a byte. -/
def toByte (n : Nibble) : UInt8 := .ofNat n.val

/-- A digit survives being stored in a byte. -/
@[simp] theorem ofByte_toByte (n : Nibble) : ofByte n.toByte = n := by
  have := n.isLt
  apply Fin.ext
  simp only [ofByte, ofNat, toByte, UInt8.toNat_ofNat']
  omega

end Nibble

end ChipEight
