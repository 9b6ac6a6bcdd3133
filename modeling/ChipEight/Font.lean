import ChipEight.Address

/-!
# The built-in font

Sixteen glyphs, one for each hexadecimal digit, five rows of four pixels each. They
lie one behind the other in memory from address `0x050` up to, not including,
`0x0A0`.
-/

namespace ChipEight.Font

/-- Rows of one glyph, one byte a row. -/
def glyphHeight : Nat := 5

/-- Address of the first glyph. -/
def start : Nat := 0x50

/-- The rows of all glyphs, in order of their digits. -/
def bytes : Vector UInt8 80 := #v[
  0xF0, 0x90, 0x90, 0x90, 0xF0,
  0x20, 0x60, 0x20, 0x20, 0x70,
  0xF0, 0x10, 0xF0, 0x80, 0xF0,
  0xF0, 0x10, 0xF0, 0x10, 0xF0,
  0x90, 0x90, 0xF0, 0x10, 0x10,
  0xF0, 0x80, 0xF0, 0x10, 0xF0,
  0xF0, 0x80, 0xF0, 0x90, 0xF0,
  0xF0, 0x10, 0x20, 0x40, 0x40,
  0xF0, 0x90, 0xF0, 0x90, 0xF0,
  0xF0, 0x90, 0xF0, 0x10, 0xF0,
  0xF0, 0x90, 0xF0, 0x90, 0x90,
  0xE0, 0x90, 0xE0, 0x90, 0xE0,
  0xF0, 0x80, 0x80, 0x80, 0xF0,
  0xE0, 0x90, 0x90, 0x90, 0xE0,
  0xF0, 0x80, 0xF0, 0x80, 0xF0,
  0xF0, 0x80, 0xF0, 0x80, 0x80]

/-- Address behind the last glyph. -/
def stop : Nat := start + 80

/-- Address of the glyph for a digit. -/
def glyphAddress (digit : Nibble) : Address :=
  ⟨start + digit.val * glyphHeight, by simp only [start, glyphHeight]; omega⟩

/-- Every glyph lies inside the font. -/
theorem glyphAddress_inside (digit : Nibble) :
    start ≤ (glyphAddress digit).val ∧ (glyphAddress digit).val + glyphHeight ≤ stop := by
  simp only [glyphAddress, stop, start, glyphHeight]
  omega

end ChipEight.Font
