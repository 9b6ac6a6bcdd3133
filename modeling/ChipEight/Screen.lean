/-!
# The screen

Sixty-four columns and thirty-two rows of pixels, each lit or dark. A row is a
64-bit word whose most significant bit is the leftmost column. Sprites are eight
columns wide and any number of rows high; drawing one flips the pixels under its set
bits and tells whether a lit pixel went dark.
-/

namespace ChipEight

/-- What happens to the part of a sprite beyond the right or bottom edge. -/
inductive Edges where
  /-- It appears at the opposite edge. -/
  | wrap
  /-- It is cut off. -/
  | clip
  deriving DecidableEq

/-- The pixels. -/
structure Screen where
  /-- The rows from top to bottom, the leftmost column in the most significant bit. -/
  rows : Vector (BitVec 64) 32
  deriving DecidableEq

/-- A screen after drawing. -/
structure Drawn where
  /-- The new pixels. -/
  screen : Screen
  /-- Whether a pixel that was lit when the sprite reached it went dark. -/
  erased : Bool
  deriving DecidableEq

/-- The row word that has the bits of a sprite row at column `x` and the seven columns
to its right. -/
def Edges.place (edges : Edges) (x : Nat) (bits : UInt8) : BitVec 64 :=
  let flush := bits.toBitVec.setWidth 64 <<< 56
  match edges with
  | wrap => flush.rotateRight (x % 64)
  | clip => flush >>> (x % 64)

/-- The rows of a sprite that are drawn when its first row is row `y` of the screen. -/
def Edges.visible (edges : Edges) (y : Nat) (sprite : List UInt8) : List UInt8 :=
  match edges with
  | wrap => sprite
  | clip => sprite.take (32 - y % 32)

namespace Screen

/-- All pixels dark. -/
def dark : Screen := ⟨.replicate 32 0⟩

/-- The row with a number, taken modulo the height of the screen. -/
def rowAt (y : Nat) : Fin 32 := ⟨y % 32, by omega⟩

/-- Whether a pixel is lit. Columns and rows are taken modulo the size of the screen. -/
def pixel (s : Screen) (x y : Nat) : Bool := s.rows[rowAt y].getMsbD (x % 64)

/-- Number of lit pixels in a row. -/
def litInRow (row : BitVec 64) : Nat := (List.range 64).countP row.getMsbD

/-- Number of lit pixels. -/
def lit (s : Screen) : Nat := (s.rows.toList.map litInRow).foldr (· + ·) 0

/-- Flips the pixels of one row where the given word has ones. -/
def flip (s : Screen) (row : Fin 32) (bits : BitVec 64) : Drawn :=
  ⟨⟨s.rows.set row (s.rows[row] ^^^ bits)⟩, s.rows[row] &&& bits != 0⟩

/-- Flipping a row toggles its pixels under the ones of the word and no others. -/
theorem pixel_flip (s : Screen) (row : Fin 32) (bits : BitVec 64) (x y : Nat) :
    (s.flip row bits).screen.pixel x y =
      ((s.pixel x y) ^^ (decide (row = rowAt y) && bits.getMsbD (x % 64))) := by
  simp only [flip, pixel, Fin.getElem_fin, Vector.getElem_set]
  by_cases h : row = rowAt y
  · subst h
    rw [if_pos rfl, decide_eq_true rfl, Bool.true_and, BitVec.getMsbD_xor]
  · rw [if_neg (fun hv => h (Fin.ext hv)), decide_eq_false h, Bool.false_and, Bool.xor_false]

/-- Flips the rows of a sprite one after the other, from row `y` on; below the bottom
row comes the top row. -/
def flipRows (edges : Edges) (x : Nat) : Nat → List UInt8 → Screen → Drawn
  | _, [], s => ⟨s, false⟩
  | y, bits :: rest, s =>
    let first := s.flip (rowAt y) (edges.place x bits)
    let others := flipRows edges x (y + 1) rest first.screen
    ⟨others.screen, first.erased || others.erased⟩

/-- Draws a sprite with its left upper corner at column `x` and row `y`, both taken
modulo the size of the screen. -/
def draw (s : Screen) (edges : Edges) (x y : Nat) (sprite : List UInt8) : Drawn :=
  flipRows edges x y (edges.visible y sprite) s

/-- An empty sprite changes nothing. -/
@[simp] theorem draw_nil (s : Screen) (edges : Edges) (x y : Nat) :
    s.draw edges x y [] = ⟨s, false⟩ := by
  cases edges <;> simp [draw, Edges.visible, flipRows]

end Screen

end ChipEight
