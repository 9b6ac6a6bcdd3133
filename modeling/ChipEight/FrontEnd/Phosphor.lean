import ChipEight.Binary32.Basic
import ChipEight.Screen

/-!
# Phosphor

Pixels do not go dark at once. Each has a brightness between zero and one, which is
one while the pixel is lit and then fades steadily. A frame shows every pixel in
green, as opaque as it is bright.
-/

namespace ChipEight

/-- Brightness lost each second by a pixel that is not lit. -/
def fadeRate : Binary32 := 10

/-- The brightness of all pixels, row by row. -/
abbrev Phosphor := Vector Binary32 2048

/-- The colour of one pixel of a frame. -/
structure Colour where
  /-- The share of red. -/
  red : UInt8
  /-- The share of green. -/
  green : UInt8
  /-- The share of blue. -/
  blue : UInt8
  /-- Opacity. -/
  alpha : UInt8
  deriving DecidableEq

/-- The colours of all pixels, row by row. -/
abbrev Frame := Vector Colour 2048

/-- The four bytes of a colour in the order in which a frame holds them. -/
def Colour.bytes (c : Colour) : List UInt8 := [c.red, c.green, c.blue, c.alpha]

/-- A frame before anything was shown in it. -/
def Frame.blank : Frame := .replicate 2048 ⟨0, 0, 0, 0⟩

/-- The colour of a pixel of the given brightness. -/
def Colour.ofBrightness (level : Binary32) : Colour := ⟨0, 255, 0, (level * 255).toByte⟩

namespace Phosphor

/-- No pixel glows. -/
def dark : Phosphor := .replicate 2048 0

/-- Brightness after some time, which for an unlit pixel falls by `loss`, to zero at the
lowest. -/
def glow (lit : Bool) (loss level : Binary32) : Binary32 :=
  if lit then 1 else (level - loss).positivePart

/-- The brightness of all pixels when `elapsed` seconds have passed and the screen is
shown. -/
def expose (p : Phosphor) (screen : Screen) (elapsed : Binary32) : Phosphor :=
  let loss := fadeRate * elapsed
  .ofFn fun k => glow (screen.pixel (k.val % 64) (k.val / 64)) loss p[k]

/-- The frame that shows this brightness. -/
def frame (p : Phosphor) : Frame := p.map .ofBrightness

end Phosphor

end ChipEight
