/-!
# Dialects

Interpreters have disagreed about seven details of the instruction set. A dialect
settles each of them. Two dialects have names: the one that current programs expect
and the one of the first interpreter, on the COSMAC VIP computer.
-/

namespace ChipEight

/-- How an interpreter settles the seven details. -/
structure Dialect where
  /-- `8XY6` and `8XYE` shift `VY` into `VX`, instead of `VX` in place. -/
  shiftsY : Bool
  /-- `BXNN` adds `VX` to its target, instead of `V0`. -/
  jumpsByX : Bool
  /-- `FX55` and `FX65` move `I` past the last register transferred. -/
  transferMovesIndex : Bool
  /-- `8XY1`, `8XY2` and `8XY3` clear the flag. -/
  logicClearsFlag : Bool
  /-- `DXYN` clears the flag if nothing was erased, instead of leaving it. -/
  drawClearsFlag : Bool
  /-- Sprites are cut off at the right and bottom edge, instead of wrapping around. -/
  clipsSprites : Bool
  /-- After `DXYN` no instruction runs until the next frame. -/
  drawEndsFrame : Bool
  deriving DecidableEq

namespace Dialect

/-- The dialect that current programs expect. -/
def modern : Dialect where
  shiftsY := false
  jumpsByX := false
  transferMovesIndex := false
  logicClearsFlag := false
  drawClearsFlag := true
  clipsSprites := false
  drawEndsFrame := false

/-- The dialect of the COSMAC VIP. -/
def cosmacVip : Dialect where
  shiftsY := true
  jumpsByX := false
  transferMovesIndex := true
  logicClearsFlag := true
  drawClearsFlag := true
  clipsSprites := true
  drawEndsFrame := true

/-- The seven details with the names under which they are shown, in fixed order. -/
def entries (d : Dialect) : List (String × Bool) := [
  ("shift_uses_vy", d.shiftsY),
  ("jump_with_vx", d.jumpsByX),
  ("load_store_increments_index", d.transferMovesIndex),
  ("logic_resets_vf", d.logicClearsFlag),
  ("draw_resets_vf", d.drawClearsFlag),
  ("clip_sprites", d.clipsSprites),
  ("display_wait", d.drawEndsFrame)]

/-- Settles the detail of the given name; a name that is none of the seven changes
nothing. -/
def settle (d : Dialect) (name : String) (value : Bool) : Dialect :=
  match name with
  | "shift_uses_vy" => { d with shiftsY := value }
  | "jump_with_vx" => { d with jumpsByX := value }
  | "load_store_increments_index" => { d with transferMovesIndex := value }
  | "logic_resets_vf" => { d with logicClearsFlag := value }
  | "draw_resets_vf" => { d with drawClearsFlag := value }
  | "clip_sprites" => { d with clipsSprites := value }
  | "display_wait" => { d with drawEndsFrame := value }
  | _ => d

/-- Text of a dialect in the log. -/
def text (d : Dialect) : String :=
  "Quirks \x7b " ++
    ", ".intercalate (d.entries.map fun (name, value) => name ++ ": " ++ toString value) ++
    " \x7d"

end Dialect

end ChipEight
