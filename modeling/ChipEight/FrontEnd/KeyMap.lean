import ChipEight.NibbleTable

/-!
# The key map

Which key of a computer keyboard stands for which key of the machine. Keyboard keys
are named by their place, not by what is printed on them.
-/

namespace ChipEight.KeyMap

/-- The place names of the keyboard keys, in order of the machine's keys. The block
below `1` to `4` is laid out as the machine's keypad is. -/
def codes : NibbleTable String := ⟨#v[
  "KeyX", "Digit1", "Digit2", "Digit3",
  "KeyQ", "KeyW", "KeyE", "KeyA",
  "KeyS", "KeyD", "KeyZ", "KeyC",
  "Digit4", "KeyR", "KeyF", "KeyV"]⟩

/-- The machine's key for a keyboard key, if it stands for one. -/
def key? (code : String) : Option Nibble :=
  (List.finRange 16).find? fun key => codes.get key == code

end ChipEight.KeyMap
