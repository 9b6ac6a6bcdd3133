import ChipEight.NibbleTable

/-!
# Keypad

Sixteen keys, one for each hexadecimal digit, each held down or not.
-/

namespace ChipEight

/-- Which keys are held down. -/
structure Keypad where
  /-- One entry for each key. -/
  keys : NibbleTable Bool
  deriving DecidableEq

namespace Keypad

/-- No key held down. -/
def initial : Keypad := ⟨.replicate false⟩

/-- Presses or releases a key. -/
def set (p : Keypad) (key : Nibble) (pressed : Bool) : Keypad := ⟨p.keys.set key pressed⟩

/-- Whether a key is held down. -/
def holds (p : Keypad) (key : Nibble) : Bool := p.keys.get key

/-- All keys held down, in ascending order. -/
def held (p : Keypad) : List Nibble := (List.finRange 16).filter p.holds

/-- The lowest-numbered key held down. -/
def lowest? (p : Keypad) : Option Nibble := (List.finRange 16).find? p.holds

/-- A key is as it was last set, and setting it leaves the others alone. -/
theorem holds_set (p : Keypad) (key other : Nibble) (pressed : Bool) :
    (p.set key pressed).holds other = if key = other then pressed else p.holds other :=
  p.keys.get_set key other pressed

/-- There is a lowest-numbered key unless no key is held down. -/
theorem lowest?_eq_none_iff (p : Keypad) : p.lowest? = none ↔ ∀ key, p.holds key = false := by
  simp only [lowest?, List.find?_eq_none, List.mem_finRange, true_imp_iff, Bool.not_eq_true]

/-- The lowest-numbered key is held down and no key before it is. -/
theorem lowest?_eq_some_iff (p : Keypad) (key : Nibble) :
    p.lowest? = some key ↔ p.holds key = true ∧ ∀ other < key, p.holds other = false := by
  rw [lowest?, List.find?_eq_some_iff_getElem]
  constructor
  · rintro ⟨hkey, i, hi, rfl, hbelow⟩
    refine ⟨hkey, fun other hother => ?_⟩
    rw [List.getElem_finRange] at hother
    have hfalse := hbelow other.val (Fin.lt_def.1 hother)
    simpa using hfalse
  · rintro ⟨hkey, hbelow⟩
    refine ⟨hkey, key.val, by simp, by simp, fun j hj => ?_⟩
    have hfalse := hbelow ⟨j, by omega⟩ hj
    simpa using hfalse

end Keypad

end ChipEight
