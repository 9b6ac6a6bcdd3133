import ChipEight.Address

/-!
# Tables by digit

A table holds one value for each hexadecimal digit. Register files, keypads and
cipher blocks are such tables.
-/

namespace ChipEight

/-- Sixteen values, one for each digit. -/
structure NibbleTable (α : Type) where
  /-- The values in order of their digits. -/
  values : Vector α 16
  deriving DecidableEq

namespace NibbleTable

variable {α β γ : Type}

/-- The table with the same value everywhere. -/
def replicate (value : α) : NibbleTable α := ⟨.replicate 16 value⟩

/-- The table of a function. -/
def ofFn (f : Nibble → α) : NibbleTable α := ⟨.ofFn f⟩

/-- The value for a digit. -/
def get (t : NibbleTable α) (n : Nibble) : α := t.values[n]

/-- Replaces the value for a digit. -/
def set (t : NibbleTable α) (n : Nibble) (value : α) : NibbleTable α :=
  ⟨t.values.set n.val value n.isLt⟩

/-- All values in order of their digits. -/
def toList (t : NibbleTable α) : List α := t.values.toList

/-- Combines the values of two tables digit by digit. -/
def zipWith (f : α → β → γ) (s : NibbleTable α) (t : NibbleTable β) : NibbleTable γ :=
  ⟨s.values.zipWith f t.values⟩

/-- What was stored for a digit is found there, and no other value changes. -/
theorem get_set (t : NibbleTable α) (n k : Nibble) (value : α) :
    (t.set n value).get k = if n = k then value else t.get k := by
  simp only [get, set, Fin.getElem_fin, Vector.getElem_set, Fin.ext_iff]

/-- Storing the value that is there changes nothing. -/
theorem set_get (t : NibbleTable α) (n : Nibble) : t.set n (t.get n) = t := by
  simp only [set, get, Fin.getElem_fin, Vector.set_getElem_self]

/-- Of two values stored for one digit the second stays. -/
theorem set_set (t : NibbleTable α) (n : Nibble) (first second : α) :
    (t.set n first).set n second = t.set n second := by
  simp only [set, Vector.set_set]

/-- The table of a function holds the values of the function. -/
@[simp] theorem get_ofFn (f : Nibble → α) (n : Nibble) : (ofFn f).get n = f n := by
  simp only [get, ofFn, Fin.getElem_fin, Vector.getElem_ofFn, Fin.eta]

end NibbleTable

end ChipEight
