import ChipEight.Address

/-!
# Numbers out of bounds

Callers that hold plain numbers turn them into digits, register numbers and memory
ranges here. A number that does not fit is an error with a fixed wording, not a
wrapped value.
-/

namespace ChipEight

/-- Why a plain number was refused. -/
inductive BoundsError where
  /-- A digit was to be above 15. -/
  | digit
  /-- There is no register of this number. -/
  | register (number : Nat)
  /-- A range of memory was to start behind the last cell. -/
  | rangeStart (start : Nat)
  /-- A range of memory was to end behind the last cell. -/
  | rangeEnd (stop : Nat)
  /-- A range of memory was to end before it starts. -/
  | rangeOrder (start stop : Nat)
  deriving DecidableEq

/-- The wording of a refusal. -/
def BoundsError.message : BoundsError → String
  | digit => "u4 value must be in range 0x0-0xF"
  | register number => "index out of bounds: the len is 16 but the index is " ++ toString number
  | rangeStart start =>
    "range start index " ++ toString start ++ " out of range for slice of length 4096"
  | rangeEnd stop =>
    "range end index " ++ toString stop ++ " out of range for slice of length 4096"
  | rangeOrder start stop =>
    "slice index starts at " ++ toString start ++ " but ends at " ++ toString stop

/-- The digit with the given value. -/
def Nibble.ofDigitValue (n : Nat) : Except BoundsError Nibble :=
  if h : n < 16 then .ok ⟨n, h⟩ else .error .digit

/-- The register with the given number. -/
def Nibble.ofRegisterNumber (n : Nat) : Except BoundsError Nibble :=
  if h : n < 16 then .ok ⟨n, h⟩ else .error (.register n)

end ChipEight
