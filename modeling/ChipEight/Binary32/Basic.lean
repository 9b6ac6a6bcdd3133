import ChipEight.Binary32.Magnitude

/-!
# Single-precision arithmetic

Rates, elapsed times and brightness levels are binary32 numbers. Every operation
here computes the exact result as a ratio of whole numbers and rounds it once, to
the nearest point with ties to the even one. There is a single not-a-number: which
of its bit patterns an input had is never observed.
-/

namespace ChipEight

/-- A binary32 number. -/
inductive Binary32 where
  /-- The result of an operation without a value. -/
  | nan
  /-- A signed magnitude, zero and infinity included. -/
  | number (negative : Bool) (magnitude : Magnitude)
  deriving DecidableEq

namespace Binary32

/-- Positive zero. -/
def zero : Binary32 := number false .zero

/-- Infinity with the given sign. -/
def infinite (negative : Bool) : Binary32 := number negative .infinity

/-- The number nearest to `num / den` units, with the given sign. -/
def rounded (negative : Bool) (num den : Nat) : Binary32 :=
  number negative (.round num den)

/-- The number nearest to a natural number. -/
def ofNat (n : Nat) : Binary32 := rounded false (n * Magnitude.unitsPerOne) 1

instance (n : Nat) : OfNat Binary32 n := ⟨ofNat n⟩

/-- The weight of the sign in a bit pattern, `2 ^ 31`. -/
def signBit : Nat := 0x80000000

/-- Reads a bit pattern: the sign is the top bit, and every magnitude above infinity
is not-a-number. -/
def ofBits (bits : UInt32) : Binary32 :=
  let place := bits.toNat % signBit
  if h : place < 0x7F800001 then number (decide (signBit ≤ bits.toNat)) ⟨place, h⟩ else nan

/-- The bit pattern of a number; not-a-number has the quiet pattern without payload. -/
def toBits : Binary32 → UInt32
  | nan => 0x7FC00000
  | number negative magnitude =>
    .ofNat (magnitude.val + if negative then signBit else 0)

/-- Neither infinite nor not-a-number. -/
def isFinite : Binary32 → Bool
  | nan => false
  | number _ magnitude => magnitude ≠ .infinity

/-- Exact size in units, with its sign. Infinity counts as `2 ^ 128`, not-a-number as
zero. -/
def signedUnits : Binary32 → Int
  | nan => 0
  | number negative magnitude =>
    if negative then -(Magnitude.units magnitude : Int) else Magnitude.units magnitude

/-- Place on the whole grid, which orders the numbers; both zeros are at zero and
not-a-number is at no place. -/
def place? : Binary32 → Option Int
  | nan => none
  | number negative magnitude =>
    some (if negative then -(magnitude.val : Int) else magnitude.val)

/-- Order of places. Not-a-number compares with nothing. -/
def le (x y : Binary32) : Bool :=
  match x.place?, y.place? with
  | some a, some b => a ≤ b
  | _, _ => false

/-- Strict order of places. Not-a-number compares with nothing. -/
def lt (x y : Binary32) : Bool :=
  match x.place?, y.place? with
  | some a, some b => a < b
  | _, _ => false

instance : LE Binary32 := ⟨fun x y => x.le y = true⟩
instance : LT Binary32 := ⟨fun x y => x.lt y = true⟩
instance (x y : Binary32) : Decidable (x ≤ y) := inferInstanceAs (Decidable (x.le y = true))
instance (x y : Binary32) : Decidable (x < y) := inferInstanceAs (Decidable (x.lt y = true))

/-- The number with the opposite sign. -/
def neg : Binary32 → Binary32
  | nan => nan
  | number negative magnitude => number (!negative) magnitude

instance : Neg Binary32 := ⟨neg⟩

/-- Rounded sum. Opposite infinities have none. An exact sum of zero is negative only
if both terms are. -/
def add : Binary32 → Binary32 → Binary32
  | number s a, number t b =>
    if a = .infinity then
      if b = .infinity ∧ s ≠ t then nan else infinite s
    else if b = .infinity then infinite t
    else
      let sum := signedUnits (number s a) + signedUnits (number t b)
      if sum = 0 then number (s && t) .zero else rounded (decide (sum < 0)) sum.natAbs 1
  | _, _ => nan

instance : Add Binary32 := ⟨add⟩
instance : Sub Binary32 := ⟨fun x y => add x (neg y)⟩

/-- Rounded product. Zero times infinity has none. -/
def mul : Binary32 → Binary32 → Binary32
  | number s a, number t b =>
    if a = .infinity ∨ b = .infinity then
      if a = .zero ∨ b = .zero then nan else infinite (s != t)
    else rounded (s != t) (Magnitude.units a * Magnitude.units b) Magnitude.unitsPerOne
  | _, _ => nan

instance : Mul Binary32 := ⟨mul⟩

/-- Rounded quotient. Zero by zero and infinity by infinity have none. -/
def div : Binary32 → Binary32 → Binary32
  | number s a, number t b =>
    if a = .infinity then
      if b = .infinity then nan else infinite (s != t)
    else if b = .infinity then number (s != t) .zero
    else if b = .zero then
      if a = .zero then nan else infinite (s != t)
    else rounded (s != t) (Magnitude.units a * Magnitude.unitsPerOne) (Magnitude.units b)
  | _, _ => nan

instance : Div Binary32 := ⟨div⟩

/-- The number itself if it is positive, else zero; not-a-number is not positive. -/
def positivePart (x : Binary32) : Binary32 := if zero < x then x else zero

/-- Whole part, limited to a byte: what is below zero or not-a-number is 0 and what
is above 255 is 255. -/
def toByte : Binary32 → UInt8
  | nan => 0
  | number negative magnitude =>
    if negative then 0
    else .ofNat (min (Magnitude.units magnitude / Magnitude.unitsPerOne) 255)

/-- A bit pattern made of a magnitude and a sign reads as the number with both. -/
theorem ofBits_eq {bits : UInt32} {negative : Bool} {magnitude : Magnitude}
    (h : bits.toNat = magnitude.val + if negative then signBit else 0) :
    ofBits bits = number negative magnitude := by
  have hlt := magnitude.isLt
  unfold signBit at h
  cases negative with
  | false =>
    rw [if_neg Bool.false_ne_true, Nat.add_zero] at h
    have hm : bits.toNat % 0x80000000 = magnitude.val := by omega
    have hs : ¬ 0x80000000 ≤ bits.toNat := by omega
    simp only [ofBits, signBit, hm, hlt, dif_pos, hs, decide_false]
  | true =>
    rw [if_pos rfl] at h
    have hm : bits.toNat % 0x80000000 = magnitude.val := by omega
    have hs : 0x80000000 ≤ bits.toNat := by omega
    simp only [ofBits, signBit, hm, hlt, dif_pos, hs, decide_true]

/-- Every number is read back from its bit pattern. -/
theorem ofBits_toBits (x : Binary32) : ofBits x.toBits = x := by
  cases x with
  | nan => decide
  | number negative magnitude =>
    have hlt := magnitude.isLt
    apply ofBits_eq
    rw [toBits, UInt32.toNat_ofNat']
    apply Nat.mod_eq_of_lt
    unfold signBit
    cases negative with
    | false => rw [if_neg Bool.false_ne_true]; omega
    | true => rw [if_pos rfl]; omega

/-- Not-a-number is below no number, not even itself. -/
@[simp] theorem not_nan_le (x : Binary32) : ¬ nan ≤ x := by
  simp [LE.le, le, place?]

end Binary32

end ChipEight
