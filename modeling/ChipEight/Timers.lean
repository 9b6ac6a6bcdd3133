/-!
# Timers

Two bytes that count down with every tick and stop at zero. The tone sounds while
the second is not zero.
-/

namespace ChipEight

/-- The two timers. -/
structure Timers where
  /-- The timer that programs read. -/
  delay : UInt8
  /-- The timer that keeps the tone sounding. -/
  sound : UInt8
  deriving DecidableEq

namespace Timers

/-- Both timers at zero. -/
def initial : Timers := ⟨0, 0⟩

/-- One less, but not below zero. -/
def countDown (value : UInt8) : UInt8 := if value = 0 then 0 else value - 1

/-- Counts both timers down once. -/
def tick (t : Timers) : Timers := ⟨countDown t.delay, countDown t.sound⟩

/-- Whether the tone sounds. -/
def sounding (t : Timers) : Bool := t.sound != 0

/-- Counting down subtracts one from the number, which stops at zero. -/
@[simp] theorem toNat_countDown (value : UInt8) :
    (countDown value).toNat = value.toNat - 1 := by
  unfold countDown
  split
  · next h => simp [h]
  · next h =>
    have hv : value.toNat ≠ 0 := fun h0 => h (UInt8.toNat_inj.1 h0)
    have h1 : (1 : UInt8) ≤ value := by
      rw [UInt8.le_iff_toNat_le]
      simp only [UInt8.toNat_one]
      omega
    rw [UInt8.toNat_sub_of_le _ _ h1]
    simp

end Timers

end ChipEight
