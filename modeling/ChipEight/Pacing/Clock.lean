import ChipEight.Journal.Basic

/-!
# Clocks

A clock saves up elapsed time and pays for cycles with it, one period each. All
arithmetic is binary32, so a period can be too short to be noticed in the time saved
up; such a clock never comes to rest.
-/

namespace ChipEight

/-- A clock that gives out cycles. -/
structure Clock where
  /-- Seconds that one cycle costs. -/
  period : Binary32
  /-- Seconds saved up and not spent. -/
  saved : Binary32
  deriving DecidableEq

namespace Clock

/-- The period of a rate in cycles each second. Only a positive finite period can pace
anything. -/
def periodOf (rate : Binary32) : Option Binary32 :=
  let period := 1 / rate
  if period.isFinite ∧ 0 < period then some period else none

/-- A clock with nothing saved up that runs at the given rate, or, where that rate has no
period, at the default one; the second case leaves a record. -/
def start (name : ClockName) (rate default : Binary32) : Clock × List Record :=
  match periodOf rate with
  | some period => (⟨period, 0⟩, [])
  | none => (⟨1 / default, 0⟩, [.rateReplaced name rate default])

/-- Saves up elapsed time. -/
def save (c : Clock) (elapsed : Binary32) : Clock := { c with saved := c.saved + elapsed }

/-- Whether the time saved up pays for a cycle. -/
def due (c : Clock) : Bool := decide (c.period ≤ c.saved)

/-- Pays for one cycle. -/
def pay (c : Clock) : Clock := { c with saved := c.saved - c.period }

/-- Forgets all time saved up. -/
def forget (c : Clock) : Clock := { c with saved := 0 }

/-- Pays for cycles until none is due, and counts them on from `count`. A clock that is
still due after `budget` cycles has no answer. -/
def payAll : Nat → Clock → Nat → Option (Clock × Nat)
  | 0, c, count => if c.due then none else some (c, count)
  | budget + 1, c, count => if c.due then payAll budget c.pay (count + 1) else some (c, count)

end Clock

end ChipEight
