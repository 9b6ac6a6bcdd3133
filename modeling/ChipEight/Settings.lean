import ChipEight.Binary32.Basic
import ChipEight.Dialect

/-!
# Settings

What a user can choose before a program runs: the dialect, the two rates and the
seed of the random numbers.
-/

namespace ChipEight

/-- Instructions executed each second, unless chosen otherwise. -/
def defaultCpuRate : Binary32 := 700

/-- Timer ticks each second, unless chosen otherwise. -/
def defaultTimerRate : Binary32 := 60

/-- The choices of a user. -/
structure Settings where
  /-- How the seven details of the instruction set are settled. -/
  dialect : Dialect := .modern
  /-- Instructions executed each second. -/
  cpuRate : Binary32 := defaultCpuRate
  /-- Timer ticks each second. -/
  timerRate : Binary32 := defaultTimerRate
  /-- Seed of the random numbers; without one their key comes from the surroundings. -/
  seed : Option UInt64 := none
  deriving DecidableEq

end ChipEight
