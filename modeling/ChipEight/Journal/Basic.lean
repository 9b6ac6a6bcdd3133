import ChipEight.Fault
import ChipEight.Instruction.Decode
import ChipEight.Instruction.Text
import ChipEight.Settings

/-!
# The journal

Everything that happens and is worth telling leaves a record. A record holds what
happened; its line is the level followed by the text.
-/

namespace ChipEight

/-- The two clocks that pace a machine. -/
inductive ClockName where
  /-- Instructions. -/
  | cpu
  /-- Timer ticks. -/
  | timer
  deriving DecidableEq

/-- The name of a clock in messages. -/
def ClockName.text : ClockName → String
  | cpu => "CPU"
  | timer => "timer"

/-- Something that happened. -/
inductive Record where
  /-- A machine was created. -/
  | created (dialect : Dialect)
  /-- A program of the given size was loaded. -/
  | loaded (size : Nat)
  /-- A word was fetched to be carried out. -/
  | fetched (pc : Address) (word : UInt16)
  /-- An instruction could not be carried out. -/
  | faulted (fault : Fault)
  /-- A clock could not run at the rate asked for and took another. -/
  | rateReplaced (clock : ClockName) (rate replacement : Binary32)
  deriving DecidableEq

/-- How important a record is. -/
inductive Level where
  /-- A setback. -/
  | warn
  /-- A change of the whole machine. -/
  | debug
  /-- A single instruction. -/
  | trace
  deriving DecidableEq

/-- The name of a level. -/
def Level.text : Level → String
  | warn => "WARN"
  | debug => "DEBUG"
  | trace => "TRACE"

namespace Record

/-- The level of a record. -/
def level : Record → Level
  | created _ | loaded _ => .debug
  | fetched _ _ => .trace
  | faulted _ | rateReplaced _ _ _ => .warn

end Record

end ChipEight
