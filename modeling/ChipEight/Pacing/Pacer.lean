import ChipEight.Machine.Operation
import ChipEight.Pacing.Clock

/-!
# The pacer

A machine with two clocks. After each stretch of elapsed time the timers first tick
as often as their clock gives out cycles; then instructions run as often as theirs
does. Instructions stop early when the screen has to be shown, when a key is awaited
or at a fault. In the first two cases the time saved up for instructions is
forgotten, so nothing has to be caught up with later.
-/

namespace ChipEight

/-- A machine with its two clocks. -/
structure Pacer where
  /-- The machine. -/
  machine : Machine
  /-- The clock of the instructions. -/
  cpu : Clock
  /-- The clock of the timers. -/
  timer : Clock
  deriving DecidableEq

/-- A batch of instructions under way. -/
structure Batch where
  /-- The machine. -/
  machine : Machine
  /-- The clock of the instructions. -/
  cpu : Clock
  /-- Number of steps made. -/
  steps : Nat
  /-- The records of the steps, in order. -/
  log : Array Record

namespace Batch

/-- The batch after one step, which was paid for before, and the outcome of the batch if
it ends here. -/
def afterStep (b : Batch) : Batch × Option (Except Fault Signal) :=
  let paid := b.cpu.pay
  let step := b.machine.step
  let stepped : Batch := ⟨step.machine, paid, b.steps + 1, b.log ++ step.log⟩
  match step.outcome with
  | .ok .proceed => (stepped, none)
  | .ok signal => ({ stepped with cpu := paid.forget }, some (.ok signal))
  | .error fault => (stepped, some (.error fault))

/-- Makes steps until none is due or the batch ends early. A batch that has not ended
after `budget` steps has no answer. -/
def run : Nat → Batch → Option (Batch × Except Fault Signal)
  | budget, b =>
    if b.cpu.due then
      match budget with
      | 0 => none
      | budget + 1 =>
        match b.afterStep with
        | (next, none) => run budget next
        | (next, some outcome) => some (next, outcome)
    else some (b, .ok .proceed)

end Batch

/-- What a stretch of elapsed time gives. -/
structure Update where
  /-- The machine and its clocks afterwards. -/
  pacer : Pacer
  /-- Number of timer ticks. -/
  ticks : Nat
  /-- Number of steps. -/
  steps : Nat
  /-- The request of the last step, or its fault. -/
  outcome : Except Fault Signal
  /-- The records of the steps, in order. -/
  log : Array Record

namespace Pacer

/-- Paces a machine at the rates of the settings. Rates that cannot pace anything are
replaced, and recorded, the one of the instructions first. -/
def start (m : Machine) (settings : Settings) : Pacer × List Record :=
  let (cpu, cpuLog) := Clock.start .cpu settings.cpuRate defaultCpuRate
  let (timer, timerLog) := Clock.start .timer settings.timerRate defaultTimerRate
  (⟨m, cpu, timer⟩, cpuLog ++ timerLog)

/-- Lets time elapse. Neither clock may give out more than `budget` cycles; otherwise
there is no answer. -/
def update (budget : Nat) (elapsed : Binary32) (p : Pacer) : Option Update :=
  match (p.timer.save elapsed).payAll budget 0 with
  | none => none
  | some (timer, ticks) =>
    let ticked := Nat.repeat Machine.tick ticks p.machine
    match Batch.run budget ⟨ticked, p.cpu.save elapsed, 0, #[]⟩ with
    | none => none
    | some (batch, outcome) =>
      some ⟨⟨batch.machine, batch.cpu, timer⟩, ticks, batch.steps, outcome, batch.log⟩

/-- Performs an operation on the machine; the clocks do not notice. -/
def perform (p : Pacer) (operation : Operation) : Pacer × Answer × List Record :=
  let reply := p.machine.perform operation
  ({ p with machine := reply.machine }, reply.answer, reply.log)

end Pacer

end ChipEight
