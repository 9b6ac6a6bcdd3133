import ChipEight.FrontEnd.Terminal
import ChipEight.FrontEnd.Window
import ChipEight.Journal.Text
import ChipEight.Logo

/-!
# The program

Plays a program in the terminal: reads the command line, loads the program, and then
lets the time that passes between two frames elapse in the machine, over and over,
until there is a fault.
-/

namespace ChipEight.Player

/-- More cycles than a clock should ever give out between two frames. -/
def cyclesPerFrame : Nat := 100000000

/-- The content of a file, if it can be read. -/
def readProgram (path : String) : IO (Option (List UInt8)) := do
  try
    return some (← IO.FS.readBinFile path).toList
  catch _ =>
    return none

/-- Shows frame after frame. -/
partial def play (w : Window) (previous : Nat) : IO UInt32 := do
  IO.sleep 16
  let now ← IO.monoMsNow
  match w.redraw cyclesPerFrame (.ofNat (now - previous) / 1000) .done with
  | none =>
    IO.eprintln "a clock does not come to rest"
    return 1
  | some w =>
    match w.failure with
    | some failure =>
      IO.eprintln (failure.message ++ ": " ++ failure.cause)
      return 1
    | none =>
      IO.println ("\x1b[H" ++ w.pacer.machine.screen.text)
      play w now

/-- Creates the machine, loads the program and plays it. -/
def playInvocation (invocation : Invocation) : IO UInt32 := do
  let settings := invocation.settings
  let entropy ← Vector.ofFnM fun _ => UInt32.ofNat <$> IO.rand 0 (UInt32.size - 1)
  let (m, log) := Machine.start settings entropy
  log.forM fun record => IO.eprintln record.line
  let loaded ← match invocation.program with
    | none => pure (m.load logoProgram)
    | some path => m.loadFile path <$> readProgram path
  match loaded with
  | .error fault =>
    IO.eprintln fault.message
    return 1
  | .ok m =>
    let (pacer, log) := Pacer.start m settings
    log.forM fun record => IO.eprintln record.line
    play (Window.start pacer) (← IO.monoMsNow)

end ChipEight.Player

open ChipEight in
/-- Entry point. -/
def main (arguments : List String) : IO UInt32 := do
  match CommandLine.parse arguments with
  | .error .helpWanted =>
    IO.println usage
    return 0
  | .error e =>
    IO.eprintln ("error: " ++ e.message)
    IO.eprintln usage
    return 2
  | .ok invocation => Player.playInvocation invocation
