import ChipEight.FrontEnd.KeyMap
import ChipEight.FrontEnd.Phosphor
import ChipEight.Pacing.Pacer

/-!
# The window

The front end of a paced machine: what the keyboard and the window report, the frame
that is shown and the tone. Until the window is opened there is no frame, and nothing
is shown.

The window system may fail to do what it is asked for. How it serves a request is not
settled here: it comes with the report that the request answers. Whatever fails, the
program is about to end, and says why.
-/

namespace ChipEight

/-- How the window system serves a request. -/
inductive Service where
  /-- What was asked for is done. -/
  | done
  /-- It cannot be done, for some reason. -/
  | failed (reason : String)
  deriving DecidableEq

/-- Something that the window system reports, apart from the time to redraw. -/
inductive WindowEvent where
  /-- The window can be opened. A window is asked for, and then a surface in it, which
  begins with an empty frame. -/
  | opened (window surface : Service)
  /-- A keyboard key is pressed or released. It is known by its place, and it may be the
  key that means escape, wherever that is. -/
  | keyboard (code : String) (pressed escape : Bool)
  /-- The user asks to close the window. -/
  | closeRequested
  /-- The window has a new size. The surface, if there is one, is asked to take it on. -/
  | resized (width height : Nat) (surface : Service)
  /-- Anything else. -/
  | other

/-- Why the program ends with an error. -/
inductive Failure where
  /-- There is no window. -/
  | noWindow (reason : String)
  /-- There is no surface to show frames on. -/
  | noSurface (reason : String)
  /-- The surface did not take on the size of the window. -/
  | notResized (reason : String)
  /-- The surface did not show a frame. -/
  | notShown (reason : String)
  /-- An instruction could not be carried out. -/
  | halted (fault : Fault)
  deriving DecidableEq

namespace Failure

/-- The wording of a failure. -/
def message : Failure → String
  | noWindow _ => "Failed to create window"
  | noSurface _ => "Failed to create pixels surface"
  | notResized _ => "Failed to resize pixels surface"
  | notShown _ => "Pixels render error"
  | halted _ => "Chip8 Execution error"

/-- The wording of what has caused a failure. -/
def cause : Failure → String
  | noWindow reason | noSurface reason | notResized reason | notShown reason => reason
  | halted fault => fault.message

end Failure

/-- The front end of a paced machine. -/
structure Window where
  /-- The machine and its clocks. -/
  pacer : Pacer
  /-- The brightness of the pixels. -/
  phosphor : Phosphor
  /-- The frame, once the window is open. -/
  frame : Option Frame
  /-- Whether the tone is switched on. -/
  playing : Bool
  /-- Whether the program is about to end. -/
  exiting : Bool
  /-- The error that it ends with, if something has failed. -/
  failure : Option Failure

namespace Window

/-- A front end whose window is not open yet. -/
def start (pacer : Pacer) : Window := ⟨pacer, .dark, none, false, false, none⟩

/-- Something has failed: the program is about to end with an error. -/
def fail (w : Window) (failure : Failure) : Window :=
  { w with exiting := true, failure := some failure }

/-- Asks something of the surface, if there is one. -/
def ask (w : Window) (failure : String → Failure) : Service → Window
  | .done => w
  | .failed reason => if w.frame.isSome then w.fail (failure reason) else w

/-- Presses or releases the machine's key for a keyboard key; other keys do nothing. -/
def pressKey (w : Window) (code : String) (pressed : Bool) : Window :=
  match KeyMap.key? code with
  | some key =>
    { w with pacer := { w.pacer with machine := w.pacer.machine.setKey key pressed } }
  | none => w

/-- What an event does. Escape ends the program and never reaches the keypad. -/
def handle (w : Window) : WindowEvent → Window
  | .opened (.failed reason) _ => w.fail (.noWindow reason)
  | .opened .done (.failed reason) => w.fail (.noSurface reason)
  | .opened .done .done => { w with frame := some .blank }
  | .keyboard code pressed escape =>
    if escape then { w with exiting := true } else w.pressKey code pressed
  | .closeRequested => { w with exiting := true }
  | .resized _ _ surface => w.ask .notResized surface
  | .other => w

/-- Switches the tone on or off, as the sound timer says. -/
def updateSound (w : Window) : Window := { w with playing := w.pacer.machine.sounding }

/-- Puts the screen into the frame after `elapsed` seconds, if there is a frame. -/
def render (w : Window) (elapsed : Binary32) : Window :=
  match w.frame with
  | none => w
  | some _ =>
    let phosphor := w.phosphor.expose w.pacer.machine.screen elapsed
    { w with phosphor, frame := some phosphor.frame }

/-- Redraws the window `elapsed` seconds after the last time. This time elapses in the
machine, whose clocks may each give out `budget` cycles at most; otherwise there is no
answer. Unless an instruction fails, the tone is then switched, and the surface is asked
to show what the screen has become. -/
def redraw (w : Window) (budget : Nat) (elapsed : Binary32) (surface : Service) :
    Option Window :=
  (w.pacer.update budget elapsed).map fun u =>
    let updated := { w with pacer := u.pacer }
    match u.outcome with
    | .error fault => updated.fail (.halted fault)
    | .ok _ => (updated.updateSound.render elapsed).ask .notShown surface

end Window

end ChipEight
