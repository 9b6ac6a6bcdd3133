import ChipEight.CommandLine.Options

/-!
# The grammar of command lines

An option is written either as `--name value` or as `--name=value`, and at most once.
Arguments are read from left to right. A value given as an argument of its own is
looked at only when the next option or file name arrives, or at the end; so an
argument that nothing can make sense of is reported before a bad value in front of it.
-/

namespace ChipEight

namespace CommandLine

/-- Accepts what was given for a slot. A missing value is reported first, then an option
given before, then a bad value. -/
def Values.accept (values : Values) (slot : Slot) : Option String → Except UsageError Values
  | none => .error .invalidValue
  | some text => if values.has slot then .error .repeated else values.put slot text

/-- A slot that was named, with its value if that was given, and not looked at yet. -/
structure Pending where
  /-- The slot. -/
  slot : Slot
  /-- The value. -/
  value : Option String
  deriving DecidableEq

/-- How far the arguments were read. -/
structure Reader where
  /-- The values accepted so far. -/
  values : Values := {}
  /-- The slot named last, if it was not looked at yet. -/
  pending : Option Pending := none
  /-- Whether only file names can follow. -/
  optionsEnded : Bool := false
  deriving DecidableEq

namespace Reader

/-- Looks at what is pending. -/
def settle (r : Reader) : Except UsageError Reader :=
  match r.pending with
  | none => .ok r
  | some pending =>
    (r.values.accept pending.slot pending.value).map fun values =>
      { r with values, pending := none }

/-- Whether a file name was given, looked at or not. -/
def hasProgram (r : Reader) : Bool :=
  r.values.program.isSome || (r.pending.map Pending.slot == some .program)

/-- Reads a file name. -/
def readProgram (r : Reader) (argument : String) : Except UsageError Reader :=
  if r.hasProgram then .error .unknownArgument
  else r.settle.map fun r => { r with pending := some ⟨.program, some argument⟩ }

/-- Reads an argument that is no option: the value of the option before it, or a file
name. -/
def readPlain (r : Reader) (argument : String) : Except UsageError Reader :=
  match r.pending with
  | some ⟨slot, none⟩ => .ok { r with pending := some ⟨slot, some argument⟩ }
  | _ => r.readProgram argument

/-- Reports the wish for help, after what is pending. -/
def readHelp (r : Reader) : Except UsageError Reader :=
  r.settle.bind fun _ => .error .helpWanted

/-- Reads an option, given what follows its two dashes. -/
def readOption (r : Reader) (text : List Char) : Except UsageError Reader :=
  let name := text.takeWhile (· ≠ '=')
  match Slot.ofName? name, text.dropWhile (· ≠ '=') with
  | some slot, [] => r.settle.map fun r => { r with pending := some ⟨slot, none⟩ }
  | some slot, _ :: value =>
    r.settle.bind fun r =>
      (r.values.accept slot (some (String.ofList value))).map fun values => { r with values }
  | none, rest =>
    if name = "help".toList then
      if rest = [] then r.readHelp else .error .unexpectedValue
    else .error .unknownArgument

/-- Reads one argument. -/
def read (r : Reader) (argument : String) : Except UsageError Reader :=
  if r.optionsEnded then r.readProgram argument
  else match argument.toList with
    | ['-', '-'] => .ok { r with optionsEnded := true }
    | '-' :: '-' :: text => r.readOption text
    | ['-'] => r.readPlain argument
    | '-' :: 'h' :: _ => r.readHelp
    | '-' :: _ => .error .unknownArgument
    | _ => r.readPlain argument

/-- The values that are given when there are no more arguments. -/
def finish (r : Reader) : Except UsageError Values := r.settle.map Reader.values

end Reader

/-- Reads all arguments after the name of the program. -/
def parse (arguments : List String) : Except UsageError Invocation :=
  (arguments.foldlM Reader.read {}).bind fun r => r.finish.map Values.invocation

end CommandLine

end ChipEight
