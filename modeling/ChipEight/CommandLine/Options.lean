import ChipEight.Rate
import ChipEight.Settings

/-!
# What a command line can choose

A command line names at most one program file and sets up to three options. Each of
these has a text for its value, which is read in its own way, and a default.
How the texts are found among the arguments is a matter of the grammar and not of
this module.
-/

namespace ChipEight

/-- Why a command line cannot be used. -/
inductive UsageError where
  /-- An argument that is no option, or a file name too many. -/
  | unknownArgument
  /-- A value that is missing or is none of those to choose from. -/
  | invalidValue
  /-- A value that is no number of the kind wanted. -/
  | badNumber
  /-- An option given a second time. -/
  | repeated
  /-- A value for an option that takes none. -/
  | unexpectedValue
  /-- No error, but a wish to see the help text. -/
  | helpWanted
  deriving DecidableEq

/-- Dialects that can be chosen by name. -/
inductive Profile where
  /-- The dialect that current programs expect. -/
  | modern
  /-- The dialect of the COSMAC VIP. -/
  | vip
  deriving DecidableEq

namespace Profile

/-- The dialect of a profile. -/
def dialect : Profile → Dialect
  | modern => .modern
  | vip => .cosmacVip

/-- The profile of a name. -/
def ofName? (name : String) : Option Profile :=
  if name = "modern" then some modern else if name = "vip" then some vip else none

end Profile

/-- What a command line asks for. -/
structure Invocation where
  /-- The program file, if one is named. -/
  program : Option String
  /-- The profile. -/
  profile : Profile
  /-- Instructions executed each second. -/
  cpuRate : Binary32
  /-- Seed of the random numbers. -/
  seed : Option UInt64
  deriving DecidableEq

/-- The settings that a command line asks for. -/
def Invocation.settings (i : Invocation) : Settings where
  dialect := i.profile.dialect
  cpuRate := i.cpuRate
  seed := i.seed

namespace CommandLine

/-- What can be given a value. -/
inductive Slot where
  /-- The program file. -/
  | program
  /-- The option `--profile`. -/
  | profile
  /-- The option `--cpu-hz`. -/
  | cpuRate
  /-- The option `--seed`. -/
  | seed
  deriving DecidableEq

/-- The option of a name. -/
def Slot.ofName? (name : List Char) : Option Slot :=
  if name = "profile".toList then some profile
  else if name = "cpu-hz".toList then some cpuRate
  else if name = "seed".toList then some seed
  else none

/-- The values accepted so far. -/
structure Values where
  /-- The program file. -/
  program : Option String := none
  /-- The profile. -/
  profile : Option Profile := none
  /-- The rate of the instructions. -/
  cpuRate : Option Binary32 := none
  /-- The seed. -/
  seed : Option UInt64 := none
  deriving DecidableEq

namespace Values

/-- Whether a slot has its value. -/
def has (values : Values) : Slot → Bool
  | .program => values.program.isSome
  | .profile => values.profile.isSome
  | .cpuRate => values.cpuRate.isSome
  | .seed => values.seed.isSome

/-- Reads a seed: decimal digits after an optional plus sign, below `2 ^ 64`. -/
def readSeed (text : String) : Option UInt64 :=
  let digits := match text.toList with
    | '+' :: rest => rest
    | all => all
  if digits ≠ [] ∧ digits.all Char.isDigit ∧ Numeral.wholeNumber digits < UInt64.size then
    some (.ofNat (Numeral.wholeNumber digits))
  else none

/-- Checks a value and puts it into its slot. -/
def put (values : Values) (slot : Slot) (text : String) : Except UsageError Values :=
  match slot with
  | .program =>
    if text.isEmpty then .error .invalidValue else .ok { values with program := some text }
  | .profile =>
    match Profile.ofName? text with
    | some profile => .ok { values with profile := some profile }
    | none => .error .invalidValue
  | .cpuRate =>
    match readRate text with
    | .ok rate => .ok { values with cpuRate := some rate }
    | .error _ => .error .badNumber
  | .seed =>
    match readSeed text with
    | some seed => .ok { values with seed := some seed }
    | none => .error .badNumber

/-- What is asked for. What is not given has its default. -/
def invocation (values : Values) : Invocation where
  program := values.program
  profile := values.profile.getD .modern
  cpuRate := values.cpuRate.getD defaultCpuRate
  seed := values.seed

end Values

end CommandLine

end ChipEight
