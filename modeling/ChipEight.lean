import ChipEight.Address
import ChipEight.Binary32.Basic
import ChipEight.Binary32.Magnitude
import ChipEight.Binary32.Shortest
import ChipEight.BoundedStack
import ChipEight.Bounds
import ChipEight.CommandLine.Options
import ChipEight.CommandLine.Scanner
import ChipEight.Decimal
import ChipEight.Dialect
import ChipEight.Fault
import ChipEight.Font
import ChipEight.FrontEnd.KeyMap
import ChipEight.FrontEnd.Phosphor
import ChipEight.FrontEnd.Terminal
import ChipEight.FrontEnd.Window
import ChipEight.Hexadecimal
import ChipEight.Instruction.Basic
import ChipEight.Instruction.Decode
import ChipEight.Instruction.Text
import ChipEight.Journal.Basic
import ChipEight.Journal.Text
import ChipEight.Keypad
import ChipEight.Logo
import ChipEight.Machine.Basic
import ChipEight.Machine.Execute
import ChipEight.Machine.Operation
import ChipEight.Machine.Step
import ChipEight.Main
import ChipEight.Memory
import ChipEight.NibbleTable
import ChipEight.Pacing.Clock
import ChipEight.Pacing.Pacer
import ChipEight.Proofs.Adjustments
import ChipEight.Proofs.Alignment
import ChipEight.Proofs.ArgumentGrammar
import ChipEight.Proofs.Calls
import ChipEight.Proofs.Clipping
import ChipEight.Proofs.CommandLines
import ChipEight.Proofs.Countdown
import ChipEight.Proofs.Dialects
import ChipEight.Proofs.Drawing
import ChipEight.Proofs.Drawings
import ChipEight.Proofs.Drift
import ChipEight.Proofs.Effects
import ChipEight.Proofs.ExactClocks
import ChipEight.Proofs.Exposure
import ChipEight.Proofs.Footprint
import ChipEight.Proofs.Forms
import ChipEight.Proofs.Glyphs
import ChipEight.Proofs.Halting
import ChipEight.Proofs.HexadecimalText
import ChipEight.Proofs.HostEvents
import ChipEight.Proofs.KeyWait
import ChipEight.Proofs.Landings
import ChipEight.Proofs.Loading
import ChipEight.Proofs.Outcomes
import ChipEight.Proofs.Pacing
import ChipEight.Proofs.Plain.Drawing
import ChipEight.Proofs.Plain.Instructions
import ChipEight.Proofs.Plain.Machine
import ChipEight.Proofs.Plain.Parts
import ChipEight.Proofs.Plain.Safety
import ChipEight.Proofs.Plain.Sessions
import ChipEight.Proofs.Plain.Simulation
import ChipEight.Proofs.Programs
import ChipEight.Proofs.RandomBytes
import ChipEight.Proofs.Rates
import ChipEight.Proofs.Rounding
import ChipEight.Proofs.Seeds
import ChipEight.Proofs.Stalling
import ChipEight.Proofs.Starting
import ChipEight.Proofs.Steps
import ChipEight.Proofs.Stores
import ChipEight.Proofs.Timekeeping
import ChipEight.Proofs.Transcript
import ChipEight.Proofs.Windows
import ChipEight.Proofs.Words
import ChipEight.RandomStream
import ChipEight.Rate
import ChipEight.Registers
import ChipEight.Screen
import ChipEight.Settings
import ChipEight.Timers
import ChipEight.Proofs.Collisions
import ChipEight.Proofs.Arithmetic
import ChipEight.Proofs.ControlFlow
import ChipEight.Proofs.Transfers
import ChipEight.Proofs.Encoding
import ChipEight.Proofs.Fading
import ChipEight.Proofs.Restoring
import ChipEight.Proofs.Literals
import ChipEight.Proofs.RateTexts
import ChipEight.Proofs.LitPixels
import ChipEight.Proofs.CircularMemory
import ChipEight.Proofs.LastInFirstOut
