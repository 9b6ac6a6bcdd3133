import ChipEight.CommandLine.Scanner
import Mathlib.Data.List.TakeWhile

/-!
# What is relied on of the grammar of command lines

What a command line means depends on two parties. One finds the values among the arguments; it
follows a grammar that is common to many programs. The other says what can be given, how each value
is read and what its default is. All that the second relies on of the first is gathered in
`Grammar`: a file name, an option with its value behind it and an option joined to its value each
give this value, whatever was read before, and an option that was given already is reported. The
scanner follows this grammar.
-/

namespace ChipEight

/-- A text that does not begin with a dash, so that it is not taken for an option. -/
def Undashed (text : String) : Prop := text.toList.head? ≠ some '-'

instance (text : String) : Decidable (Undashed text) :=
  inferInstanceAs (Decidable (text.toList.head? ≠ some '-'))

namespace CommandLine

/-- How an option and its value are written. -/
inductive Spelling where
  /-- As two arguments, `--name value`. -/
  | apart
  /-- As one argument, `--name=value`. -/
  | joined
  deriving DecidableEq

/-- The name of an option. The program file has none. -/
def Slot.name? : Slot → Option String
  | .program => none
  | .profile => some "profile"
  | .cpuRate => some "cpu-hz"
  | .seed => some "seed"

/-- The name of an option stands for it, and an equals sign ends it. -/
theorem Slot.ofName?_name {slot : Slot} {name : String} (h : slot.name? = some name) :
    name.toList ≠ [] ∧ (∀ c ∈ name.toList, decide (c ≠ '=') = true) ∧
      Slot.ofName? name.toList = some slot := by
  cases slot with
  | program => cases h
  | profile | cpuRate | seed =>
    cases h
    exact ⟨by decide, by simp, rfl⟩

/-- Only the program file has no name. -/
theorem Slot.eq_program {slot : Slot} (h : slot.name? = none) : slot = .program := by
  cases slot with
  | program => rfl
  | profile | cpuRate | seed => cases h

/-- A place on the command line where a value is given. -/
structure Mention where
  /-- What is given a value. -/
  slot : Slot
  /-- How the option is spelled. The program file is written in one way only. -/
  spelling : Spelling := .apart
  deriving DecidableEq

/-- The arguments that give a value. -/
def Mention.arguments (mention : Mention) (text : String) : List String :=
  match mention.slot.name?, mention.spelling with
  | none, _ => [text]
  | some name, .apart => ["--" ++ name, text]
  | some name, .joined => ["--" ++ name ++ "=" ++ text]

/-- A way to read the arguments of a command line one by one. -/
structure Parser where
  /-- What it remembers of the arguments read so far. -/
  State : Type
  /-- What it remembers at first. -/
  start : State
  /-- Reads an argument. -/
  read : State → String → Except UsageError State
  /-- The values that are given when there are no more arguments. -/
  finish : State → Except UsageError Values

/-- Reads arguments from left to right. -/
def Parser.run (p : Parser) (s : p.State) (arguments : List String) : Except UsageError p.State :=
  arguments.foldlM p.read s

/-- The grammar, as far as it is relied on. `Holds s values` says that just these values are given
by what was read, and that options can still follow. -/
structure Grammar (p : Parser) (Holds : p.State → Values → Prop) : Prop where
  /-- At first nothing is given. -/
  start : Holds p.start {}
  /-- What is given when there are no more arguments counts. -/
  finish : ∀ {s values}, Holds s values → p.finish s = .ok values
  /-- An argument that does not begin with a dash names the program file, if none was named. -/
  file : ∀ {s values next text}, Holds s values → values.has .program = false → Undashed text →
    values.put .program text = .ok next → ∃ after, p.run s [text] = .ok after ∧ Holds after next
  /-- The argument behind an option is its value, if it does not begin with a dash. -/
  apart : ∀ {s values next slot name text}, Holds s values → Slot.name? slot = some name →
    values.has slot = false → Undashed text → values.put slot text = .ok next →
      ∃ after, p.run s ["--" ++ name, text] = .ok after ∧ Holds after next
  /-- What is joined to an option by an equals sign is its value, whatever it is. -/
  joined : ∀ {s values next slot name text}, Holds s values → Slot.name? slot = some name →
    values.has slot = false → values.put slot text = .ok next →
      ∃ after, p.run s ["--" ++ name ++ "=" ++ text] = .ok after ∧ Holds after next
  /-- An option that was given is reported if it is given again at the end, apart from its value. -/
  again_apart : ∀ {s values slot name text}, Holds s values → Slot.name? slot = some name →
    values.has slot = true → Undashed text →
      (p.run s ["--" ++ name, text]).bind p.finish = .error .repeated
  /-- It is also reported if it is joined to its value. -/
  again_joined : ∀ {s values slot name text}, Holds s values → Slot.name? slot = some name →
    values.has slot = true →
      (p.run s ["--" ++ name ++ "=" ++ text]).bind p.finish = .error .repeated

namespace Grammar

variable {p : Parser} {Holds : p.State → Values → Prop} {s : p.State} {values next : Values}
  {mention : Mention} {text : String}

/-- A value that was not given and is accepted is held once the arguments that give it are read. -/
theorem give (g : Grammar p Holds) (h : Holds s values) (hfree : values.has mention.slot = false)
    (hdash : Undashed text) (hput : values.put mention.slot text = .ok next) :
    ∃ after, p.run s (mention.arguments text) = .ok after ∧ Holds after next := by
  obtain ⟨slot, spelling⟩ := mention
  unfold Mention.arguments
  dsimp only at hfree hput ⊢
  cases hname : slot.name? with
  | none =>
    obtain rfl := Slot.eq_program hname
    exact g.file h hfree hdash hput
  | some name =>
    cases spelling with
    | apart => exact g.apart h hname hfree hdash hput
    | joined => exact g.joined h hname hfree hput

/-- An option that was given is reported if it is given again at the end. -/
theorem again (g : Grammar p Holds) (h : Holds s values) (hoption : mention.slot ≠ .program)
    (hgiven : values.has mention.slot = true) (hdash : Undashed text) :
    (p.run s (mention.arguments text)).bind p.finish = .error .repeated := by
  obtain ⟨slot, spelling⟩ := mention
  unfold Mention.arguments
  dsimp only at hoption hgiven ⊢
  cases hname : slot.name? with
  | none => exact absurd (Slot.eq_program hname) hoption
  | some name =>
    cases spelling with
    | apart => exact g.again_apart h hname hgiven hdash
    | joined => exact g.again_joined h hname hgiven

end Grammar

namespace Values

variable {values next : Values} {slot : Slot} {text : String}

/-- A value that was not given is accepted if it is one. -/
theorem accept_of_free (hfree : values.has slot = false) (hput : values.put slot text = .ok next) :
    values.accept slot (some text) = .ok next := by
  unfold accept
  dsimp only
  rw [hfree, if_neg Bool.false_ne_true, hput]

/-- A value that was given is not accepted again. -/
theorem accept_of_given (hgiven : values.has slot = true) :
    values.accept slot (some text) = .error .repeated := by
  unfold accept
  dsimp only
  rw [if_pos hgiven]

end Values

namespace Reader

/-- The values that are accepted once the reader has looked at everything. -/
def Holds (r : Reader) (values : Values) : Prop := r.settle = .ok { values := values }

variable {r : Reader} {values : Values} {slot : Slot} {text : String}

/-- What a reader that holds some values has not looked at yet: either nothing, or a value that
its slot will accept. -/
theorem Holds.cases (h : r.Holds values) :
    r = { values := values } ∨ ∃ before slot text, before.has slot = false ∧
      before.put slot text = .ok values ∧
      r = { values := before, pending := some ⟨slot, some text⟩ } := by
  obtain ⟨before, pending, optionsEnded⟩ := r
  cases pending with
  | none =>
    cases h
    exact .inl rfl
  | some pending =>
    obtain ⟨slot, value⟩ := pending
    cases value with
    | none => cases h
    | some text =>
      change (before.accept slot (some text)).map _ = .ok _ at h
      unfold Values.accept at h
      dsimp only at h
      split at h
      · cases h
      · next hhas =>
        cases hput : before.put slot text with
        | error e =>
          rw [hput] at h
          cases h
        | ok next =>
          rw [hput] at h
          cases h
          exact .inr ⟨before, slot, text, Bool.not_eq_true _ ▸ hhas, hput, rfl⟩

/-- What a reader holds is given when there are no more arguments. -/
theorem Holds.finish (h : r.Holds values) : r.finish = .ok values := by
  rw [Reader.finish, h]
  rfl

/-- Options have not ended. -/
theorem Holds.optionsEnded (h : r.Holds values) : r.optionsEnded = false := by
  obtain rfl | ⟨_, _, _, -, -, rfl⟩ := h.cases <;> rfl

/-- A file name was given just if it is among the values. -/
theorem Holds.hasProgram (h : r.Holds values) : r.hasProgram = values.has .program := by
  obtain rfl | ⟨before, slot, text, -, hput, rfl⟩ := h.cases
  · exact Bool.or_false _
  · cases slot with
    | program =>
      unfold Values.put at hput
      dsimp only at hput
      split at hput <;> cases hput
      exact Bool.or_true _
    | profile | cpuRate | seed =>
      unfold Values.put at hput
      dsimp only at hput
      split at hput <;> cases hput
      exact Bool.or_false _

/-- An argument that does not begin with a dash is no option. -/
theorem read_plain (hended : r.optionsEnded = false) (hdash : Undashed text) :
    r.read text = r.readPlain text := by
  unfold Undashed at hdash
  unfold read
  rw [hended, if_neg Bool.false_ne_true]
  -- All patterns but the last one begin with a dash.
  split
  case h_6 => rfl
  all_goals next heq => exact absurd (congrArg List.head? heq) hdash

/-- An argument that begins with two dashes and goes on is an option. -/
theorem read_dashes {argument : String} {rest : List Char} (hended : r.optionsEnded = false)
    (hargument : argument.toList = '-' :: '-' :: rest) (hrest : rest ≠ []) :
    r.read argument = r.readOption rest := by
  obtain ⟨c, rest, rfl⟩ := List.exists_cons_of_ne_nil hrest
  unfold read
  rw [hended, if_neg Bool.false_ne_true, hargument]
  rfl

/-- What does not look like an option is a file name if no option waits for its value. -/
theorem Holds.read_file (h : r.Holds values) (hprogram : values.has .program = false)
    (hdash : Undashed text) :
    ([text].foldlM read r).bind settle =
      (values.accept .program (some text)).map fun next => { values := next } := by
  have hplain : r.readPlain text = r.readProgram text := by
    obtain rfl | ⟨_, _, _, -, -, rfl⟩ := h.cases <;> rfl
  change ((r.read text).bind fun r => .ok r).bind settle = _
  rw [read_plain h.optionsEnded hdash, hplain, readProgram, h.hasProgram, hprogram,
    if_neg Bool.false_ne_true, h]
  rfl

section options

variable {name : String} (hname : slot.name? = some name)
include hname

/-- An option without a value waits for it. -/
theorem readOption_apart (h : r.Holds values) :
    r.readOption name.toList = .ok { values := values, pending := some ⟨slot, none⟩ } := by
  obtain ⟨-, hequals, hslot⟩ := Slot.ofName?_name hname
  have htake : name.toList.takeWhile (· ≠ '=') = name.toList := List.takeWhile_eq_self_iff.2 hequals
  have hdrop : name.toList.dropWhile (· ≠ '=') = [] := List.dropWhile_eq_nil_iff.2 hequals
  unfold readOption
  dsimp only
  rw [htake, hdrop, hslot]
  dsimp only
  rw [h]
  rfl

/-- An option with a value is looked at at once. -/
theorem readOption_joined (h : r.Holds values) {value : List Char} :
    r.readOption (name.toList ++ '=' :: value) =
      (values.accept slot (some (String.ofList value))).map fun next => { values := next } := by
  obtain ⟨-, hequals, hslot⟩ := Slot.ofName?_name hname
  have htake : (name.toList ++ '=' :: value).takeWhile (· ≠ '=') = name.toList := by
    rw [List.takeWhile_append_of_pos hequals]
    exact List.append_nil _
  have hdrop : (name.toList ++ '=' :: value).dropWhile (· ≠ '=') = '=' :: value := by
    rw [List.dropWhile_append_of_pos hequals]
    rfl
  unfold readOption
  dsimp only
  rw [htake, hdrop, hslot]
  dsimp only
  rw [h]
  rfl

/-- An option and the argument behind it. -/
theorem Holds.read_apart (h : r.Holds values) (hdash : Undashed text) :
    (["--" ++ name, text].foldlM read r).bind settle =
      (values.accept slot (some text)).map fun next => { values := next } := by
  have hargument : ("--" ++ name).toList = '-' :: '-' :: name.toList := String.toList_append
  have hread : r.read ("--" ++ name) = .ok { values := values, pending := some ⟨slot, none⟩ } := by
    rw [read_dashes h.optionsEnded hargument (Slot.ofName?_name hname).1, readOption_apart hname h]
  rw [List.foldlM_cons, hread]
  change ((read { values := values, pending := some ⟨slot, none⟩ } text).bind fun r =>
    .ok r).bind settle = _
  rw [read_plain rfl hdash]
  rfl

/-- An option with its value in one argument. -/
theorem Holds.read_joined (h : r.Holds values) :
    (["--" ++ name ++ "=" ++ text].foldlM read r).bind settle =
      (values.accept slot (some text)).map fun next => { values := next } := by
  have hargument : ("--" ++ name ++ "=" ++ text).toList =
      '-' :: '-' :: (name.toList ++ '=' :: text.toList) := by
    simp [String.toList_append]
  have hread := read_dashes h.optionsEnded hargument (by simp)
  change ((r.read _).bind fun r => .ok r).bind settle = _
  rw [hread, readOption_joined hname h, String.ofList_toList]
  cases values.accept slot (some text) <;> rfl

end options

end Reader

/-- The parser that reads as the scanner does. -/
def scanner : Parser where
  State := Reader
  start := {}
  read := Reader.read
  finish := Reader.finish

section scanner

variable {r : Reader} {values next : Values} {arguments : List String}

/-- If all was looked at, the reader holds what it has accepted. -/
theorem exists_holds_run (h : (arguments.foldlM Reader.read r).bind Reader.settle =
      (Except.ok next).map fun values => { values := values }) :
    ∃ after, scanner.run r arguments = .ok after ∧ after.Holds next := by
  cases hrun : arguments.foldlM Reader.read r with
  | error e =>
    rw [hrun] at h
    cases h
  | ok after =>
    rw [hrun] at h
    exact ⟨after, hrun, h⟩

/-- What cannot be accepted is reported at the end at the latest. -/
theorem bind_finish_run {e : UsageError} (h : (arguments.foldlM Reader.read r).bind Reader.settle =
      (Except.error e : Except UsageError Values).map fun values => { values := values }) :
    (scanner.run r arguments).bind scanner.finish = .error e := by
  change (arguments.foldlM Reader.read r).bind Reader.finish = .error e
  cases hrun : arguments.foldlM Reader.read r with
  | error other =>
    rw [hrun] at h
    cases h
    rfl
  | ok after =>
    rw [hrun] at h
    have hsettle : after.settle = .error e := h
    change after.finish = .error e
    rw [Reader.finish, hsettle]
    rfl

/-- The scanner follows the grammar. -/
theorem grammar_scanner : Grammar scanner Reader.Holds where
  start := rfl
  finish := Reader.Holds.finish
  file := by
    intro s values next text h hfree hdash hput
    refine exists_holds_run ?_
    rw [Reader.Holds.read_file h hfree hdash, Values.accept_of_free hfree hput]
  apart := by
    intro s values next slot name text h hname hfree hdash hput
    refine exists_holds_run ?_
    rw [Reader.Holds.read_apart hname h hdash, Values.accept_of_free hfree hput]
  joined := by
    intro s values next slot name text h hname hfree hput
    refine exists_holds_run ?_
    rw [Reader.Holds.read_joined hname h, Values.accept_of_free hfree hput]
  again_apart := by
    intro s values slot name text h hname hgiven hdash
    refine bind_finish_run ?_
    rw [Reader.Holds.read_apart hname h hdash, Values.accept_of_given hgiven]
  again_joined := by
    intro s values slot name text h hname hgiven
    refine bind_finish_run ?_
    rw [Reader.Holds.read_joined hname h, Values.accept_of_given hgiven]

end scanner

end CommandLine

end ChipEight
