import ChipEight.Journal.Text
import ChipEight.Proofs.HexadecimalText
import ChipEight.Proofs.Loading
import ChipEight.Proofs.Steps

/-!
# The journal as a transcript

The lines that a session leaves tell what happened in it, in the order in which it happened: one
line for each program that was loaded, one for each step that fetched a word, and behind it one for
the fault if the step failed. Everything else, such as a poll of a pending wait, leaves none.
`Transcript` says so without the journal. As addresses and words are shown with all their digits,
the lines about fetched words alone determine what was fetched.
-/

namespace ChipEight

/-- The line about a word that was fetched: three digits of its address, four of the word, and the
instruction that it stands for. -/
def traceLine (pc : Address) (word : UInt16) : String :=
  "TRACE " ++ String.ofList (hexDigits 3 pc.val) ++ ": " ++
    String.ofList (hexDigits 4 word.toNat) ++ " " ++ (Instruction.decode word).text

/-- Whether a line is about a word that was fetched. -/
def isTrace (line : String) : Bool := "TRACE ".toList.isPrefixOf line.toList

/-- The address and the word that such a line shows, each at its place. -/
def readTrace (line : String) : Address × UInt16 :=
  (.ofWord (.ofNat (readHex ((line.toList.drop 6).take 3))),
    .ofNat (readHex ((line.toList.drop 11).take 4)))

/-- The lines about fetched words among those of some records. -/
def traces (log : List Record) : List String := (log.map Record.line).filter isTrace

namespace Record

/-- The line of a fetched word. -/
theorem line_fetched (pc : Address) (word : UInt16) :
    (fetched pc word).line = traceLine pc word := by
  have hlevel : Level.trace.text ++ " " = "TRACE " := by decide
  have htext : (fetched pc word).text = hexText 3 pc.val ++ ": " ++ hexText 4 word.toNat ++ " " ++
      (Instruction.decode word).text := rfl
  rw [line, level, hlevel, htext, hexText_eq (by decide) pc.isLt,
    hexText_eq (by decide) word.toNat_lt, traceLine]
  simp only [String.append_assoc]

/-- The word of a drawing at the start of the program area. -/
example : (fetched Memory.programStart 0xD12F).line =
    "TRACE 200: D12F Draw \x7b x: u4(1), y: u4(2), n: u4(15) \x7d" := by
  decide +kernel

/-- The line of a machine that was created. -/
theorem line_created (dialect : Dialect) :
    (created dialect).line = "DEBUG Creating CHIP-8 VM with " ++ dialect.text := by
  have hfront : Level.debug.text ++ " " ++ "Creating CHIP-8 VM with " =
      "DEBUG Creating CHIP-8 VM with " := by decide
  have htext : (created dialect).text = "Creating CHIP-8 VM with " ++ dialect.text := rfl
  rw [line, level, htext, ← String.append_assoc, hfront]

/-- The line of a program that was loaded. -/
theorem line_loaded (size : Nat) :
    (loaded size).line = "DEBUG Loaded " ++ toString size ++ " byte ROM at 0x200" := by
  have hfront : Level.debug.text ++ " " ++ "Loaded " = "DEBUG Loaded " := by decide
  have htext : (loaded size).text = "Loaded " ++ toString size ++ " byte ROM at 0x200" := rfl
  rw [line, level, htext, ← String.append_assoc, ← String.append_assoc, hfront]

/-- The line of a fault. -/
theorem line_faulted (fault : Fault) : (faulted fault).line = "WARN " ++ fault.message := by
  have hfront : Level.warn.text ++ " " = "WARN " := by decide
  have htext : (faulted fault).text = fault.message := rfl
  rw [line, level, hfront, htext]

/-- A line begins with the name of its level, so that tells whether it is about a fetched word. -/
theorem isTrace_line (r : Record) : isTrace r.line = decide (r.level = .trace) := by
  rw [isTrace, line, String.toList_append, String.toList_append]
  cases r.level with
  | warn => rfl
  | debug => rfl
  | trace => rfl

end Record

/-- Three characters show the address and four the word, all of them upper-case digits. -/
theorem exists_digits_traceLine (pc : Address) (word : UInt16) :
    ∃ place digits : List Char, traceLine pc word =
        "TRACE " ++ String.ofList place ++ ": " ++ String.ofList digits ++ " " ++
          (Instruction.decode word).text ∧
      place.length = 3 ∧ digits.length = 4 ∧
      (∀ c ∈ place ++ digits, c ∈ "0123456789ABCDEF".toList) ∧
      readHex place = pc.val ∧ readHex digits = word.toNat := by
  refine ⟨hexDigits 3 pc.val, hexDigits 4 word.toNat, rfl, length_hexDigits 3 pc.val,
    length_hexDigits 4 word.toNat, fun c hc => ?_, readHex_hexDigits pc.isLt,
    readHex_hexDigits word.toNat_lt⟩
  obtain hc | hc := List.mem_append.1 hc
  · exact mem_hexDigits hc
  · exact mem_hexDigits hc

/-- The line about a fetched word is recognised. -/
theorem isTrace_traceLine (pc : Address) (word : UInt16) : isTrace (traceLine pc word) = true := by
  rw [← Record.line_fetched, Record.isTrace_line]
  rfl

/-- Address and word are read off their line. -/
theorem readTrace_traceLine (pc : Address) (word : UInt16) :
    readTrace (traceLine pc word) = (pc, word) := by
  have hpc : ((traceLine pc word).toList.drop 6).take 3 = hexDigits 3 pc.val := by
    have hfront : "TRACE ".toList.length = 6 := by decide
    simp only [traceLine, String.toList_append, String.toList_ofList, List.append_assoc]
    rw [List.drop_left' hfront, List.take_left' (length_hexDigits 3 pc.val)]
  have hword : ((traceLine pc word).toList.drop 11).take 4 = hexDigits 4 word.toNat := by
    have hfront : ("TRACE ".toList ++ hexDigits 3 pc.val ++ ": ".toList).length = 11 := by
      rw [List.length_append, List.length_append, length_hexDigits]
      decide
    simp only [traceLine, String.toList_append, String.toList_ofList]
    rw [List.append_assoc, List.append_assoc, List.drop_left' hfront,
      List.take_left' (length_hexDigits 4 word.toNat)]
  have haddress : Address.ofWord (.ofNat pc.val) = pc := pc.ofWord_toWord
  rw [readTrace, hpc, hword, readHex_hexDigits pc.isLt, readHex_hexDigits word.toNat_lt,
    haddress, UInt16.ofNat_toNat]

namespace Machine

/-- What an operation fetches, with its address: a step fetches a word unless it polls a pending
wait, whether it fails or not. -/
def fetched? (m : Machine) (operation : Operation) : Option (Address × UInt16) :=
  match operation, m.keyWait with
  | .step, none => some (m.pc, m.fetch)
  | _, _ => none

/-- What a session fetches, in order. -/
def fetches (m : Machine) : List Operation → List (Address × UInt16)
  | [] => []
  | first :: rest => (m.fetched? first).toList ++ (m.perform first).machine.fetches rest

/-- The lines about a session, told from what happens in it. -/
inductive Transcript : Machine → List Operation → List String → Prop where
  /-- A session without operations has no lines. -/
  | done (m : Machine) : Transcript m [] []
  /-- A program that is loaded has one. -/
  | loaded {m : Machine} {operation : Operation} {program : List UInt8} {rest : List Operation}
      {lines : List String} (accepted : operation.Accepted program)
      (later : Transcript (m.perform operation).machine rest lines) :
      Transcript m (operation :: rest)
        (("DEBUG Loaded " ++ toString program.length ++ " byte ROM at 0x200") :: lines)
  /-- A step that carries out an instruction has one for the word that it fetched. -/
  | carriedOut {m : Machine} {signal : Signal} {rest : List Operation} {lines : List String}
      (ready : m.keyWait = none) (succeeds : m.step.outcome = .ok signal)
      (later : Transcript m.step.machine rest lines) :
      Transcript m (.step :: rest) (traceLine m.pc m.fetch :: lines)
  /-- A step that fails has one for the word and directly behind it one for the fault. -/
  | failed {m : Machine} {fault : Fault} {rest : List Operation} {lines : List String}
      (ready : m.keyWait = none) (fails : m.step.outcome = .error fault)
      (later : Transcript m.step.machine rest lines) :
      Transcript m (.step :: rest)
        (traceLine m.pc m.fetch :: ("WARN " ++ fault.message) :: lines)
  /-- A step that polls a pending wait has none. -/
  | polled {m : Machine} {rest : List Operation} {lines : List String}
      (waits : m.awaitsKey = true) (later : Transcript m.step.machine rest lines) :
      Transcript m (.step :: rest) lines
  /-- Anything else has none: ticks, key changes, loads that are refused, and what else the host
  does. -/
  | silent {m : Machine} {operation : Operation} {rest : List Operation} {lines : List String}
      (other : operation ≠ .step) (refused : ∀ program, ¬operation.Accepted program)
      (later : Transcript (m.perform operation).machine rest lines) :
      Transcript m (operation :: rest) lines

section operation

variable {m : Machine} {operation : Operation}

/-- The record of a program that is loaded. -/
theorem log_of_accepted {program : List UInt8} (h : operation.Accepted program) :
    (m.perform operation).log = [.loaded program.length] := by
  obtain ⟨cells, -, hload⟩ := m.exists_perform_load h.fits
  rw [m.perform_of_offers h.offered, hload]

/-- What is no step and loads nothing leaves no record. -/
theorem log_of_silent (hstep : operation ≠ .step)
    (hrefused : ∀ program, ¬operation.Accepted program) : (m.perform operation).log = [] := by
  cases hoffers : operation.offers with
  | some program =>
    have hlarge : 3584 < program.length :=
      Nat.lt_of_not_le fun hfits => hrefused program ⟨hoffers, hfits⟩
    rw [m.perform_of_offers hoffers, m.perform_load_of_large hlarge]
  | none =>
    cases operation with
    | step => exact absurd rfl hstep
    | load program => cases hoffers
    | loadFile path content =>
      obtain rfl : content = none := hoffers
      rfl
    | _ => rfl

/-- A poll leaves no record. -/
theorem log_of_polled (h : m.awaitsKey = true) : m.step.log = [] := by
  obtain ⟨wait, hwait⟩ := Option.isSome_iff_exists.1 h
  rw [step_of_keyWait hwait]

/-- An instruction that is carried out leaves the record of its word. -/
theorem log_of_carriedOut {signal : Signal} (hready : m.keyWait = none)
    (h : m.step.outcome = .ok signal) : m.step.log = [.fetched m.pc m.fetch] := by
  cases hout : m.execution.outcome with
  | ok other => rw [step_of_execution_ok hready hout]
  | error fault =>
    rw [step_of_execution_error hready hout] at h
    cases h

/-- An instruction that fails leaves the record of its word and that of the fault. -/
theorem log_of_failed {fault : Fault} (hready : m.keyWait = none)
    (h : m.step.outcome = .error fault) :
    m.step.log = [.fetched m.pc m.fetch, .faulted fault] := by
  cases hout : m.execution.outcome with
  | ok signal =>
    rw [step_of_execution_ok hready hout] at h
    cases h
  | error other =>
    rw [step_of_execution_error hready hout] at h ⊢
    cases h
    rfl

end operation

/-- The lines of the journal are a transcript of the session. -/
theorem transcript_journal (m : Machine) (session : List Operation) :
    m.Transcript session ((m.journal session).map Record.line) := by
  induction session generalizing m with
  | nil => exact .done m
  | cons operation rest ih =>
    have hlater := ih (m.perform operation).machine
    rw [journal, List.map_append]
    by_cases hstep : operation = .step
    · subst hstep
      change m.Transcript (.step :: rest) (m.step.log.map Record.line ++ _)
      cases hwait : m.keyWait with
      | some wait =>
        have hwaits : m.awaitsKey = true := by rw [awaitsKey, hwait, Option.isSome_some]
        rw [log_of_polled hwaits]
        exact .polled hwaits hlater
      | none =>
        cases hout : m.step.outcome with
        | ok signal =>
          rw [log_of_carriedOut hwait hout, List.map_singleton, Record.line_fetched]
          exact .carriedOut hwait hout hlater
        | error fault =>
          rw [log_of_failed hwait hout, List.map_cons, List.map_singleton, Record.line_fetched,
            Record.line_faulted]
          exact .failed hwait hout hlater
    · by_cases haccepted : ∃ program, operation.Accepted program
      · obtain ⟨program, haccepted⟩ := haccepted
        rw [log_of_accepted haccepted, List.map_singleton, Record.line_loaded]
        exact .loaded haccepted hlater
      · have hrefused : ∀ program, ¬operation.Accepted program :=
          fun program h => haccepted ⟨program, h⟩
        rw [log_of_silent hstep hrefused]
        exact .silent hstep hrefused hlater

/-- There is no other transcript of the session. -/
theorem Transcript.eq_journal {m : Machine} {session : List Operation} {lines : List String}
    (h : m.Transcript session lines) : lines = (m.journal session).map Record.line := by
  induction h with
  | done m => rfl
  | loaded haccepted _ ih =>
    rw [journal, List.map_append, log_of_accepted haccepted, ← ih, List.map_singleton,
      Record.line_loaded, List.singleton_append]
  | @carriedOut m signal rest lines hready hout _ ih =>
    change _ = (m.step.log ++ m.step.machine.journal rest).map Record.line
    rw [List.map_append, log_of_carriedOut hready hout, ← ih, List.map_singleton,
      Record.line_fetched, List.singleton_append]
  | @failed m fault rest lines hready hout _ ih =>
    change _ = (m.step.log ++ m.step.machine.journal rest).map Record.line
    rw [List.map_append, log_of_failed hready hout, ← ih, List.map_cons, List.map_singleton,
      Record.line_fetched, Record.line_faulted]
    rfl
  | @polled m rest lines hwaits _ ih =>
    change _ = (m.step.log ++ m.step.machine.journal rest).map Record.line
    rw [log_of_polled hwaits, List.nil_append, ih]
  | silent hstep hrefused _ ih =>
    rw [journal, log_of_silent hstep hrefused, List.nil_append, ih]

/-- A step that polls fetches nothing. -/
theorem fetched?_of_polled {m : Machine} (h : m.awaitsKey = true) : m.fetched? .step = none := by
  obtain ⟨wait, hwait⟩ := Option.isSome_iff_exists.1 h
  unfold fetched?
  rw [hwait]

/-- Any other step fetches the word at the program counter. -/
theorem fetched?_of_ready {m : Machine} (h : m.keyWait = none) :
    m.fetched? .step = some (m.pc, m.fetch) := by
  unfold fetched?
  rw [h]

/-- No other operation fetches anything. -/
theorem fetched?_of_ne_step {m : Machine} {operation : Operation} (h : operation ≠ .step) :
    m.fetched? operation = none := by
  cases operation with
  | step => exact absurd rfl h
  | _ => rfl

/-- The lines about fetched words are those of what the session fetches, in order. -/
theorem Transcript.filter_isTrace {m : Machine} {session : List Operation} {lines : List String}
    (h : m.Transcript session lines) :
    lines.filter isTrace =
      (m.fetches session).map fun fetched => traceLine fetched.1 fetched.2 := by
  induction h with
  | done m => rfl
  | @loaded m operation program rest lines haccepted _ ih =>
    have hstep : operation ≠ .step := by
      rintro rfl
      cases haccepted.offered
    have hline : isTrace ("DEBUG Loaded " ++ toString program.length ++ " byte ROM at 0x200") =
        false := by
      rw [← Record.line_loaded, Record.isTrace_line]
      rfl
    rw [List.filter_cons_of_neg (Bool.eq_false_iff.1 hline), ih, fetches,
      fetched?_of_ne_step hstep]
    rfl
  | carriedOut hready _ _ ih =>
    rw [List.filter_cons_of_pos (isTrace_traceLine _ _), ih, fetches, fetched?_of_ready hready]
    rfl
  | @failed m fault rest lines hready _ _ ih =>
    have hline : isTrace ("WARN " ++ fault.message) = false := by
      rw [← Record.line_faulted, Record.isTrace_line]
      rfl
    rw [List.filter_cons_of_pos (isTrace_traceLine _ _),
      List.filter_cons_of_neg (Bool.eq_false_iff.1 hline), ih, fetches, fetched?_of_ready hready]
    rfl
  | polled hwaits _ ih =>
    rw [ih, fetches, fetched?_of_polled hwaits]
    rfl
  | silent hstep _ _ ih =>
    rw [ih, fetches, fetched?_of_ne_step hstep]
    rfl

/-- What the session fetches is read off these lines. -/
theorem Transcript.map_readTrace {m : Machine} {session : List Operation} {lines : List String}
    (h : m.Transcript session lines) :
    (lines.filter isTrace).map readTrace = m.fetches session := by
  rw [h.filter_isTrace, List.map_map]
  refine (List.map_congr_left fun fetched _ => ?_).trans (List.map_id _)
  exact readTrace_traceLine fetched.1 fetched.2

/-- The journal is a faithful transcript. The lines that a session leaves are those that
`Transcript` tells from it and no others, for every machine; in front of those of a new machine
comes the line of its creation. A line about a fetched word shows its address with three upper-case
hexadecimal digits and the word with four. So what the steps of a session fetch is read off the
lines about it, and sessions with the same such lines fetch the same, whatever else differs. -/
theorem journal_is_transcript :
    (∀ (m : Machine) (session : List Operation) (lines : List String),
      lines = (m.journal session).map Record.line ↔ m.Transcript session lines) ∧
    (∀ (settings : Settings) (entropy : ChaCha.Key) (session : List Operation),
      ∃ later, (start settings entropy).1.Transcript session later ∧
        ((start settings entropy).2 ++ (start settings entropy).1.journal session).map Record.line =
          ("DEBUG Creating CHIP-8 VM with " ++ settings.dialect.text) :: later) ∧
    (∀ (pc : Address) (word : UInt16), ∃ place digits : List Char, traceLine pc word =
        "TRACE " ++ String.ofList place ++ ": " ++ String.ofList digits ++ " " ++
          (Instruction.decode word).text ∧
      place.length = 3 ∧ digits.length = 4 ∧
      (∀ c ∈ place ++ digits, c ∈ "0123456789ABCDEF".toList) ∧
      readHex place = pc.val ∧ readHex digits = word.toNat) ∧
    (∀ (m : Machine) (session : List Operation),
      (traces (m.journal session)).map readTrace = m.fetches session) ∧
    (∀ (settings : Settings) (entropy : ChaCha.Key) (session : List Operation),
      traces ((start settings entropy).2 ++ (start settings entropy).1.journal session) =
        traces ((start settings entropy).1.journal session)) ∧
    ∀ (m other : Machine) (session session' : List Operation),
      traces (m.journal session) = traces (other.journal session') ↔
        m.fetches session = other.fetches session' := by
  have hread : ∀ (m : Machine) (session : List Operation),
      (traces (m.journal session)).map readTrace = m.fetches session :=
    fun m session => (m.transcript_journal session).map_readTrace
  have htraces : ∀ (m : Machine) (session : List Operation), traces (m.journal session) =
      (m.fetches session).map fun fetched => traceLine fetched.1 fetched.2 :=
    fun m session => (m.transcript_journal session).filter_isTrace
  refine ⟨fun m session lines => ⟨?_, Transcript.eq_journal⟩, fun settings entropy session => ?_,
    exists_digits_traceLine, hread, fun settings entropy session => ?_,
    fun m other session session' => ⟨fun h => ?_, fun h => ?_⟩⟩
  · rintro rfl
    exact m.transcript_journal session
  · refine ⟨_, (start settings entropy).1.transcript_journal session, ?_⟩
    rw [← Record.line_created]
    rfl
  · have hcreated : isTrace (Record.created settings.dialect).line = false := Record.isTrace_line _
    exact List.filter_cons_of_neg (Bool.eq_false_iff.1 hcreated)
  · rw [← hread, ← hread, h]
  · rw [htraces, htraces, h]

end Machine

end ChipEight
