import ChipEight.Proofs.Effects
import ChipEight.Proofs.KeyWait
import ChipEight.Proofs.Loading

/-!
# The first step of a program

A program that was loaded starts with the first step that finds no wait pending: this step fetches
its first two bytes as one word and carries that out. Loading ends no wait, so one that the
program before has left behind comes first. Until its key is delivered every step polls, and the
key goes to a register of the new program; memory, program counter and the other registers stay.
-/

namespace ChipEight

namespace Machine

/-- The next step carries out a word at the start of the program area. -/
structure Starts (m : Machine) (word : UInt16) : Prop where
  /-- The first record is that the word was fetched there. -/
  recorded : m.step.log.head? = some (.fetched Memory.programStart word)
  /-- If the word can be carried out, the step does so and records nothing else. -/
  carriesOut : ∀ signal,
    (m.execute Memory.programStart (.decode word)).outcome = .ok signal →
    m.step = ⟨(m.execute Memory.programStart (.decode word)).machine, .ok signal,
      [.fetched Memory.programStart word]⟩
  /-- Otherwise the step fails for this reason, records it, and leaves the machine as it is. -/
  fails : ∀ fault, (m.execute Memory.programStart (.decode word)).outcome = .error fault →
    m.step = ⟨m, .error fault, [.fetched Memory.programStart word, .faulted fault]⟩

/-- What a program still finds as it was loaded, while a wait that was pending goes on or is over at
last. -/
structure Unstarted (loaded m : Machine) : Prop where
  /-- Memory is as it was loaded. -/
  memory : m.memory = loaded.memory
  /-- The program counter has not moved. -/
  counter : m.pc = loaded.pc
  /-- A wait that is pending is for the same register as the one when the program was loaded. -/
  waits : ∀ wait, m.keyWait = some wait →
    ∃ old, loaded.keyWait = some old ∧ wait.register = old.register
  /-- All other registers are as they were. -/
  register : ∀ j, (∀ old, loaded.keyWait = some old → j ≠ old.register) → m.v j = loaded.v j

section start

variable {m : Machine}

/-- A step that finds no wait pending carries out the word at the program counter. -/
theorem starts_of_ready {word : UInt16} (hready : m.keyWait = none)
    (hcounter : m.pc = Memory.programStart) (hfetch : m.fetch = word) : m.Starts word := by
  have hexecution : m.execution = m.execute Memory.programStart (.decode word) := by
    rw [execution, instruction, hcounter, hfetch]
  refine ⟨?_, fun signal hout => ?_, fun fault hout => ?_⟩
  · cases hout : m.execution.outcome with
    | ok signal =>
      rw [step_of_execution_ok hready hout, hcounter, hfetch]
      rfl
    | error fault =>
      rw [step_of_execution_error hready hout, hcounter, hfetch]
      rfl
  · rw [← hexecution] at hout ⊢
    rw [step_of_execution_ok hready hout, hcounter, hfetch]
  · rw [← hexecution] at hout
    rw [step_of_execution_error hready hout, hcounter, hfetch]

/-- A step that carries out a word has found no wait pending. -/
theorem Starts.ready {word : UInt16} (h : m.Starts word) : m.keyWait = none := by
  cases hwait : m.keyWait with
  | none => rfl
  | some wait =>
    have hrecorded := h.recorded
    rw [step_of_keyWait hwait] at hrecorded
    cases hrecorded

/-- A poll keeps the register of the wait, or ends the wait. -/
theorem register_of_poll {wait next : KeyWait} (hwait : m.keyWait = some wait)
    (h : (m.poll wait).1.keyWait = some next) : next.register = wait.register := by
  unfold poll at h
  split at h
  · obtain rfl := Option.some.inj h
    rfl
  · split at h
    · obtain rfl := Option.some.inj (hwait.symm.trans h)
      rfl
    · cases h

/-- As long as a wait is pending, nothing of the program is lost. -/
theorem Unstarted.perform {loaded : Machine} {operation : Operation} (h : loaded.Unstarted m)
    (hplays : operation.plays = true) (hwaits : m.awaitsKey = true) :
    loaded.Unstarted (m.perform operation).machine := by
  cases operation with
  | tick => exact ⟨h.memory, h.counter, h.waits, h.register⟩
  | setKey key pressed => exact ⟨h.memory, h.counter, h.waits, h.register⟩
  | step =>
    obtain ⟨wait, hwait⟩ := Option.isSome_iff_exists.1 hwaits
    obtain ⟨old, hold, hregister⟩ := h.waits wait hwait
    have hmachine : (m.perform .step).machine = (m.poll wait).1 :=
      congrArg Step.machine (step_of_keyWait hwait)
    rw [hmachine]
    refine ⟨?_, (m.counters_poll wait).2.trans h.counter, fun next hnext => ?_, fun j hj => ?_⟩
    · obtain ⟨r, w, hpoll⟩ := m.poll_keyWait wait
      rw [hpoll]
      exact h.memory
    · exact ⟨old, hold, (register_of_poll hwait hnext).trans hregister⟩
    · have hother : j ≠ wait.register := hregister ▸ hj old hold
      exact (v_poll fun hover => hother hover.2).trans (h.register j hj)
  | _ => cases hplays

/-- Nothing of a program is lost until no wait is pending any more. -/
theorem unstarted_before {loaded : Machine} {session : List Operation}
    (hplays : ∀ operation ∈ session, operation.plays = true) {i : Nat}
    (hwaits : ∀ j < i, (loaded.before session j).awaitsKey = true) :
    loaded.Unstarted (loaded.before session i) := by
  induction i with
  | zero => exact ⟨rfl, rfl, fun wait hwait => ⟨wait, hwait, rfl⟩, fun _ _ => rfl⟩
  | succ i ih =>
    have hbefore := ih fun j hj => hwaits j (Nat.lt_succ_of_lt hj)
    cases hoperation : session[i]? with
    | none =>
      rw [loaded.before_succ_of_none hoperation]
      exact hbefore
    | some operation =>
      rw [loaded.before_succ hoperation]
      exact hbefore.perform (hplays operation (List.mem_of_getElem? hoperation))
        (hwaits i (Nat.lt_succ_self i))

end start

/-- The word that the first two bytes of a loaded program are. -/
theorem fetch_withProgram {m : Machine} {first second : UInt8} {rest : List UInt8} {cells : Memory}
    (h : m.Loaded (first :: second :: rest) cells) :
    (m.withProgram cells).fetch.toNat = 256 * first.toNat + second.toNat := by
  have hfirst := h.above Memory.programStart (Nat.le_refl _)
  have hsecond := h.above (Memory.programStart.forward 1) (by decide)
  have hplace : Memory.programStart.val - 0x200 = 0 := rfl
  have hnext : (Memory.programStart.forward 1).val - 0x200 = 1 := rfl
  rw [hplace, List.getD_cons_zero] at hfirst
  rw [hnext, List.getD_cons_succ, List.getD_cons_zero] at hsecond
  have hword := cells.toNat_readWord Memory.programStart
  rw [hfirst, hsecond] at hword
  exact hword

/-- A program that was loaded starts at once just if the machine was not waiting for a key. Whether
it was or not, the program starts with the first step that finds no wait pending, however many
steps, ticks and key changes come before; and by then only the register that a leftover wait is
for can have changed. -/
theorem program_starts_without_wait (m : Machine) {first second : UInt8} {rest : List UInt8}
    (hfits : (first :: second :: rest).length ≤ 3584) :
    ∃ loaded word, m.perform (.load (first :: second :: rest)) =
        ⟨loaded, .loaded (.ok ()), [.loaded (first :: second :: rest).length]⟩ ∧
      word.toNat = 256 * first.toNat + second.toNat ∧
      (loaded.Starts word ↔ m.keyWait = none) ∧
      ∀ (session : List Operation) (i : Nat), (∀ operation ∈ session, operation.plays = true) →
        (∀ j < i, (loaded.before session j).awaitsKey = true) →
        (loaded.before session i).awaitsKey = false →
        (loaded.before session i).Starts word ∧
          ∀ j, (∀ wait, m.keyWait = some wait → j ≠ wait.register) →
            (loaded.before session i).v j = m.v j := by
  obtain ⟨cells, hcells, hload⟩ := m.exists_perform_load hfits
  have hword := fetch_withProgram hcells
  refine ⟨m.withProgram cells, (m.withProgram cells).fetch, hload, hword, ⟨Starts.ready, ?_⟩, ?_⟩
  · exact fun hready => starts_of_ready hready rfl rfl
  · intro session i hplays hwaits hover
    have hunstarted := unstarted_before hplays hwaits
    generalize (m.withProgram cells).before session i = now at hover hunstarted ⊢
    have hready : now.keyWait = none := by
      rw [awaitsKey, Option.isSome_eq_false_iff, Option.isNone_iff_eq_none] at hover
      exact hover
    have hfetch : now.fetch = (m.withProgram cells).fetch := by
      rw [fetch, hunstarted.memory, hunstarted.counter, fetch]
    exact ⟨starts_of_ready hready hunstarted.counter hfetch, hunstarted.register⟩

/-- A machine whose program waits for a key for register 0. -/
def suspended : Machine := (create .modern (.ofSeed 0)).performAll [.load [0xF0, 0x0A], .step]

/-- The next program, which stores `2A` in register 0. -/
def reloaded : Machine := (suspended.perform (.load [0x60, 0x2A])).machine

/-- The leftover wait comes to its end: key 7 is pressed, seen and released, and delivered. -/
def deliversSeven : List Operation :=
  [.setKey (.ofNat 7) true, .step, .setKey (.ofNat 7) false, .step]

/-- The next program starts behind the delivery. -/
theorem reloaded_starts_late :
    [(0x60 : UInt8), 0x2A].length ≤ 3584 ∧
      ∃ word : UInt16, word.toNat = 256 * 0x60 + 0x2A ∧
        (reloaded.before deliversSeven 4).Starts word := by
  have hfits : [(0x60 : UInt8), 0x2A].length ≤ 3584 := by decide
  obtain ⟨loaded, word, hload, hword, -, hlate⟩ := program_starts_without_wait suspended hfits
  obtain rfl : reloaded = loaded := congrArg Reply.machine hload
  have hwaits : ∀ j < 4, (reloaded.before deliversSeven j).awaitsKey = true := by
    decide +kernel
  have hover : (reloaded.before deliversSeven 4).awaitsKey = false := by decide +kernel
  exact ⟨hfits, word, hword, (hlate deliversSeven 4 (by decide) hwaits hover).1⟩

/-- The next program does not start with its first step: that one polls the leftover wait and
records nothing, and in the end the key of the program before is in a register of the next one. -/
theorem reloaded_does_not_start :
    (suspended.perform (.load [0x60, 0x2A])).answer = .loaded (.ok ()) ∧
      reloaded.step.log = [] ∧ reloaded.step.outcome = .ok .awaitingKey ∧
      (∀ word, ¬reloaded.Starts word) ∧
      (reloaded.performAll deliversSeven).v (.ofNat 0) = 7 := by
  obtain ⟨hwait, hdelivered⟩ : reloaded.keyWait = some ⟨.ofNat 0, none⟩ ∧
      (reloaded.performAll deliversSeven).v (.ofNat 0) = 7 := by decide +kernel
  obtain ⟨cells, -, hload⟩ :=
    suspended.exists_perform_load (by decide : [(0x60 : UInt8), 0x2A].length ≤ 3584)
  refine ⟨?_, ?_, ?_, fun word hstarts => ?_, hdelivered⟩
  · rw [hload]
  · rw [step_of_unlatched hwait]
  · rw [step_of_unlatched hwait]
  · cases hwait.symm.trans hstarts.ready

end Machine

end ChipEight
