import ChipEight.Proofs.Adjustments

/-!
# Ticks and key changes between steps

A tick or a key change may come before or after a step: unless the step carries out an
instruction that looks at the timers or at that key, the machine is the same in the end, and
the step answers and records the same. So it does not matter how ticks are spread over a
sequence of steps that leave the timers alone: only their number counts, whatever the steps do,
fail or wait, and even if they overwrite the program.
-/

namespace ChipEight

/-- Whether an instruction reads or sets a timer. -/
def Instruction.usesTimers : Instruction → Bool
  | readDelay _ | setDelay _ | setSound _ => true
  | _ => false

/-- Whether an operation is one of those by which a machine is kept going without a player. -/
def Operation.keepsGoing : Operation → Bool
  | step | tick => true
  | _ => false

namespace Machine

/-- Whether an instruction depends on a key: it waits for any key, or it skips if that key is
held or unless it is. -/
def AsksFor (m : Machine) (key : Nibble) : Instruction → Prop
  | .awaitKey _ => True
  | .skipIfHeld x | .skipUnlessHeld x => Nibble.ofByte (m.v x) = key
  | _ => False

/-- The next step carries out an instruction that reads or sets a timer. -/
def HeedsTimers (m : Machine) : Prop := ∃ i, m.completed .step = some i ∧ i.usesTimers = true

/-- The next step polls a pending wait or carries out an instruction that depends on the key. -/
def HeedsKey (m : Machine) (key : Nibble) : Prop :=
  m.awaitsKey = true ∨ ∃ i, m.completed .step = some i ∧ m.AsksFor key i

/-- Instructions that do not use timers overlook a tick. -/
theorem overlooks_tick (m : Machine) {i : Instruction} (h : i.usesTimers = false) :
    m.Overlooks { timers := Timers.tick } i := by
  cases i with
  | readDelay x => cases h
  | setDelay x => cases h
  | setSound x => cases h
  | draw x y height => exact ⟨rfl, .inl rfl⟩
  | combine op x y => rfl
  | jumpBy target => rfl
  | random x mask => rfl
  | skipIfHeld x => rfl
  | skipUnlessHeld x => rfl
  | awaitKey x => rfl
  | storeRegisters x => rfl
  | loadRegisters x => rfl
  | _ => trivial

/-- Instructions that do not depend on a key overlook its press or release. -/
theorem overlooks_setKey (m : Machine) (key : Nibble) (pressed : Bool) {i : Instruction}
    (h : ¬m.AsksFor key i) : m.Overlooks { keypad := (·.set key pressed) } i := by
  have hother : ∀ other, other ≠ key →
      (m.keypad.set key pressed).holds other = m.keypad.holds other := fun other hne => by
    rw [Keypad.holds_set, if_neg hne.symm]
  cases i with
  | skipIfHeld x => exact hother _ h
  | skipUnlessHeld x => exact hother _ h
  | awaitKey x => exact absurd trivial h
  | draw x y height => exact ⟨rfl, .inl rfl⟩
  | combine op x y => rfl
  | jumpBy target => rfl
  | random x mask => rfl
  | readDelay x => rfl
  | setDelay x => rfl
  | setSound x => rfl
  | storeRegisters x => rfl
  | loadRegisters x => rfl
  | _ => trivial

/-- A tick may come before or after a step that does not heed the timers. -/
theorem step_tick {m : Machine} (h : ¬m.HeedsTimers) :
    m.tick.step = { m.step with machine := m.step.machine.tick } := by
  refine step_adjust (.inr rfl) fun i hi => ⟨m.overlooks_tick ?_, .inl rfl⟩
  exact Bool.eq_false_iff.2 fun huses => h ⟨i, hi, huses⟩

/-- A press or release of a key may come before or after a step that does not heed the key. -/
theorem step_setKey {m : Machine} {key : Nibble} (h : ¬m.HeedsKey key) (pressed : Bool) :
    (m.setKey key pressed).step =
      { m.step with machine := m.step.machine.setKey key pressed } := by
  have hready : m.keyWait = none := by
    rw [← Option.isNone_iff_eq_none, ← Option.not_isSome, Bool.not_eq_true']
    exact Bool.eq_false_iff.2 fun hawaits => h (.inl hawaits)
  refine step_adjust (.inl hready) fun i hi => ⟨m.overlooks_setKey key pressed ?_, .inl rfl⟩
  exact fun hasks => h (.inr ⟨i, hi, hasks⟩)

/-- A poll heeds no timer, and neither does a step that fails. -/
theorem not_heedsTimers {m : Machine}
    (h : m.awaitsKey = true ∨ ∃ fault, m.step.outcome = .error fault) : ¬m.HeedsTimers := by
  rintro ⟨i, hi, -⟩
  obtain ⟨-, hready, -, signal, hout⟩ := completed_eq_some_iff.1 hi
  obtain hawaits | ⟨fault, hfault⟩ := h
  · rw [awaitsKey, hready] at hawaits
    cases hawaits
  · rw [step_of_execution_ok hready hout] at hfault
    cases hfault

/-- A tick does not change which instruction the next step carries out. -/
theorem completed_tick (m : Machine) : m.tick.completed .step = m.completed .step :=
  m.completed_adjust { timers := Timers.tick }

/-- A tick does not change whether the next step heeds the timers. -/
theorem heedsTimers_tick (m : Machine) : m.tick.HeedsTimers ↔ m.HeedsTimers := by
  rw [HeedsTimers, completed_tick, HeedsTimers]

/-- The first step of a session that does not use the timers does not heed them. -/
theorem not_heedsTimers_of_completedIn {m : Machine} {rest : List Operation}
    (h : ∀ i ∈ m.completedIn (.step :: rest), i.usesTimers = false) : ¬m.HeedsTimers := by
  rintro ⟨i, hi, huses⟩
  have hmem : i ∈ m.completedIn (.step :: rest) := by
    rw [completedIn, hi]
    exact List.mem_cons_self
  rw [h i hmem] at huses
  cases huses

/-- A tick and a step that does not heed the timers can be swapped in a session. -/
theorem swap_step_tick {m : Machine} (h : ¬m.HeedsTimers) (rest : List Operation) :
    m.performAll (.tick :: .step :: rest) = m.performAll (.step :: .tick :: rest) ∧
      m.completedIn (.tick :: .step :: rest) = m.completedIn (.step :: .tick :: rest) := by
  have hmachine : m.tick.step.machine = m.step.machine.tick :=
    congrArg Step.machine (step_tick h)
  refine ⟨congrArg (·.performAll rest) hmachine, ?_⟩
  change (m.tick.completed .step).toList ++ m.tick.step.machine.completedIn rest =
    (m.completed .step).toList ++ m.step.machine.tick.completedIn rest
  rw [completed_tick, hmachine]

/-- The order of steps and ticks does not matter as long as no step uses the timers. -/
theorem performAll_of_perm {session other : List Operation} (h : session.Perm other) :
    ∀ m : Machine, (∀ operation ∈ session, operation.keepsGoing = true) →
      (∀ i ∈ m.completedIn session, i.usesTimers = false) →
      m.performAll other = m.performAll session ∧
        m.completedIn other = m.completedIn session := by
  -- Besides the machine the completed instructions stay the same, so that two rearrangements
  -- can be made one after the other.
  induction h with
  | nil => exact fun m _ _ => ⟨rfl, rfl⟩
  | cons first hrest ih =>
    intro m hgoing huses
    obtain ⟨hmachine, hcompleted⟩ := ih (m.perform first).machine
      (fun operation hmem => hgoing operation (List.mem_cons_of_mem _ hmem))
      (fun i hmem => huses i (List.mem_append_right _ hmem))
    refine ⟨hmachine, ?_⟩
    rw [completedIn, hcompleted, completedIn]
  | swap first second rest =>
    intro m hgoing huses
    have hsecond := hgoing second List.mem_cons_self
    have hfirst := hgoing first (List.mem_cons_of_mem _ List.mem_cons_self)
    cases first with
    | step =>
      cases second with
      | step => exact ⟨rfl, rfl⟩
      | tick =>
        have hheeds : ¬m.tick.HeedsTimers := not_heedsTimers_of_completedIn huses
        obtain ⟨hmachine, hcompleted⟩ := swap_step_tick (mt m.heedsTimers_tick.2 hheeds) rest
        exact ⟨hmachine.symm, hcompleted.symm⟩
      | _ => cases hsecond
    | tick =>
      cases second with
      | step => exact swap_step_tick (not_heedsTimers_of_completedIn huses) rest
      | tick => exact ⟨rfl, rfl⟩
      | _ => cases hsecond
    | _ => cases hfirst
  | trans hone htwo ihone ihtwo =>
    intro m hgoing huses
    obtain ⟨hmachine, hcompleted⟩ := ihone m hgoing huses
    obtain ⟨hmachine', hcompleted'⟩ := ihtwo m
      (fun operation hmem => hgoing operation (hone.mem_iff.2 hmem))
      (fun i hmem => huses i (hcompleted ▸ hmem))
    exact ⟨hmachine'.trans hmachine, hcompleted'.trans hcompleted⟩

/-- Host events commute with the steps that do not look at them. A tick and a step give the
same machine, answer and records in either order, unless the step carries out an instruction
that uses the timers; polls and faulty steps never do. So do a key change and a step, unless
the step polls or depends on that key. Ticks can therefore be moved anywhere in a session whose
steps do not use the timers. -/
theorem host_events_commute (m : Machine) :
    (¬m.HeedsTimers → m.tick.step = { m.step with machine := m.step.machine.tick }) ∧
    (m.awaitsKey = true ∨ (∃ fault, m.step.outcome = .error fault) → ¬m.HeedsTimers) ∧
    (∀ key pressed, ¬m.HeedsKey key →
      (m.setKey key pressed).step =
        { m.step with machine := m.step.machine.setKey key pressed }) ∧
    (∀ session other : List Operation, (∀ operation ∈ session, operation.keepsGoing = true) →
      (∀ i ∈ m.completedIn session, i.usesTimers = false) → session.Perm other →
      m.performAll other = m.performAll session) := by
  refine ⟨step_tick, not_heedsTimers, fun key pressed h => step_setKey h pressed, ?_⟩
  intro session other hgoing huses hperm
  exact (performAll_of_perm hperm m hgoing huses).1

/-- A machine that counts in a register for ever, with two ticks left on its delay timer. -/
def counting : Machine :=
  (create .modern (.ofSeed 0)).performAll [.load [0x73, 0x01, 0x12, 0x00], .setDelay 2]

/-- Two ticks, be they made between its steps or before them, do not change how it counts; nor
does a key. -/
theorem counting_spread_ticks :
    counting.performAll [.tick, .tick, .step, .step, .step] =
      counting.performAll [.step, .tick, .step, .tick, .step] ∧
    counting.tick.step = { counting.step with machine := counting.step.machine.tick } ∧
    (counting.setKey (.ofNat 7) true).step =
      { counting.step with machine := counting.step.machine.setKey (.ofNat 7) true } := by
  obtain ⟨htick, -, hkey, hsession⟩ := host_events_commute counting
  have hnext : counting.completed .step = some (.addByte (.ofNat 3) 1) := by decide +kernel
  refine ⟨hsession _ _ (by decide) (by decide +kernel) (by decide), htick ?_, hkey _ _ ?_⟩
  · rintro ⟨i, hi, huses⟩
    cases hnext.symm.trans hi
    cases huses
  · rintro (hawaits | ⟨i, hi, hasks⟩)
    · exact absurd hawaits (by decide +kernel)
    · cases hnext.symm.trans hi
      exact hasks

end Machine

end ChipEight
