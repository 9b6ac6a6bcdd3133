import ChipEight.Proofs.Effects
import Mathlib.Data.Nat.Find

/-!
# Timers over whole sessions

What a timer holds is decided by two things: the value last stored in it and the number of ticks
since. Values are stored by the host or by the instructions `FX15` and `FX18`; nothing else that
happens to a machine counts, be it loads, faults, polls or other instructions. The step that stores
is told by its word in memory, and where it stands by its position in the session, so nothing here
follows the timers themselves.
-/

namespace ChipEight

/-- The two timers by name. -/
inductive TimerName where
  /-- The timer that programs read. -/
  | delay
  /-- The timer that keeps the tone sounding. -/
  | sound
  deriving DecidableEq

open Instruction.Form in
/-- The form of the words that set a timer to the byte in a register. -/
def TimerName.form : TimerName → Instruction.Form
  | delay => ⟨0xF, X, 0x1, 0x5⟩
  | sound => ⟨0xF, X, 0x1, 0x8⟩

/-- The instruction that sets a timer to the byte in a register. -/
def TimerName.instruction (x : Nibble) : TimerName → Instruction
  | delay => .setDelay x
  | sound => .setSound x

/-- What a timer holds. -/
def Timers.get (t : Timers) : TimerName → UInt8
  | .delay => t.delay
  | .sound => t.sound

/-- The tone sounds while something is left on the sound timer. -/
theorem Timers.sounding_iff (t : Timers) : t.sounding = true ↔ 0 < (t.get .sound).toNat := by
  have hzero : t.sound = 0 ↔ t.sound.toNat = 0 := UInt8.toNat_inj.symm
  rw [Timers.sounding, bne_iff_ne, ne_eq, hzero, Timers.get]
  omega

/-- The words of the form stand for the instruction, with the register of their second digit. -/
theorem TimerName.decode_of_fits {timer : TimerName} {word : UInt16} (h : timer.form.Fits word) :
    Instruction.decode word = timer.instruction (Instruction.Fields.ofWord word).x := by
  have hfamily : (Instruction.Fields.ofWord word).family = 0xF := by
    cases timer with
    | delay => exact h.family
    | sound => exact h.family
  unfold Instruction.decode
  dsimp only
  rw [hfamily]
  change Instruction.decodeMiscellaneous word _ = _
  unfold Instruction.decodeMiscellaneous
  cases timer with
  | delay =>
    have hlow := ((Instruction.Form.fits_ofLowByte_iff (by decide : 0x15 < 0x100)).1 h).2
    rw [hlow]
    rfl
  | sound =>
    have hlow := ((Instruction.Form.fits_ofLowByte_iff (by decide : 0x18 < 0x100)).1 h).2
    rw [hlow]
    rfl

namespace Machine

/-- The ways in which an operation stores a value in a timer. -/
inductive Stores (m : Machine) : TimerName → Operation → UInt8 → Prop where
  /-- The host sets the delay timer. -/
  | setDelay (value : UInt8) : Stores m .delay (.setDelay value) value
  /-- The host sets the sound timer. -/
  | setSound (value : UInt8) : Stores m .sound (.setSound value) value
  /-- No wait is pending, and the word at the program counter has the form that sets the timer. -/
  | step {timer : TimerName} (ready : m.keyWait = none) (fits : timer.form.Fits m.fetch) :
    Stores m timer .step (m.v m.digitX)

/-- Operation number `i` of a session stores a value in a timer. -/
def StoresAt (m : Machine) (session : List Operation) (timer : TimerName) (i : Nat)
    (value : UInt8) : Prop :=
  ∃ operation, session[i]? = some operation ∧ (m.before session i).Stores timer operation value

/-- The value last stored in a timer in the course of a session, and the number of ticks since. -/
inductive LastStored (m : Machine) (session : List Operation) (timer : TimerName) :
    UInt8 → Nat → Prop where
  /-- Nothing was stored; then all ticks count, from zero. -/
  | never (nowhere : ∀ i value, ¬m.StoresAt session timer i value) :
    LastStored m session timer 0 (session.count .tick)
  /-- Operation number `i` stored the value, and no later one stored any. -/
  | stored {i : Nat} {value : UInt8} (here : m.StoresAt session timer i value)
    (later : ∀ j other, i < j → ¬m.StoresAt session timer j other) :
    LastStored m session timer value ((session.drop (i + 1)).count .tick)

section operation

variable {m : Machine} {timer : TimerName} {operation : Operation}

/-- A timer holds what an operation stored in it. -/
theorem get_perform_of_stores {value : UInt8} (h : m.Stores timer operation value) :
    (m.perform operation).machine.timers.get timer = value := by
  cases h with
  | setDelay value => rfl
  | setSound value => rfl
  | step ready fits =>
    have hinstruction : m.instruction = timer.instruction m.digitX := TimerName.decode_of_fits fits
    have hdone : m.completed .step = some (timer.instruction m.digitX) := by
      refine completed_eq_some_iff.2 ⟨rfl, ready, hinstruction, .proceed, ?_⟩
      rw [execution, hinstruction]
      cases timer with
      | delay => rfl
      | sound => rfl
    rw [machine_of_completed hdone]
    cases timer with
    | delay => rfl
    | sound => rfl

/-- A step leaves a timer alone in which it stores nothing. -/
theorem get_step_of_not_stores (h : ∀ value, ¬m.Stores timer .step value) :
    m.step.machine.timers.get timer = m.timers.get timer := by
  have hforms : ¬m.CarriesOut [timer.form] := by
    rintro ⟨hready, ⟨form, hmem, hfits⟩, -⟩
    rw [List.mem_singleton] at hmem
    rw [hmem] at hfits
    exact h _ (.step hready hfits)
  cases timer with
  | delay => exact not_not.1 (mt carriesOut_of_delay_ne hforms)
  | sound => exact not_not.1 (mt carriesOut_of_sound_ne hforms)

/-- An operation that stores nothing in a timer counts it down if it is a tick, and else leaves
it alone. -/
theorem get_perform_of_not_stores (h : ∀ value, ¬m.Stores timer operation value) :
    ((m.perform operation).machine.timers.get timer).toNat =
      (m.timers.get timer).toNat - [operation].count .tick := by
  cases operation with
  | load program =>
    obtain ⟨cells, r, hload⟩ := m.load_memory program
    rw [hload]
    rfl
  | loadFile path content =>
    obtain ⟨cells, r, hload⟩ := m.loadFile_memory path content
    rw [hload]
    rfl
  | step => exact congrArg UInt8.toNat (get_step_of_not_stores h)
  | tick =>
    cases timer with
    | delay => exact Timers.toNat_countDown m.timers.delay
    | sound => exact Timers.toNat_countDown m.timers.sound
  | setDelay value =>
    cases timer with
    | delay => exact absurd (.setDelay value) (h value)
    | sound => rfl
  | setSound value =>
    cases timer with
    | delay => rfl
    | sound => exact absurd (.setSound value) (h value)
  | _ => rfl

end operation

section session

variable {m : Machine} {session : List Operation} {timer : TimerName}

/-- A session goes on where a part of it ended. -/
theorem before_drop (m : Machine) (session : List Operation) (i j : Nat) :
    (m.before session i).before (session.drop i) j = m.before session (i + j) := by
  rw [before, before, before, ← performAll_append, List.take_add]

/-- What is stored in the rest of a session is stored in the session. -/
theorem storesAt_drop {i j : Nat} {value : UInt8} :
    (m.before session i).StoresAt (session.drop i) timer j value ↔
      m.StoresAt session timer (i + j) value := by
  rw [StoresAt, StoresAt, List.getElem?_drop, before_drop]

/-- Over a session that stores nothing in a timer, its ticks are counted down. -/
theorem get_performAll_of_not_stores (h : ∀ i value, ¬m.StoresAt session timer i value) :
    ((m.performAll session).timers.get timer).toNat =
      (m.timers.get timer).toNat - session.count .tick := by
  induction session generalizing m with
  | nil => rfl
  | cons first rest ih =>
    have hfirst : ((m.perform first).machine.timers.get timer).toNat =
        (m.timers.get timer).toNat - [first].count .tick :=
      get_perform_of_not_stores fun value hstores => h 0 value ⟨first, rfl, hstores⟩
    have hrest : (((m.perform first).machine.performAll rest).timers.get timer).toNat =
        ((m.perform first).machine.timers.get timer).toNat - rest.count .tick :=
      ih fun i value hstores => h (1 + i) value (storesAt_drop.1 hstores)
    have hcount : ([first] ++ rest).count .tick = [first].count .tick + rest.count .tick :=
      List.count_append
    rw [List.singleton_append] at hcount
    rw [performAll_cons, hrest, hfirst, hcount, Nat.sub_sub]

/-- After a session a timer holds what was last stored in it, less the ticks since. -/
theorem get_performAll_of_lastStored {value : UInt8} {ticks : Nat}
    (hzero : m.timers.get timer = 0) (h : m.LastStored session timer value ticks) :
    ((m.performAll session).timers.get timer).toNat = value.toNat - ticks := by
  cases h with
  | never nowhere =>
    rw [get_performAll_of_not_stores nowhere, hzero]
  | @stored i value here later =>
    obtain ⟨operation, hoperation, hstores⟩ := here
    have hheld : (m.before session (i + 1)).timers.get timer = value := by
      rw [m.before_succ hoperation]
      exact get_perform_of_stores hstores
    have hnowhere : ∀ j other,
        ¬(m.before session (i + 1)).StoresAt (session.drop (i + 1)) timer j other :=
      fun j other hj => later (i + 1 + j) other (by omega) (storesAt_drop.1 hj)
    have hsplit : m.performAll session =
        (m.before session (i + 1)).performAll (session.drop (i + 1)) := by
      rw [before, ← performAll_append, List.take_append_drop]
    rw [hsplit, get_performAll_of_not_stores hnowhere, hheld]

/-- What is stored is stored within the session. -/
theorem StoresAt.lt_length {i : Nat} {value : UInt8} (h : m.StoresAt session timer i value) :
    i < session.length := by
  obtain ⟨operation, hoperation, -⟩ := h
  exact (List.getElem?_eq_some_iff.1 hoperation).1

/-- Something was stored last, or nothing ever. -/
theorem exists_lastStored (m : Machine) (session : List Operation) (timer : TimerName) :
    ∃ value ticks, m.LastStored session timer value ticks := by
  classical
  by_cases hsome : ∃ i, ∃ value, m.StoresAt session timer i value
  · obtain ⟨first, hfirst⟩ := hsome
    have hwithin : first ≤ session.length := by
      obtain ⟨value, hstores⟩ := hfirst
      exact Nat.le_of_lt hstores.lt_length
    obtain ⟨value, hlast⟩ := Nat.findGreatest_spec
      (P := fun i => ∃ value, m.StoresAt session timer i value) hwithin hfirst
    refine ⟨value, _, .stored hlast fun j other hj hstores => ?_⟩
    exact Nat.findGreatest_is_greatest hj (Nat.le_of_lt hstores.lt_length) ⟨other, hstores⟩
  · exact ⟨0, _, .never fun i value hstores => hsome ⟨i, value, hstores⟩⟩

end session

/-- After any session of a new machine each timer holds the value last stored in it, less the
number of ticks since, but not less than zero; with nothing stored it holds zero. What is stored
in one timer does not matter to the other, and the tone sounds while something is left on the
sound timer. -/
theorem timers_count_down (dialect : Dialect) (random : RandomStream) (session : List Operation) :
    (∀ timer, (∃ value ticks, (create dialect random).LastStored session timer value ticks) ∧
      ∀ value ticks, (create dialect random).LastStored session timer value ticks →
        ((((create dialect random).performAll session).timers.get timer).toNat : Int) =
          max 0 ((value.toNat : Int) - ticks)) ∧
    (((create dialect random).performAll session).sounding = true ↔
      0 < (((create dialect random).performAll session).timers.get .sound).toNat) := by
  refine ⟨fun timer => ⟨exists_lastStored _ session timer, fun value ticks h => ?_⟩,
    Timers.sounding_iff _⟩
  have hzero : (create dialect random).timers.get timer = 0 := by
    cases timer with
    | delay => rfl
    | sound => rfl
  have hheld := get_performAll_of_lastStored hzero h
  omega

/-- A program that sets the delay timer to five and then waits for a key, with ticks before and
during the wait. -/
def timing : List Operation :=
  [.load [0x61, 0x05, 0xF1, 0x15, 0xF3, 0x0A], .step, .step, .tick, .step, .step, .tick]

/-- The program set the delay timer, and there were two ticks since. -/
theorem lastStored_timing : (create .modern (.ofSeed 0)).LastStored timing .delay 5 2 := by
  obtain ⟨hready, hfetch, hvalue, hother, hwaits⟩ :
      ((create .modern (.ofSeed 0)).before timing 2).keyWait = none ∧
      ((create .modern (.ofSeed 0)).before timing 2).fetch = 0xF115 ∧
      ((create .modern (.ofSeed 0)).before timing 2).v
        ((create .modern (.ofSeed 0)).before timing 2).digitX = 5 ∧
      ((create .modern (.ofSeed 0)).before timing 4).fetch = 0xF30A ∧
      ((create .modern (.ofSeed 0)).before timing 5).keyWait ≠ none := by
    decide +kernel
  have hstores : ((create .modern (.ofSeed 0)).before timing 2).Stores .delay .step 5 := by
    rw [← hvalue]
    refine .step hready ?_
    rw [hfetch]
    exact ⟨rfl, trivial, rfl, rfl⟩
  refine .stored ⟨.step, rfl, hstores⟩ fun j other hj hlater => ?_
  have hlength : j < 7 := hlater.lt_length
  obtain ⟨operation, hoperation, hstores⟩ := hlater
  obtain rfl | rfl | rfl | rfl : j = 3 ∨ j = 4 ∨ j = 5 ∨ j = 6 := by omega
  · cases Option.some.inj hoperation
    cases hstores
  · cases Option.some.inj hoperation
    cases hstores with
    | step _ fits =>
      rw [hother] at fits
      have hy : (Instruction.Fields.ofWord 0xF30A).y = .ofNat 0x1 := fits.y
      exact absurd hy (by decide)
  · cases Option.some.inj hoperation
    cases hstores with
    | step ready _ => exact absurd ready hwaits
  · cases Option.some.inj hoperation
    cases hstores

/-- The delay timer is down to three, and the tone does not sound. -/
theorem timing_counts_down :
    (create .modern (.ofSeed 0)).LastStored timing .delay 5 2 ∧
      (((create .modern (.ofSeed 0)).performAll timing).timers.get .delay).toNat = 3 ∧
      ((create .modern (.ofSeed 0)).performAll timing).sounding = false := by
  obtain ⟨htimers, hsounding⟩ := timers_count_down .modern (.ofSeed 0) timing
  have hdelay := (htimers .delay).2 5 2 lastStored_timing
  have hsilent :
      (((create .modern (.ofSeed 0)).performAll timing).timers.get .sound).toNat = 0 := by
    decide +kernel
  rw [hsilent] at hsounding
  have hthree : max 0 (((5 : UInt8).toNat : Int) - (2 : Nat)) = (3 : Nat) := by decide
  exact ⟨lastStored_timing, Int.ofNat_inj.1 (hdelay.trans hthree),
    Bool.eq_false_iff.2 fun h => absurd (hsounding.1 h) (by decide)⟩

end Machine

end ChipEight
