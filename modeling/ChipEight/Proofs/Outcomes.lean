import ChipEight.Proofs.Forms
import ChipEight.Proofs.KeyWait

/-!
# Outcomes of steps

What a step answers is settled before it changes anything: by the pending wait and the
keypad, or else by the word at the program counter, the depth of the stack and the dialect.
Only three kinds of words can fail, each under a condition of its own, and a fault tells the
address of the failing word. Every answer is tied to the form of the word in the table of
the instruction set, so nothing here depends on how words are decoded.
-/

namespace ChipEight

/-- A wait is over when the key that it latched is no longer held. -/
def KeyWait.Over (wait : KeyWait) (keypad : Keypad) : Prop :=
  ∃ key, wait.latched = some key ∧ keypad.holds key = false

namespace Machine

open Instruction in
open Form in
/-- What an instruction of a form that lies at `place` will answer. -/
def verdict (m : Machine) (place : Address) (form : Form) : Except Fault Signal :=
  if form = ⟨0x2, N, N, N⟩ then
    if m.stack.depth = 16 then .error (.stackOverflow place.toWord) else .ok .proceed
  else if form = ⟨0x0, 0x0, 0xE, 0xE⟩ then
    if m.stack.depth = 0 then .error (.stackUnderflow place.toWord) else .ok .proceed
  else if form = ⟨0xF, X, 0x0, 0xA⟩ then .ok .awaitingKey
  else if form = ⟨0xD, X, Y, N⟩ then
    .ok (if m.dialect.drawEndsFrame then .nextFrame else .proceed)
  else .ok .proceed

section verdict

open Instruction
open Form

variable (m : Machine) (place : Address) (form : Form) (pc : UInt16)

/-- The four forms whose verdict is special are different. -/
theorem special_forms_differ :
    (⟨0x2, N, N, N⟩ : Form) ≠ ⟨0x0, 0x0, 0xE, 0xE⟩ ∧
    (⟨0x2, N, N, N⟩ : Form) ≠ ⟨0xF, X, 0x0, 0xA⟩ ∧ (⟨0x2, N, N, N⟩ : Form) ≠ ⟨0xD, X, Y, N⟩ ∧
    (⟨0x0, 0x0, 0xE, 0xE⟩ : Form) ≠ ⟨0xF, X, 0x0, 0xA⟩ ∧
    (⟨0x0, 0x0, 0xE, 0xE⟩ : Form) ≠ ⟨0xD, X, Y, N⟩ ∧
    (⟨0xF, X, 0x0, 0xA⟩ : Form) ≠ ⟨0xD, X, Y, N⟩ := by
  decide

/-- A form is never unassigned. -/
theorem verdict_ne_unassigned (word : UInt16) :
    m.verdict place form ≠ .error (.unassigned word pc) := by
  unfold verdict
  grind

/-- Only calls overflow, and only on a full stack. -/
theorem verdict_eq_overflow_iff : m.verdict place form = .error (.stackOverflow pc) ↔
    pc = place.toWord ∧ form = ⟨0x2, N, N, N⟩ ∧ m.stack.depth = 16 := by
  unfold verdict
  grind

/-- Only returns underflow, and only on an empty stack. -/
theorem verdict_eq_underflow_iff : m.verdict place form = .error (.stackUnderflow pc) ↔
    pc = place.toWord ∧ form = ⟨0x0, 0x0, 0xE, 0xE⟩ ∧ m.stack.depth = 0 := by
  have hdiffer := special_forms_differ
  unfold verdict
  grind

/-- Only `FX0A` asks to wait for a key, and it always does. -/
theorem verdict_eq_awaitingKey_iff :
    m.verdict place form = .ok .awaitingKey ↔ form = ⟨0xF, X, 0x0, 0xA⟩ := by
  have hdiffer := special_forms_differ
  unfold verdict
  grind

/-- Only `DXYN` asks for the next frame, and only in some dialects. -/
theorem verdict_eq_nextFrame_iff : m.verdict place form = .ok .nextFrame ↔
    form = ⟨0xD, X, Y, N⟩ ∧ m.dialect.drawEndsFrame = true := by
  have hdiffer := special_forms_differ
  unfold verdict
  grind

/-- All other instructions ask to go on. -/
theorem verdict_eq_proceed_iff : m.verdict place form = .ok .proceed ↔
    ¬(form = ⟨0x2, N, N, N⟩ ∧ m.stack.depth = 16) ∧
    ¬(form = ⟨0x0, 0x0, 0xE, 0xE⟩ ∧ m.stack.depth = 0) ∧
    form ≠ ⟨0xF, X, 0x0, 0xA⟩ ∧
    ¬(form = ⟨0xD, X, Y, N⟩ ∧ m.dialect.drawEndsFrame = true) := by
  have hdiffer := special_forms_differ
  unfold verdict
  grind

end verdict

/-- A call fails only if the stack is full. -/
theorem outcome_call (m : Machine) (place target : Address) :
    (m.call place target).outcome =
      if m.stack.depth = 16 then .error (.stackOverflow place.toWord) else .ok .proceed := by
  unfold call
  cases hpush : m.stack.push m.pc with
  | none => rw [if_pos ((m.stack.push_eq_none_iff m.pc).1 hpush)]
  | some pushed =>
    have hroom : m.stack.depth ≠ 16 := by
      intro hfull
      rw [(m.stack.push_eq_none_iff m.pc).2 hfull] at hpush
      cases hpush
    rw [if_neg hroom]

/-- A return fails only if the stack is empty. -/
theorem outcome_ret (m : Machine) (place : Address) :
    (m.ret place).outcome =
      if m.stack.depth = 0 then .error (.stackUnderflow place.toWord) else .ok .proceed := by
  unfold ret
  cases hpop : m.stack.pop with
  | none => rw [if_pos (m.stack.pop_eq_none_iff.1 hpop)]
  | some popped =>
    have hopen : m.stack.depth ≠ 0 := by
      intro hempty
      rw [m.stack.pop_eq_none_iff.2 hempty] at hpop
      cases hpop
    rw [if_neg hopen]

/-- Every instruction answers the verdict on its form. -/
theorem outcome_execute (m : Machine) (place : Address) {instruction : Instruction}
    {form : Instruction.Form} (h : instruction.form? = some form) :
    (m.execute place instruction).outcome = m.verdict place form := by
  cases instruction with
  | unassigned word => cases h
  | call target =>
    obtain rfl := Option.some.inj h
    exact m.advance.outcome_call place target
  | ret =>
    obtain rfl := Option.some.inj h
    exact m.advance.outcome_ret place
  | combine op x y =>
    obtain rfl := Option.some.inj h
    cases op <;> rfl
  | _ =>
    obtain rfl := Option.some.inj h
    rfl

/-- Without a pending wait a step answers what the instruction at the program counter
answers. -/
theorem outcome_step_of_ready {m : Machine} (hready : m.keyWait = none) :
    m.step.outcome = (m.execute m.pc m.instruction).outcome := by
  change m.step.outcome = m.execution.outcome
  cases hout : m.execution.outcome with
  | ok signal => rw [step_of_execution_ok hready hout]
  | error fault => rw [step_of_execution_error hready hout]

/-- With a pending wait a step asks for the next instruction if the latched key is released,
and to wait otherwise. -/
theorem outcome_step_of_waiting {m : Machine} {wait : KeyWait} (h : m.keyWait = some wait) :
    (wait.Over m.keypad ∧ m.step.outcome = .ok .proceed) ∨
      (¬wait.Over m.keypad ∧ m.step.outcome = .ok .awaitingKey) := by
  obtain ⟨x, latched⟩ := wait
  cases latched with
  | none =>
    refine .inr ⟨?_, by rw [step_of_unlatched h]⟩
    rintro ⟨key, hkey, -⟩
    cases hkey
  | some key =>
    cases hheld : m.keypad.holds key with
    | true =>
      refine .inr ⟨?_, by rw [step_of_held h hheld]⟩
      rintro ⟨other, hother, hreleased⟩
      obtain rfl := Option.some.inj hother
      rw [hheld] at hreleased
      cases hreleased
    | false => exact .inl ⟨⟨key, rfl, hheld⟩, by rw [step_of_released h hheld]⟩

open Instruction in
open Form in
/-- The answers of all steps. With a pending wait a step never fails: it asks for the next
instruction if the latched key is released and to wait otherwise. Without one, the word at
the program counter decides, which is the byte there followed by the byte behind it. -/
theorem step_outcome_iff (m : Machine) :
    (∀ wait, m.keyWait = some wait →
      (m.step.outcome = .ok .proceed ↔ wait.Over m.keypad) ∧
      (m.step.outcome = .ok .awaitingKey ↔ ¬wait.Over m.keypad)) ∧
    (m.keyWait = none →
      m.fetch.toNat =
        256 * (m.memory.read m.pc).toNat + (m.memory.read (m.pc.forward 1)).toNat ∧
      (∀ word pc, m.step.outcome = .error (.unassigned word pc) ↔
        word = m.fetch ∧ pc = m.pc.toWord ∧ ∀ form ∈ forms, ¬form.Fits m.fetch) ∧
      (∀ pc, m.step.outcome = .error (.stackOverflow pc) ↔
        pc = m.pc.toWord ∧ Fits ⟨0x2, N, N, N⟩ m.fetch ∧ m.stack.depth = 16) ∧
      (∀ pc, m.step.outcome = .error (.stackUnderflow pc) ↔
        pc = m.pc.toWord ∧ Fits ⟨0x0, 0x0, 0xE, 0xE⟩ m.fetch ∧ m.stack.depth = 0) ∧
      (m.step.outcome = .ok .awaitingKey ↔ Fits ⟨0xF, X, 0x0, 0xA⟩ m.fetch) ∧
      (m.step.outcome = .ok .nextFrame ↔
        Fits ⟨0xD, X, Y, N⟩ m.fetch ∧ m.dialect.drawEndsFrame = true) ∧
      (m.step.outcome = .ok .proceed ↔
        (∃ form ∈ forms, form.Fits m.fetch) ∧
        ¬(Fits ⟨0x2, N, N, N⟩ m.fetch ∧ m.stack.depth = 16) ∧
        ¬(Fits ⟨0x0, 0x0, 0xE, 0xE⟩ m.fetch ∧ m.stack.depth = 0) ∧
        ¬Fits ⟨0xF, X, 0x0, 0xA⟩ m.fetch ∧
        ¬(Fits ⟨0xD, X, Y, N⟩ m.fetch ∧ m.dialect.drawEndsFrame = true))) := by
  refine ⟨fun wait h => ?_, fun hready => ⟨m.memory.toNat_readWord m.pc, ?_⟩⟩
  · obtain ⟨hover, hout⟩ | ⟨hover, hout⟩ := outcome_step_of_waiting h
    · rw [hout]
      exact ⟨iff_of_true rfl hover, iff_of_false nofun (not_not_intro hover)⟩
    · rw [hout]
      exact ⟨iff_of_false nofun hover, iff_of_true rfl hover⟩
  rw [outcome_step_of_ready hready]
  cases hform : m.instruction.form? with
  | some form =>
    have hmem := mem_forms hform
    have hfits : form.Fits m.fetch := (fits_iff hmem m.fetch).2 hform
    have hsome : ∃ form ∈ forms, form.Fits m.fetch := ⟨form, hmem, hfits⟩
    rw [m.outcome_execute m.pc hform]
    -- The word fits this form only, so what it fits is a matter of which form this is.
    simp only [hfits.eq_iff hmem (show (⟨0x2, N, N, N⟩ : Form) ∈ forms by decide),
      hfits.eq_iff hmem (show (⟨0x0, 0x0, 0xE, 0xE⟩ : Form) ∈ forms by decide),
      hfits.eq_iff hmem (show (⟨0xF, X, 0x0, 0xA⟩ : Form) ∈ forms by decide),
      hfits.eq_iff hmem (show (⟨0xD, X, Y, N⟩ : Form) ∈ forms by decide)]
    refine ⟨fun word pc => iff_of_false (m.verdict_ne_unassigned m.pc form pc word) ?_,
      m.verdict_eq_overflow_iff m.pc form, m.verdict_eq_underflow_iff m.pc form,
      m.verdict_eq_awaitingKey_iff m.pc form, m.verdict_eq_nextFrame_iff m.pc form, ?_⟩
    · rintro ⟨-, -, hnone⟩
      exact hnone form hmem hfits
    · rw [m.verdict_eq_proceed_iff m.pc form, and_iff_right hsome]
  | none =>
    obtain ⟨hunassigned, hnone⟩ := decode_of_form?_eq_none hform
    have hout : (m.execute m.pc m.instruction).outcome =
        .error (.unassigned m.fetch m.pc.toWord) := by
      rw [instruction, hunassigned]
      rfl
    rw [hout]
    refine ⟨fun word pc => ?_,
      fun pc => iff_of_false nofun fun h => hnone _ (by decide) h.2.1,
      fun pc => iff_of_false nofun fun h => hnone _ (by decide) h.2.1,
      iff_of_false nofun (hnone _ (by decide)),
      iff_of_false nofun fun h => hnone _ (by decide) h.1, iff_of_false nofun ?_⟩
    · constructor
      · intro h
        cases h
        exact ⟨rfl, rfl, hnone⟩
      · rintro ⟨rfl, rfl, -⟩
        rfl
    · rintro ⟨⟨form, hmem, hfits⟩, -⟩
      exact hnone form hmem hfits

/-- A machine whose program counter is at the last cell, with a word there that is almost a
return. -/
def facingAlmostReturn : Machine := ((create .modern (.ofSeed 0)).setCounter 0xFFF).facing 0x01EE

/-- The step fails and tells the word and its address. -/
theorem outcome_facingAlmostReturn :
    facingAlmostReturn.keyWait = none ∧
      facingAlmostReturn.step.outcome = .error (.unassigned 0x01EE 0xFFF) := by
  have hfetch : facingAlmostReturn.fetch = 0x01EE := fetch_facing _ _
  have hform : (Instruction.decode 0x01EE).form? = none := by decide
  have hnone : ∀ form ∈ Instruction.forms, ¬form.Fits facingAlmostReturn.fetch := by
    rw [hfetch]
    exact (Instruction.decode_of_form?_eq_none hform).2
  obtain ⟨-, hunassigned, -⟩ := facingAlmostReturn.step_outcome_iff.2 rfl
  exact ⟨rfl, (hunassigned 0x01EE 0xFFF).2 ⟨hfetch.symm, rfl, hnone⟩⟩

end Machine

end ChipEight
