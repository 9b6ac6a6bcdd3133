import ChipEight.Proofs.Footprint

/-!
# What instructions overlook

Timers, keypad, dialect and random generator are parts of a machine that its host sets or changes
while a program runs. `Machine.Overlooks` says of a machine and an instruction that carrying it out
does not depend on such a change: it can be made before or after the instruction, and the machine
is the same in the end. What holds of single instructions holds of steps, where a step that polls
depends on nothing but the keypad, and one that fails does not depend on any of the four. Loads and
host changes of other parts do not depend on dialect and generator.
-/

namespace ChipEight

/-- A change of the parts of a machine that its host controls. -/
structure Adjustment where
  /-- What happens to the timers. -/
  timers : Timers → Timers := id
  /-- What happens to the keypad. -/
  keypad : Keypad → Keypad := id
  /-- What happens to the dialect. -/
  dialect : Dialect → Dialect := id
  /-- What happens to the random generator. -/
  random : RandomStream → RandomStream := id

namespace Machine

/-- The machine after an adjustment. -/
def adjust (m : Machine) (a : Adjustment) : Machine :=
  { m with
    timers := a.timers m.timers
    keypad := a.keypad m.keypad
    dialect := a.dialect m.dialect
    random := a.random m.random }

/-- What drawing a sprite makes of the screen. -/
def drawn (m : Machine) (x y height : Nibble) : Drawn :=
  m.screen.draw m.edges (m.v x).toNat (m.v y).toNat (m.sprite height)

/-- The instruction does the same to the machine whether or not it is adjusted. -/
def Overlooks (m : Machine) (a : Adjustment) : Instruction → Prop
  | .combine op x y =>
    op.apply (a.dialect m.dialect) (m.v x) (m.v y) = op.apply m.dialect (m.v x) (m.v y)
  | .jumpBy target => m.v ((m.adjust a).jumpRegister target) = m.v (m.jumpRegister target)
  | .random _ _ => (a.random m.random).nextByte =
      (m.random.nextByte.1, a.random m.random.nextByte.2)
  | .draw x y height =>
    (m.adjust a).drawn x y height = m.drawn x y height ∧
      ((a.dialect m.dialect).drawClearsFlag = m.dialect.drawClearsFlag ∨
        (m.drawn x y height).erased = true ∨ m.v Registers.flag = 0)
  | .skipIfHeld x | .skipUnlessHeld x =>
    (a.keypad m.keypad).holds (.ofByte (m.v x)) = m.keypad.holds (.ofByte (m.v x))
  | .awaitKey _ => (a.keypad m.keypad).lowest? = m.keypad.lowest?
  | .readDelay _ => (a.timers m.timers).delay = m.timers.delay
  | .setDelay x =>
    a.timers { m.timers with delay := m.v x } = { a.timers m.timers with delay := m.v x }
  | .setSound x =>
    a.timers { m.timers with sound := m.v x } = { a.timers m.timers with sound := m.v x }
  | .storeRegisters _ | .loadRegisters _ =>
    (a.dialect m.dialect).transferMovesIndex = m.dialect.transferMovesIndex
  | _ => True

section adjust

variable (m : Machine) {a : Adjustment}

/-- A skip overlooks every adjustment. -/
theorem skipIf_adjust (a : Adjustment) (condition : Bool) :
    (m.adjust a).skipIf condition = (m.skipIf condition).adjust a := by
  cases condition <;> rfl

/-- Arithmetic overlooks the dialect if the operation gives the same in both. -/
theorem combine_adjust {op : Alu} {x y : Nibble}
    (h : op.apply (a.dialect m.dialect) (m.v x) (m.v y) =
      op.apply m.dialect (m.v x) (m.v y)) :
    (m.adjust a).combine op x y = (m.combine op x y).adjust a := by
  have hresult : op.apply (m.adjust a).dialect ((m.adjust a).v x) ((m.adjust a).v y) =
      op.apply m.dialect (m.v x) (m.v y) := h
  unfold combine
  rw [hresult]
  dsimp only
  split <;> rfl

/-- Clearing a flag that is clear changes nothing. -/
theorem setFlag_false {m : Machine} (h : m.v Registers.flag = 0) : m.setFlag false = m := by
  have hstored : m.setFlag false = m.setV Registers.flag (m.v Registers.flag) := by
    rw [h]
    rfl
  rw [hstored, setV_v]

/-- Drawing overlooks the dialect if the sprite is drawn alike and the flag ends up alike. -/
theorem draw_adjust {x y height : Nibble} (h : m.Overlooks a (.draw x y height)) :
    (m.adjust a).draw x y height = (m.draw x y height).adjust a := by
  obtain ⟨hdrawn, hflag⟩ := h
  obtain ⟨shown, hshown⟩ : ∃ shown : Machine,
    shown = { m with screen := (m.drawn x y height).screen } := ⟨_, rfl⟩
  have hright : m.draw x y height =
      if m.dialect.drawClearsFlag || (m.drawn x y height).erased then
        shown.setFlag (m.drawn x y height).erased
      else shown := by
    rw [hshown]
    rfl
  have hleft : (m.adjust a).draw x y height =
      if (a.dialect m.dialect).drawClearsFlag || (m.drawn x y height).erased then
        (shown.setFlag (m.drawn x y height).erased).adjust a
      else shown.adjust a := by
    rw [hshown, ← hdrawn]
    rfl
  have hv : shown.v Registers.flag = m.v Registers.flag := by rw [hshown]; rfl
  rw [hleft, hright, ← apply_ite (fun next : Machine => next.adjust a)]
  congr 1
  cases herased : (m.drawn x y height).erased with
  | true => rw [Bool.or_true, Bool.or_true]
  | false =>
    rw [Bool.or_false, Bool.or_false]
    rw [herased] at hflag
    obtain hsame | hnever | hclear := hflag
    · rw [hsame]
    · cases hnever
    · rw [setFlag_false (hv.trans hclear), ite_self, ite_self]

/-- Loading registers overlooks every adjustment. -/
theorem loadBytes_adjust (a : Adjustment) (x : Nibble) :
    (m.adjust a).loadBytes x = (m.loadBytes x).adjust a := by
  cases m
  rfl

/-- Loading registers does not change the dialect. -/
theorem dialect_loadBytes (x : Nibble) : (m.loadBytes x).dialect = m.dialect := by
  cases m
  rfl

/-- The end of a transfer overlooks the dialect if both move the index register alike. -/
theorem finishTransfer_adjust (x : Nibble)
    (h : (a.dialect m.dialect).transferMovesIndex = m.dialect.transferMovesIndex) :
    (m.adjust a).finishTransfer x = (m.finishTransfer x).adjust a := by
  have hmoves : (m.adjust a).dialect.transferMovesIndex = m.dialect.transferMovesIndex := h
  unfold finishTransfer
  rw [hmoves]
  split <;> rfl

/-- Storing a random byte overlooks a change of the generator that gives the same byte and can also
be made behind it. -/
theorem randomize_adjust {x : Nibble} (mask : UInt8)
    (h : m.Overlooks a (.random x mask)) :
    (m.adjust a).randomize x mask = (m.randomize x mask).adjust a := by
  have hnext : (m.adjust a).random.nextByte =
      (m.random.nextByte.1, a.random m.random.nextByte.2) := h
  unfold randomize
  rw [hnext]
  rfl

/-- Opening a call overlooks every adjustment. -/
theorem call_adjust (a : Adjustment) (place target : Address) :
    (m.adjust a).call place target =
      ⟨(m.call place target).machine.adjust a, (m.call place target).outcome⟩ := by
  have hpush : (m.adjust a).stack.push (m.adjust a).pc = m.stack.push m.pc := rfl
  unfold call
  rw [hpush]
  split <;> rfl

/-- Closing a call overlooks every adjustment. -/
theorem ret_adjust (a : Adjustment) (place : Address) :
    (m.adjust a).ret place = ⟨(m.ret place).machine.adjust a, (m.ret place).outcome⟩ := by
  have hpop : (m.adjust a).stack.pop = m.stack.pop := rfl
  unfold ret
  rw [hpop]
  split <;> rfl

/-- An adjustment that an instruction overlooks can be made before or after it. -/
theorem machine_execute_adjust {i : Instruction} (h : m.Overlooks a i) (place : Address) :
    ((m.adjust a).execute place i).machine = (m.execute place i).machine.adjust a := by
  cases i with
  | ret => exact congrArg Execution.machine (m.advance.ret_adjust a place)
  | call target => exact congrArg Execution.machine (m.advance.call_adjust a place target)
  | combine op x y => exact m.advance.combine_adjust h
  | draw x y height => exact m.advance.draw_adjust h
  | skipIfByte x byte => exact m.advance.skipIf_adjust a _
  | skipUnlessByte x byte => exact m.advance.skipIf_adjust a _
  | skipIfSame x y => exact m.advance.skipIf_adjust a _
  | skipUnlessSame x y => exact m.advance.skipIf_adjust a _
  | skipIfHeld x =>
    exact (congrArg (m.advance.adjust a).skipIf h).trans (m.advance.skipIf_adjust a _)
  | skipUnlessHeld x =>
    exact (congrArg (fun held => (m.advance.adjust a).skipIf (!held)) h).trans
      (m.advance.skipIf_adjust a _)
  | jumpBy target =>
    exact congrArg
      (fun offset : UInt8 => (m.advance.goTo (target.forward offset.toNat)).adjust a) h
  | random x mask => exact m.advance.randomize_adjust mask h
  | awaitKey x =>
    exact congrArg (fun latched => { m.advance.adjust a with keyWait := some ⟨x, latched⟩ }) h
  | readDelay x => exact congrArg (fun value => (m.advance.setV x value).adjust a) h
  | setDelay x => exact congrArg (fun timers => { m.advance.adjust a with timers := timers }) h.symm
  | setSound x => exact congrArg (fun timers => { m.advance.adjust a with timers := timers }) h.symm
  | storeRegisters x =>
    exact (m.advance.storeBytes (m.registers.v.toList.take (x.val + 1))).finishTransfer_adjust x h
  | loadRegisters x =>
    have hmoves : (a.dialect (m.advance.loadBytes x).dialect).transferMovesIndex =
        (m.advance.loadBytes x).dialect.transferMovesIndex := by
      rw [dialect_loadBytes]
      exact h
    have hfinish := (m.advance.loadBytes x).finishTransfer_adjust x hmoves
    rw [← loadBytes_adjust] at hfinish
    exact hfinish
  | _ => rfl

/-- A drawing answers what the dialect says; no other answer depends on an adjustment. -/
theorem outcome_execute_adjust (a : Adjustment) (place : Address) {i : Instruction}
    (h : (a.dialect m.dialect).drawEndsFrame = m.dialect.drawEndsFrame ∨
      ∀ x y height, i ≠ .draw x y height) :
    ((m.adjust a).execute place i).outcome = (m.execute place i).outcome := by
  cases i with
  | ret =>
    have hret := congrArg Execution.outcome (m.advance.ret_adjust a place)
    exact hret
  | call target =>
    have hcall := congrArg Execution.outcome (m.advance.call_adjust a place target)
    exact hcall
  | draw x y height =>
    have hends := h.resolve_right fun hnone => hnone x y height rfl
    exact congrArg
      (fun ends : Bool => Except.ok (if ends then Signal.nextFrame else .proceed)) hends
  | _ => rfl

/-- A poll depends on the keypad only. -/
theorem poll_adjust (h : a.keypad m.keypad = m.keypad) (wait : KeyWait) :
    (m.adjust a).poll wait = ((m.poll wait).1.adjust a, (m.poll wait).2) := by
  obtain ⟨x, latched⟩ := wait
  cases latched with
  | none =>
    exact congrArg (fun latched => ({ m.adjust a with keyWait := some ⟨x, latched⟩ },
      Signal.awaitingKey)) (congrArg Keypad.lowest? h)
  | some key =>
    have hholds : (m.adjust a).keypad.holds key = m.keypad.holds key :=
      congrArg (·.holds key) h
    simp only [poll, hholds]
    split <;> rfl

end adjust

section step

variable {m : Machine} {a : Adjustment}

/-- The same instruction comes next after an adjustment. It is carried out at the same place. -/
theorem execution_adjust (m : Machine) (a : Adjustment) :
    (m.adjust a).execution = (m.adjust a).execute m.pc m.instruction := rfl

/-- Which instruction the next step carries out does not depend on an adjustment. -/
theorem completed_adjust (m : Machine) (a : Adjustment) :
    (m.adjust a).completed .step = m.completed .step := by
  have hok : (∃ signal, (m.adjust a).execution.outcome = .ok signal) ↔
      ∃ signal, m.execution.outcome = .ok signal := by
    by_cases hdraw : ∃ x y height, m.instruction = .draw x y height
    · obtain ⟨x, y, height, hdraw⟩ := hdraw
      rw [execution_adjust, execution, hdraw]
      exact iff_of_true ⟨_, rfl⟩ ⟨_, rfl⟩
    · have hother : ∀ x y height, m.instruction ≠ .draw x y height :=
        fun x y height h => hdraw ⟨x, y, height, h⟩
      rw [execution_adjust, m.outcome_execute_adjust a m.pc (.inr hother), execution]
  refine Option.ext fun i => ?_
  rw [completed_eq_some_iff, completed_eq_some_iff, hok]
  rfl

/-- An adjustment that a step overlooks can be made before or after it, and the step answers and
records the same. A poll overlooks everything but the keypad, and a step that fails overlooks
everything. -/
theorem step_adjust (hpoll : m.keyWait = none ∨ a.keypad m.keypad = m.keypad)
    (h : ∀ i, m.completed .step = some i → m.Overlooks a i ∧
      ((a.dialect m.dialect).drawEndsFrame = m.dialect.drawEndsFrame ∨
        ∀ x y height, i ≠ .draw x y height)) :
    (m.adjust a).step = { m.step with machine := m.step.machine.adjust a } := by
  have hkeep : (m.adjust a).keyWait = m.keyWait := rfl
  obtain ⟨wait, hwait, hstep⟩ | ⟨hready, signal, hout, hstep⟩ | ⟨hready, fault, hout, hstep⟩ :=
    m.step_cases
  · have hkeypad := hpoll.resolve_left (by rw [hwait]; exact Option.some_ne_none wait)
    rw [step_of_keyWait (hkeep.trans hwait), hstep, m.poll_adjust hkeypad]
  · obtain ⟨hoverlooks, halike⟩ :=
      h m.instruction (completed_eq_some_iff.2 ⟨rfl, hready, rfl, signal, hout⟩)
    have hadjusted : (m.adjust a).execution.outcome = .ok signal :=
      (m.outcome_execute_adjust a m.pc halike).trans hout
    rw [step_of_execution_ok (hkeep.trans hready) hadjusted, hstep, execution_adjust,
      m.machine_execute_adjust hoverlooks]
    rfl
  · have hnodraw : ∀ x y height, m.instruction ≠ .draw x y height := by
      intro x y height hdraw
      rw [execution, hdraw] at hout
      cases hout
    have hadjusted : (m.adjust a).execution.outcome = .error fault :=
      (m.outcome_execute_adjust a m.pc (.inr hnodraw)).trans hout
    rw [step_of_execution_error (hkeep.trans hready) hadjusted, hstep]
    rfl

/-- A step that draws answers what the adjusted dialect says. -/
theorem step_adjust_of_draw {x y height : Nibble}
    (hdraw : m.completed .step = some (.draw x y height))
    (h : m.Overlooks a (.draw x y height)) :
    (m.adjust a).step = { m.step with
      machine := m.step.machine.adjust a
      outcome := .ok (if (a.dialect m.dialect).drawEndsFrame then .nextFrame else .proceed) } := by
  obtain ⟨-, hready, hinstruction, signal, hout⟩ := completed_eq_some_iff.1 hdraw
  have hkeep : (m.adjust a).keyWait = none := hready
  have hadjusted : (m.adjust a).execution.outcome =
      .ok (if (a.dialect m.dialect).drawEndsFrame then .nextFrame else .proceed) := by
    rw [execution_adjust, hinstruction]
    rfl
  rw [step_of_execution_ok hkeep hadjusted, step_of_execution_ok hready hout, execution_adjust,
    hinstruction, m.machine_execute_adjust h, execution, hinstruction]
  rfl

/-- A step that fails fails in the same way after every adjustment. -/
theorem step_adjust_of_fault {fault : Fault} (a : Adjustment)
    (h : m.step.outcome = .error fault) :
    (m.adjust a).step.outcome = .error fault := by
  have hready : m.keyWait = none := by
    cases hwait : m.keyWait with
    | none => rfl
    | some wait =>
      rw [step_of_keyWait hwait] at h
      cases h
  have hnone : ∀ i, m.completed .step ≠ some i := by
    intro i hi
    obtain ⟨-, -, -, signal, hout⟩ := completed_eq_some_iff.1 hi
    rw [step_of_execution_ok hready hout] at h
    cases h
  rw [step_adjust (.inl hready) fun i hi => absurd hi (hnone i)]
  exact h

end step

section perform

variable (m : Machine) (a : Adjustment)

/-- Loading a program overlooks every adjustment. -/
theorem load_adjust (program : List UInt8) :
    (m.adjust a).load program = (m.load program).map (·.adjust a) := by
  have hmemory : (m.adjust a).memory.load program = m.memory.load program := rfl
  unfold load
  rw [hmemory]
  cases m.memory.load program <;> rfl

/-- The reply to an attempt to load a program overlooks every adjustment. -/
theorem replyToLoad_adjust (size : Nat) (result : Except LoadFault Machine) :
    (m.adjust a).replyToLoad size (result.map (·.adjust a)) =
      { m.replyToLoad size result with
        machine := (m.replyToLoad size result).machine.adjust a } := by
  cases result <;> rfl

variable {a}

/-- No operation but a step depends on dialect or generator. -/
theorem perform_adjust {operation : Operation} (htimers : a.timers = id) (hkeypad : a.keypad = id)
    (h : operation ≠ .step) :
    (m.adjust a).perform operation =
      { m.perform operation with machine := (m.perform operation).machine.adjust a } := by
  have hload : ∀ program : List UInt8, (m.adjust a).perform (.load program) =
      { m.perform (.load program) with
        machine := (m.perform (.load program)).machine.adjust a } := by
    intro program
    simp only [perform, load_adjust, replyToLoad_adjust]
  cases operation with
  | load program => exact hload program
  | loadFile path content =>
    cases content with
    | none => rfl
    | some program => exact hload program
  | step => exact absurd rfl h
  | tick => simp only [perform, tick, adjust, htimers, id_eq]
  | setKey key pressed => simp only [perform, setKey, adjust, hkeypad, id_eq]
  | setDelay value => simp only [perform, adjust, htimers, id_eq]
  | setSound value => simp only [perform, adjust, htimers, id_eq]
  | _ => rfl

end perform

end Machine

end ChipEight
