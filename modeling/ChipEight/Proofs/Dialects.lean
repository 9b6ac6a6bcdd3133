import ChipEight.Proofs.Adjustments
import ChipEight.Proofs.Clipping

/-!
# Two dialects in lockstep

A machine and its double that differs in nothing but the dialect. `Machine.Tells` lists, for
each of the details in which two dialects may differ, the instructions that bring the difference
to light, and when they do. As long as a program carries out none of them, machine and double
stay equal in everything but the dialect, and reply alike to everything that their host does.
Whether drawings end the frame is a matter of the replies alone: there the two answers differ, but
the machines stay equal.
-/

namespace ChipEight

/-- What a drawing that is carried out asks for. -/
def Dialect.afterDrawing (d : Dialect) : Signal := if d.drawEndsFrame then .nextFrame else .proceed

namespace Machine

/-- The same machine in another dialect. -/
def inDialect (m : Machine) (d : Dialect) : Machine := { m with dialect := d }

/-- The other dialect differs from the machine's own in a detail that matters to the instruction
on this machine. -/
def Tells (m : Machine) (d : Dialect) : Instruction → Prop
  | .combine .shiftRight x y | .combine .shiftLeft x y =>
    d.shiftsY ≠ m.dialect.shiftsY ∧ m.v x ≠ m.v y
  | .combine .or _ _ | .combine .and _ _ | .combine .xor _ _ =>
    d.logicClearsFlag ≠ m.dialect.logicClearsFlag
  | .jumpBy target =>
    d.jumpsByX ≠ m.dialect.jumpsByX ∧ m.v (Instruction.topDigit target) ≠ m.v (.ofNat 0)
  | .storeRegisters _ | .loadRegisters _ =>
    d.transferMovesIndex ≠ m.dialect.transferMovesIndex
  | .draw x y height =>
    d.drawClearsFlag ≠ m.dialect.drawClearsFlag ∧
        (m.drawn x y height).erased = false ∧ m.v Registers.flag ≠ 0 ∨
      d.clipsSprites ≠ m.dialect.clipsSprites ∧
        Overhangs (m.v x).toNat (m.v y).toNat (m.sprite height)
  | _ => False

/-- Two machines reply alike to an operation: the same but for the dialect, and with the same
records and the same answer. Only if a drawing is carried out each answers what its own dialect
says. -/
structure RepliesAlike (m other : Machine) (operation : Operation) : Prop where
  /-- The machines afterwards differ in the dialect alone. -/
  machine : (other.perform operation).machine =
    (m.perform operation).machine.inDialect other.dialect
  /-- The records are the same. -/
  log : (other.perform operation).log = (m.perform operation).log
  /-- The answers are the same, except where drawings end the frame in one of the dialects
  only. -/
  answer : (other.dialect.drawEndsFrame = m.dialect.drawEndsFrame ∨
      ∀ x y height, m.completed operation ≠ some (.draw x y height)) →
    (other.perform operation).answer = (m.perform operation).answer
  /-- To a drawing each answers for its own dialect. -/
  drawing : ∀ x y height, m.completed operation = some (.draw x y height) →
    (m.perform operation).answer = .stepped (.ok m.dialect.afterDrawing) ∧
      (other.perform operation).answer = .stepped (.ok other.dialect.afterDrawing)

section inDialect

variable {m : Machine} {d : Dialect}

/-- Operations on two registers give the same in both dialects, unless they tell them apart. -/
theorem apply_of_not_tells {op : Alu} {x y : Nibble} (h : ¬m.Tells d (.combine op x y)) :
    op.apply d (m.v x) (m.v y) = op.apply m.dialect (m.v x) (m.v y) := by
  have hshift : ¬(d.shiftsY ≠ m.dialect.shiftsY ∧ m.v x ≠ m.v y) →
      (if d.shiftsY then m.v y else m.v x) = if m.dialect.shiftsY then m.v y else m.v x := by
    intro hnot
    by_cases hsame : d.shiftsY = m.dialect.shiftsY
    · rw [hsame]
    · rw [not_not.1 fun hne => hnot ⟨hsame, hne⟩, ite_self, ite_self]
  have hlogic : ¬(d.logicClearsFlag ≠ m.dialect.logicClearsFlag) →
      (if d.logicClearsFlag then some (0 : UInt8) else none) =
        if m.dialect.logicClearsFlag then some 0 else none := by
    intro hnot
    rw [not_not.1 hnot]
  cases op with
  | or => exact congrArg (Alu.Result.mk _) (hlogic h)
  | and => exact congrArg (Alu.Result.mk _) (hlogic h)
  | xor => exact congrArg (Alu.Result.mk _) (hlogic h)
  | shiftRight =>
    exact congrArg (fun shifted : UInt8 => (⟨shifted >>> 1, some (shifted &&& 1)⟩ : Alu.Result))
      (hshift h)
  | shiftLeft =>
    exact congrArg (fun shifted : UInt8 => (⟨shifted <<< 1, some (shifted >>> 7)⟩ : Alu.Result))
      (hshift h)
  | _ => rfl

/-- The register that a jump adds has the same content in both dialects, unless the jump tells
them apart. -/
theorem jumpRegister_of_not_tells {target : Address} (h : ¬m.Tells d (.jumpBy target)) :
    m.v ((m.inDialect d).jumpRegister target) = m.v (m.jumpRegister target) := by
  change m.v (if d.jumpsByX then Instruction.topDigit target else .ofNat 0) =
    m.v (if m.dialect.jumpsByX then Instruction.topDigit target else .ofNat 0)
  by_cases hsame : d.jumpsByX = m.dialect.jumpsByX
  · rw [hsame]
  · have hvalue : m.v (Instruction.topDigit target) = m.v (.ofNat 0) :=
      not_not.1 fun hne => h ⟨hsame, hne⟩
    rw [apply_ite m.v, apply_ite m.v, hvalue, ite_self, ite_self]

/-- Both dialects draw a sprite alike, unless the drawing tells them apart. -/
theorem drawn_of_not_tells {x y height : Nibble} (h : ¬m.Tells d (.draw x y height)) :
    (m.inDialect d).drawn x y height = m.drawn x y height := by
  by_cases hsame : d.clipsSprites = m.dialect.clipsSprites
  · have hedges : (m.inDialect d).edges = m.edges := by
      unfold edges inDialect
      rw [hsame]
    exact congrArg (m.screen.draw · (m.v x).toNat (m.v y).toNat (m.sprite height)) hedges
  · exact Screen.draw_eq_of_not_overhangs (fun hover => h (.inr ⟨hsame, hover⟩)) m.screen _ _

/-- An instruction that does not tell two dialects apart overlooks the change from one to the
other. -/
theorem overlooks_of_not_tells {i : Instruction} (h : ¬m.Tells d i) :
    m.Overlooks { dialect := fun _ => d } i := by
  cases i with
  | combine op x y => exact apply_of_not_tells h
  | jumpBy target => exact jumpRegister_of_not_tells h
  | storeRegisters x => exact not_not.1 h
  | loadRegisters x => exact not_not.1 h
  | draw x y height =>
    refine ⟨drawn_of_not_tells h, ?_⟩
    by_contra hnone
    obtain ⟨hsame, herased, hflag⟩ : ¬d.drawClearsFlag = m.dialect.drawClearsFlag ∧
        ¬(m.drawn x y height).erased = true ∧ ¬m.v Registers.flag = 0 := by
      simpa only [not_or] using hnone
    exact h (.inl ⟨hsame, Bool.eq_false_iff.2 herased, hflag⟩)
  | random x mask => rfl
  | skipIfHeld x => rfl
  | skipUnlessHeld x => rfl
  | awaitKey x => rfl
  | readDelay x => rfl
  | setDelay x => rfl
  | setSound x => rfl
  | _ => trivial

/-- No operation but a step depends on the dialect. -/
theorem perform_inDialect (m : Machine) (d : Dialect) {operation : Operation}
    (h : operation ≠ .step) :
    (m.inDialect d).perform operation =
      { m.perform operation with machine := (m.perform operation).machine.inDialect d } :=
  m.perform_adjust (a := { dialect := fun _ => d }) rfl rfl h

/-- A step that carries out a drawing answers what the dialect says. -/
theorem outcome_step_of_draw {x y height : Nibble}
    (h : m.completed .step = some (.draw x y height)) :
    m.step.outcome = .ok m.dialect.afterDrawing := by
  obtain ⟨-, hready, hinstruction, -⟩ := completed_eq_some_iff.1 h
  have hout : m.execution.outcome = .ok m.dialect.afterDrawing := by
    rw [execution, hinstruction]
    rfl
  rw [step_of_execution_ok hready hout]

/-- A machine and its double in another dialect reply alike to a step that draws, if the drawing
does not tell the dialects apart. -/
theorem repliesAlike_of_draw {x y height : Nibble}
    (hdraw : m.completed .step = some (.draw x y height))
    (h : ¬m.Tells d (.draw x y height)) : m.RepliesAlike (m.inDialect d) .step := by
  have hstep : (m.inDialect d).step =
      { m.step with machine := m.step.machine.inDialect d, outcome := .ok d.afterDrawing } :=
    step_adjust_of_draw hdraw (overlooks_of_not_tells h)
  have hreply : (m.inDialect d).perform .step =
      { m.perform .step with
        machine := (m.perform .step).machine.inDialect d
        answer := .stepped (.ok d.afterDrawing) } := by
    simp only [perform, hstep]
  have hmine : (m.perform .step).answer = .stepped (.ok m.dialect.afterDrawing) :=
    congrArg Answer.stepped (outcome_step_of_draw hdraw)
  refine ⟨?_, ?_, fun hsame => ?_, fun x y height _ => ⟨hmine, ?_⟩⟩
  · rw [hreply]
    rfl
  · rw [hreply]
  · have hends : d.drawEndsFrame = m.dialect.drawEndsFrame :=
      hsame.resolve_right fun hnone => hnone x y height hdraw
    rw [hreply, hmine, Dialect.afterDrawing, hends, Dialect.afterDrawing]
  · rw [hreply]
    rfl

/-- A machine and its double in another dialect reply alike to an operation that does not tell
the dialects apart. -/
theorem repliesAlike_of_not_tells {operation : Operation}
    (h : ∀ i, m.completed operation = some i → ¬m.Tells d i) :
    m.RepliesAlike (m.inDialect d) operation := by
  by_cases hdraw : ∃ x y height, m.completed operation = some (.draw x y height)
  · obtain ⟨x, y, height, hdraw⟩ := hdraw
    obtain ⟨rfl, -⟩ := completed_eq_some_iff.1 hdraw
    exact repliesAlike_of_draw hdraw (h _ hdraw)
  · have hreply : (m.inDialect d).perform operation =
        { m.perform operation with
          machine := (m.perform operation).machine.inDialect d } := by
      by_cases hop : operation = .step
      · subst hop
        have hstep : (m.inDialect d).step =
            { m.step with machine := m.step.machine.inDialect d } := by
          refine step_adjust (.inr rfl) fun i hi => ⟨overlooks_of_not_tells (h i hi), .inr ?_⟩
          rintro x y height rfl
          exact hdraw ⟨x, y, height, hi⟩
        simp only [perform, hstep]
      · exact m.perform_inDialect d hop
    refine ⟨?_, ?_, fun _ => ?_, fun x y height hdone => ?_⟩
    · rw [hreply]
      rfl
    · rw [hreply]
    · rw [hreply]
    · exact absurd ⟨x, y, height, hdone⟩ hdraw

/-- Two machines that differ in nothing but the dialect stay in lockstep in every session in
which no instruction that is carried out tells the dialects apart: before each operation they
differ in the dialect alone, and they reply to it alike. -/
theorem dialects_in_lockstep {session : List Operation}
    (h : ∀ j operation i, session[j]? = some operation →
      (m.before session j).completed operation = some i → ¬(m.before session j).Tells d i) :
    (∀ j, (m.inDialect d).before session j = (m.before session j).inDialect d) ∧
    (∀ j operation, session[j]? = some operation →
      (m.before session j).RepliesAlike ((m.inDialect d).before session j) operation) := by
  have hbefore : ∀ j, (m.inDialect d).before session j = (m.before session j).inDialect d := by
    intro j
    induction j with
    | zero => rfl
    | succ j ih =>
      cases hop : session[j]? with
      | none => rw [before_succ_of_none _ hop, before_succ_of_none _ hop, ih]
      | some operation =>
        have halike : (m.before session j).RepliesAlike ((m.before session j).inDialect d)
            operation := repliesAlike_of_not_tells fun i => h j operation i hop
        rw [before_succ _ hop, before_succ _ hop, ih]
        exact halike.machine
  refine ⟨hbefore, fun j operation hop => ?_⟩
  rw [hbefore]
  exact repliesAlike_of_not_tells fun i => h j operation i hop

/-- A machine that draws one row in the upper left corner and then shifts a register in place. -/
def plotting : Machine :=
  (create .modern (.ofSeed 0)).performAll [.load [0xD0, 0x11, 0x81, 0x16]]

/-- The host ticks and presses a key between the two instructions. -/
def plottingSession : List Operation := [.step, .tick, .setKey (.ofNat 4) true, .step]

/-- The dialect of the COSMAC VIP clips sprites and shifts the other register, but neither comes
to light; only the drawing answers that the frame ends. -/
theorem plotting_in_lockstep :
    (plotting.inDialect .cosmacVip).performAll plottingSession =
        (plotting.performAll plottingSession).inDialect .cosmacVip ∧
      plotting.RepliesAlike (plotting.inDialect .cosmacVip) .step ∧
      plotting.step.outcome = .ok .proceed ∧
      (plotting.inDialect .cosmacVip).step.outcome = .ok .nextFrame := by
  have hstart : ∀ m : Machine, m.before plottingSession 0 = m := fun _ => rfl
  have hmodern : plotting.dialect = .modern := dialect_performAll _ _
  have hdraw : plotting.completed .step = some (.draw (.ofNat 0) (.ofNat 1) (.ofNat 1)) := by
    decide +kernel
  have hshift : (plotting.before plottingSession 3).completed .step =
      some (.combine .shiftRight (.ofNat 1) (.ofNat 1)) := by
    decide +kernel
  have hinside : ¬Overhangs (plotting.v (.ofNat 0)).toNat (plotting.v (.ofNat 1)).toNat
      (plotting.sprite (.ofNat 1)) := by
    decide +kernel
  have hnever : ∀ j operation i, plottingSession[j]? = some operation →
      (plotting.before plottingSession j).completed operation = some i →
      ¬(plotting.before plottingSession j).Tells .cosmacVip i := by
    intro j operation i hop hdone
    obtain rfl | rfl | rfl | rfl : j = 0 ∨ j = 1 ∨ j = 2 ∨ j = 3 := by
      have hj := (List.getElem?_eq_some_iff.1 hop).1
      change j < 4 at hj
      omega
    · cases hop
      rw [hstart] at hdone ⊢
      cases hdraw.symm.trans hdone
      rintro (⟨hclear, -⟩ | ⟨-, hover⟩)
      · exact hclear (congrArg Dialect.drawClearsFlag hmodern).symm
      · exact hinside hover
    · cases hop
      cases hdone
    · cases hop
      cases hdone
    · cases hop
      cases hshift.symm.trans hdone
      exact fun hne => hne.2 rfl
  obtain ⟨hbefore, halike⟩ := dialects_in_lockstep hnever
  have hfirst := halike 0 .step rfl
  rw [hstart, hstart] at hfirst
  obtain ⟨hmine, hother⟩ := hfirst.drawing _ _ _ hdraw
  have hproceed : plotting.dialect.afterDrawing = .proceed := by
    rw [hmodern]
    rfl
  refine ⟨hbefore 4, hfirst, ?_, Answer.stepped.inj hother⟩
  exact (Answer.stepped.inj hmine).trans (congrArg Except.ok hproceed)

end inDialect

end Machine

end ChipEight
