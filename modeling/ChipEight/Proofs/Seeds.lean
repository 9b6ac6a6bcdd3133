import ChipEight.Proofs.Adjustments
import ChipEight.Proofs.RandomBytes

/-!
# Two seeds in lockstep

A machine and its double that differs in nothing but the random generator. Only `CXNN` looks at the
generator, and all that it shows of a random byte are the bits that its mask selects. So as long
as every `CXNN` carried out has the mask zero, machine and double answer alike and stay equal in
everything but the generator; and the first one with another mask makes them differ in these
bits of its register at most.
-/

namespace ChipEight

namespace Machine

/-- The same machine with another random generator. -/
def drawingFrom (m : Machine) (source : RandomStream) : Machine := { m with random := source }

/-- Two machines answer an operation alike and record the same, and they carry out the same
instruction, if any. -/
structure AnswersAlike (m other : Machine) (operation : Operation) : Prop where
  /-- The answers are the same. -/
  answer : (other.perform operation).answer = (m.perform operation).answer
  /-- The records are the same. -/
  log : (other.perform operation).log = (m.perform operation).log
  /-- The instructions carried out are the same. -/
  completed : other.completed operation = m.completed operation

/-- Two machines differ, apart from the generator, at most in one register, and there at most in the
bits of a mask. -/
structure DiffersIn (m other : Machine) (x : Nibble) (mask : UInt8) : Prop where
  /-- Everything but the register and the generator is the same. -/
  rest : other = (m.setV x (other.v x)).drawingFrom other.random
  /-- The bits of the register outside the mask are the same. -/
  bits : other.v x &&& ~~~mask = m.v x &&& ~~~mask

/-- Two machines that differ in no bit of a register differ in the generator at most. -/
theorem DiffersIn.eq_drawingFrom {m other : Machine} {x : Nibble} (h : m.DiffersIn other x 0) :
    other = m.drawingFrom other.random := by
  have hbits := h.bits
  rw [UInt8.not_zero, UInt8.and_neg_one, UInt8.and_neg_one] at hbits
  have hrest := h.rest
  rw [hbits, setV_v] at hrest
  exact hrest

section drawingFrom

variable {m : Machine} (source : RandomStream)

/-- Instructions that take no random byte overlook another generator. -/
theorem overlooks_drawingFrom {i : Instruction} (h : i.takesByte = false) :
    m.Overlooks { random := fun _ => source } i := by
  cases i with
  | random x mask => cases h
  | draw x y height => exact ⟨rfl, .inl rfl⟩
  | combine op x y => rfl
  | jumpBy target => rfl
  | skipIfHeld x => rfl
  | skipUnlessHeld x => rfl
  | awaitKey x => rfl
  | readDelay x => rfl
  | setDelay x => rfl
  | setSound x => rfl
  | storeRegisters x => rfl
  | loadRegisters x => rfl
  | _ => trivial

/-- An operation carries out the same instruction with another generator. -/
theorem completed_drawingFrom (operation : Operation) :
    (m.drawingFrom source).completed operation = m.completed operation := by
  cases operation with
  | step => exact m.completed_adjust { random := fun _ => source }
  | _ => rfl

/-- An operation that takes no random byte does the same with another generator. -/
theorem perform_drawingFrom {operation : Operation}
    (h : ∀ x mask, m.completed operation ≠ some (.random x mask)) :
    (m.drawingFrom source).perform operation =
      { m.perform operation with
        machine := (m.perform operation).machine.drawingFrom source } := by
  by_cases hstep : operation = .step
  · subst hstep
    have htakes : ∀ i, m.completed .step = some i → i.takesByte = false := by
      intro i hi
      cases i with
      | random x mask => exact absurd hi (h x mask)
      | _ => rfl
    have hsame : (m.drawingFrom source).step =
        { m.step with machine := m.step.machine.drawingFrom source } :=
      step_adjust (.inr rfl) fun i hi => ⟨overlooks_drawingFrom source (htakes i hi), .inl rfl⟩
    simp only [perform, hsame]
  · exact m.perform_adjust (a := { random := fun _ => source }) rfl rfl hstep

/-- What a step gives that carries out `CXNN`. -/
theorem step_of_random {x : Nibble} {mask : UInt8}
    (h : m.completed .step = some (.random x mask)) :
    m.step = ⟨m.advance.randomize x mask, .ok .proceed, [.fetched m.pc m.fetch]⟩ := by
  obtain ⟨-, hready, hinstruction, -⟩ := completed_eq_some_iff.1 h
  have hexecution : m.execution = ⟨m.advance.randomize x mask, .ok .proceed⟩ := by
    rw [execution, hinstruction]
    rfl
  have hout : m.execution.outcome = .ok .proceed := congrArg Execution.outcome hexecution
  rw [step_of_execution_ok hready hout, hexecution]

/-- Random bytes from another generator differ at most under the mask. -/
theorem differsIn_randomize (x : Nibble) (mask : UInt8) :
    (m.randomize x mask).DiffersIn ((m.drawingFrom source).randomize x mask) x mask := by
  have hhidden : ∀ byte : UInt8, byte &&& mask &&& ~~~mask = 0 := by
    intro byte
    rw [UInt8.and_assoc, UInt8.and_not_self, UInt8.and_zero]
  refine ⟨?_, ?_⟩
  · rw [v_randomize]
    have hmine : m.randomize x mask =
        { m with random := m.random.nextByte.2 }.setV x (m.random.nextByte.1 &&& mask) := rfl
    rw [hmine, setV_setV]
    rfl
  · rw [v_randomize, v_randomize, hhidden, hhidden]

/-- A step that carries out `CXNN` answers alike with another generator, and differs at most under
its mask. -/
theorem step_drawingFrom_of_random {x : Nibble} {mask : UInt8}
    (h : m.completed .step = some (.random x mask)) :
    m.AnswersAlike (m.drawingFrom source) .step ∧
      m.step.machine.DiffersIn (m.drawingFrom source).step.machine x mask := by
  have hdouble : (m.drawingFrom source).completed .step = some (.random x mask) :=
    (completed_drawingFrom source .step).trans h
  have hmine := step_of_random h
  have hother := step_of_random hdouble
  refine ⟨⟨?_, ?_, completed_drawingFrom source .step⟩, ?_⟩
  · simp only [perform, hmine, hother]
  · simp only [perform, hmine, hother]
    rfl
  · rw [hmine, hother]
    exact differsIn_randomize source x mask

/-- An operation whose random byte, if it takes one, is hidden by its mask answers alike with another
generator and leaves a machine that differs in the generator alone. -/
theorem answersAlike_drawingFrom {operation : Operation}
    (hhidden : ∀ x mask, m.completed operation = some (.random x mask) → mask = 0) :
    m.AnswersAlike (m.drawingFrom source) operation ∧
      ((m.drawingFrom source).perform operation).machine =
        (m.perform operation).machine.drawingFrom
          ((m.drawingFrom source).perform operation).machine.random := by
  by_cases hrandom : ∃ x mask, m.completed operation = some (.random x mask)
  · obtain ⟨x, mask, hdone⟩ := hrandom
    obtain ⟨rfl, -⟩ := completed_eq_some_iff.1 hdone
    obtain rfl : mask = 0 := hhidden x mask hdone
    obtain ⟨halike, hdiffers⟩ := step_drawingFrom_of_random source hdone
    exact ⟨halike, hdiffers.eq_drawingFrom⟩
  · have hsame := perform_drawingFrom source fun x mask hdone => hrandom ⟨x, mask, hdone⟩
    refine ⟨⟨?_, ?_, completed_drawingFrom source operation⟩, ?_⟩
    · rw [hsame]
    · rw [hsame]
    · rw [hsame]
      rfl

end drawingFrom

/-- The seed is not to be seen before a random byte shows. Two machines are equal in everything but
the random generator, and every `CXNN` carried out in a session has the mask zero. Then they are
equal in everything but the generator before and after each operation, and answer it alike. And if
the next step after the session carries out `CXNN` with any mask, they also answer this step
alike, and then differ, apart from the generator, only in the bits of `VX` that the mask selects. -/
theorem seed_hidden_by_masks {m other : Machine} (hsame : other = m.drawingFrom other.random)
    {session : List Operation}
    (hhidden : ∀ j operation x mask, session[j]? = some operation →
      (m.before session j).completed operation = some (.random x mask) → mask = 0) :
    (∀ j, other.before session j =
      (m.before session j).drawingFrom (other.before session j).random) ∧
    (∀ j operation, session[j]? = some operation →
      (m.before session j).AnswersAlike (other.before session j) operation) ∧
    (∀ x mask, (m.performAll session).completed .step = some (.random x mask) →
      (m.performAll session).AnswersAlike (other.performAll session) .step ∧
        (m.performAll session).step.machine.DiffersIn (other.performAll session).step.machine
          x mask) := by
  have hbefore : ∀ j, other.before session j =
      (m.before session j).drawingFrom (other.before session j).random := by
    intro j
    induction j with
    | zero => exact hsame
    | succ j ih =>
      cases hop : session[j]? with
      | none => rw [before_succ_of_none _ hop, before_succ_of_none _ hop, ← ih]
      | some operation =>
        obtain ⟨-, hnext⟩ := answersAlike_drawingFrom (other.before session j).random
          fun x mask => hhidden j operation x mask hop
        rw [← ih] at hnext
        rw [before_succ _ hop, before_succ _ hop]
        exact hnext
  refine ⟨hbefore, fun j operation hop => ?_, fun x mask hdone => ?_⟩
  · rw [hbefore]
    exact (answersAlike_drawingFrom _ fun x mask => hhidden j operation x mask hop).1
  · have hend := hbefore session.length
    rw [before_length, before_length] at hend
    rw [hend]
    exact step_drawingFrom_of_random _ hdone

/-- A machine that takes a random byte without showing it and then shows half of another. -/
def veiled : Machine := (create .modern (.ofSeed 1)).performAll [.load [0xC5, 0x00, 0xC6, 0x0F]]

/-- The host ticks after the first byte. -/
def veiledSession : List Operation := [.step, .tick]

/-- With another seed the machine is the same up to the second byte, and then differs at most in the
lower half of the register that receives it. -/
theorem veiled_with_other_seed :
    (veiled.drawingFrom (.ofSeed 2)).performAll veiledSession =
        (veiled.performAll veiledSession).drawingFrom ⟨RandomStream.keyOfSeed 2, 1⟩ ∧
      (veiled.performAll veiledSession).step.machine.DiffersIn
        ((veiled.drawingFrom (.ofSeed 2)).performAll veiledSession).step.machine
        (.ofNat 6) 0x0F := by
  have hstart : ∀ m : Machine, m.before veiledSession 0 = m := fun _ => rfl
  have hfirst : veiled.completed .step = some (.random (.ofNat 5) 0) := by decide +kernel
  have hsecond : (veiled.performAll veiledSession).completed .step =
      some (.random (.ofNat 6) 0x0F) := by
    decide +kernel
  have hhidden : ∀ j operation x mask, veiledSession[j]? = some operation →
      (veiled.before veiledSession j).completed operation = some (.random x mask) → mask = 0 := by
    intro j operation x mask hop hdone
    obtain rfl | rfl : j = 0 ∨ j = 1 := by
      have hj := (List.getElem?_eq_some_iff.1 hop).1
      change j < 2 at hj
      omega
    · cases hop
      rw [hstart] at hdone
      cases hfirst.symm.trans hdone
      rfl
    · cases hop
      cases hdone
  have hsame : veiled.drawingFrom (.ofSeed 2) =
      veiled.drawingFrom (veiled.drawingFrom (.ofSeed 2)).random := rfl
  obtain ⟨hbefore, -, hshown⟩ := seed_hidden_by_masks hsame hhidden
  have hend := hbefore 2
  have htaken : ((veiled.drawingFrom (.ofSeed 2)).before veiledSession 2).random =
      ⟨RandomStream.keyOfSeed 2, 1⟩ := by
    decide +kernel
  rw [htaken] at hend
  exact ⟨hend, (hshown _ _ hsecond).2⟩

end Machine

end ChipEight
