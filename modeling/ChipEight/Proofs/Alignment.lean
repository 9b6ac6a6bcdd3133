import ChipEight.Proofs.Calls
import ChipEight.Proofs.Effects
import ChipEight.Proofs.Loading

/-!
# Even addresses

Instructions are two bytes long, and a program starts at an even address. From there on the program
counter and the return addresses of the open calls stay even, unless the program itself jumps to
an odd address: moving past an instruction, skipping one, returning, failing and loading another
program all keep them even, also where memory begins again. So no instruction lies across the end
of memory. The host must not set the program counter by hand; whatever else it does is allowed.
-/

namespace ChipEight

namespace Address

/-- Whether an address is even. -/
def IsEven (a : Address) : Prop := a.val % 2 = 0

instance : DecidablePred IsEven := fun a => inferInstanceAs (Decidable (a.val % 2 = 0))

/-- An even number of cells behind an even address there is an even address. -/
theorem IsEven.forward {a : Address} {count : Nat} (h : a.IsEven) (hcount : count % 2 = 0) :
    (a.forward count).IsEven := by
  unfold IsEven at *
  simp only [Address.forward]
  omega

/-- Memory does not end behind the cell at an even address. -/
theorem IsEven.forward_one {a : Address} (h : a.IsEven) : (a.forward 1).val = a.val + 1 := by
  have hlt := a.isLt
  unfold IsEven at h
  simp only [Address.forward]
  omega

end Address

/-- Whether the program goes on behind an instruction in any case. -/
def Instruction.isSequential : Instruction → Bool
  | ret | jump _ | call _ | jumpBy _ | skipIfByte _ _ | skipUnlessByte _ _ | skipIfSame _ _
  | skipUnlessSame _ _ | skipIfHeld _ | skipUnlessHeld _ => false
  | _ => true

namespace Machine

section counter

variable (m : Machine)

/-- Arithmetic leaves the program counter. -/
theorem pc_combine (op : Alu) (x y : Nibble) : (m.combine op x y).pc = m.pc := by
  unfold combine
  dsimp only
  split
  · rfl
  · rfl

/-- Drawing leaves the program counter. -/
theorem pc_draw (x y height : Nibble) : (m.draw x y height).pc = m.pc := by
  unfold draw
  dsimp only
  split
  · rfl
  · rfl

/-- The end of a transfer leaves the program counter. -/
theorem pc_finishTransfer (x : Nibble) : (m.finishTransfer x).pc = m.pc := by
  unfold finishTransfer
  split
  · rfl
  · rfl

/-- Loading registers leaves the program counter. -/
theorem pc_loadBytes (x : Nibble) : (m.loadBytes x).pc = m.pc := by
  rw [pc, loadBytes, pc]

/-- Behind a sequential instruction comes the next one. -/
theorem pc_execute_of_isSequential (place : Address) {i : Instruction}
    (h : i.isSequential = true) : (m.execute place i).machine.pc = m.pc.forward 2 := by
  cases i with
  | combine op x y => exact m.advance.pc_combine op x y
  | draw x y height => exact m.advance.pc_draw x y height
  | awaitKey x => exact (m.advance.counters_poll ⟨x, none⟩).2
  | storeRegisters x => exact pc_finishTransfer _ x
  | loadRegisters x =>
    exact ((m.advance.loadBytes x).pc_finishTransfer x).trans (m.advance.pc_loadBytes x)
  | ret => cases h
  | jump target => cases h
  | call target => cases h
  | jumpBy target => cases h
  | skipIfByte x byte => cases h
  | skipUnlessByte x byte => cases h
  | skipIfSame x y => cases h
  | skipUnlessSame x y => cases h
  | skipIfHeld x => cases h
  | skipUnlessHeld x => cases h
  | _ => rfl

/-- A skip goes on behind the next instruction or behind the one after it. -/
theorem pc_skipIf (condition : Bool) : (m.advance.skipIf condition).pc =
    if condition then m.pc.forward 4 else m.pc.forward 2 := by
  cases condition with
  | false => rfl
  | true => exact m.pc.forward_forward 2 2

end counter

/-- The address to which an operation jumps, if it carries out a jump or a call; returns and skips
name no address. -/
def jumpsTo? (m : Machine) (operation : Operation) : Option Address :=
  match m.completed operation with
  | some (.jump target) | some (.call target) => some target
  | some (.jumpBy target) => some (target.forward (m.v (m.jumpRegister target)).toNat)
  | _ => none

/-- The program counter and all return addresses are even. -/
structure Aligned (m : Machine) : Prop where
  /-- The next instruction lies at an even address. -/
  counter : m.pc.IsEven
  /-- All open calls return to even addresses. -/
  returns : ∀ a ∈ m.stack.toList, a.IsEven

section run

variable {m : Machine} {operation : Operation}

/-- A call goes to its target. -/
theorem pc_of_completed_call {target : Address}
    (h : m.completed operation = some (.call target)) :
    (m.perform operation).machine.pc = target := by
  obtain ⟨-, -, hcall, signal, hout⟩ := completed_eq_some_iff.1 h
  rw [execution, hcall] at hout
  rw [machine_of_completed h]
  change (m.advance.call m.pc target).outcome = .ok signal at hout
  change (m.advance.call m.pc target).machine.pc = target
  unfold call at hout ⊢
  cases hpush : m.advance.stack.push m.advance.pc with
  | none =>
    rw [hpush] at hout
    cases hout
  | some pushed => rfl

/-- Where a program goes on behind an instruction that it carries out: where the instruction
jumps, at the newest return address, or one or two instructions further on. -/
theorem pc_of_completed {i : Instruction} (h : m.completed operation = some i) :
    m.jumpsTo? operation = some (m.perform operation).machine.pc ∨
    i = .ret ∨
    (m.perform operation).machine.pc = m.pc.forward 2 ∨
    (m.perform operation).machine.pc = m.pc.forward 4 := by
  have hafter : (m.perform operation).machine.pc = (m.execute m.pc i).machine.pc :=
    congrArg pc (machine_of_completed h)
  have hskip : ∀ condition, (m.advance.skipIf condition).pc = m.pc.forward 2 ∨
      (m.advance.skipIf condition).pc = m.pc.forward 4 := by
    intro condition
    rw [pc_skipIf]
    cases condition with
    | false => exact .inl rfl
    | true => exact .inr rfl
  by_cases hsequential : i.isSequential = true
  · rw [hafter, m.pc_execute_of_isSequential m.pc hsequential]
    exact .inr (.inr (.inl rfl))
  · cases i with
    | ret => exact .inr (.inl rfl)
    | call target =>
      rw [pc_of_completed_call h, jumpsTo?, h]
      exact .inl rfl
    | jump target =>
      rw [hafter, jumpsTo?, h]
      exact .inl rfl
    | jumpBy target =>
      rw [hafter, jumpsTo?, h]
      exact .inl rfl
    | skipIfByte x byte => exact .inr (.inr (hafter ▸ hskip _))
    | skipUnlessByte x byte => exact .inr (.inr (hafter ▸ hskip _))
    | skipIfSame x y => exact .inr (.inr (hafter ▸ hskip _))
    | skipUnlessSame x y => exact .inr (.inr (hafter ▸ hskip _))
    | skipIfHeld x => exact .inr (.inr (hafter ▸ hskip _))
    | skipUnlessHeld x => exact .inr (.inr (hafter ▸ hskip _))
    | _ => exact absurd rfl hsequential

/-- A load goes to the start of the program area or, if it is refused, nowhere. -/
theorem pc_of_loads (h : operation.loads = true) :
    (m.perform operation).machine.pc = Memory.programStart ∨
    (m.perform operation).machine.pc = m.pc := by
  obtain ⟨program, cells, -, -, hmachine⟩ | ⟨-, hmachine⟩ := m.machine_of_attempt h
  · rw [hmachine]
    exact .inl rfl
  · rw [hmachine]
    exact .inr rfl

/-- Without carrying out an instruction the program counter stays, goes to the start of a program
that is loaded, or is moved by the host. -/
theorem pc_of_not_completed (h : m.completed operation = none)
    (hset : ∀ word, operation ≠ .setCounter word) :
    (m.perform operation).machine.pc = Memory.programStart ∨
    (m.perform operation).machine.pc = m.pc ∨
    (m.perform operation).machine.pc = m.pc.forward 2 := by
  cases operation with
  | step =>
    right
    left
    change m.step.machine.pc = m.pc
    obtain ⟨wait, -, hstep⟩ | ⟨hready, signal, hout, -⟩ | ⟨-, fault, -, hstep⟩ := m.step_cases
    · rw [hstep]
      exact (m.counters_poll wait).2
    · have hdone : m.completed .step = some m.instruction :=
        completed_eq_some_iff.2 ⟨rfl, hready, rfl, signal, hout⟩
      cases h.symm.trans hdone
    · rw [hstep]
  | load program => exact (pc_of_loads rfl).imp_right .inl
  | loadFile path content => exact (pc_of_loads rfl).imp_right .inl
  | setCounter word => exact absurd rfl (hset word)
  | advance => exact .inr (.inr rfl)
  | _ => exact .inr (.inl rfl)

/-- An operation keeps a machine aligned if it jumps nowhere else than to an even address. Calls and
returns are why the return addresses belong to what is kept. -/
theorem Aligned.perform (h : m.Aligned) (hset : ∀ word, operation ≠ .setCounter word)
    (hjump : ∀ a, m.jumpsTo? operation = some a → a.IsEven) :
    (m.perform operation).machine.Aligned := by
  have hcounter : m.completed operation ≠ some .ret →
      (m.perform operation).machine.pc.IsEven := by
    intro hret
    cases hdone : m.completed operation with
    | none =>
      obtain hstart | hstays | hnext := pc_of_not_completed hdone hset
      · rw [hstart]
        decide
      · rw [hstays]
        exact h.counter
      · rw [hnext]
        exact h.counter.forward rfl
    | some i =>
      obtain hjumps | rfl | hnext | hskips := pc_of_completed hdone
      · exact hjump _ hjumps
      · exact absurd hdone hret
      · rw [hnext]
        exact h.counter.forward rfl
      · rw [hskips]
        exact h.counter.forward rfl
  obtain ⟨target, hdone, hstack⟩ | ⟨-, hstack⟩ | ⟨-, hret, hstack⟩ := m.stack_cases operation
  · refine ⟨hcounter (by rw [hdone]; exact fun h => by cases h), fun a ha => ?_⟩
    rw [hstack, List.mem_append, List.mem_singleton] at ha
    obtain hold | rfl := ha
    · exact h.returns a hold
    · exact h.counter.forward rfl
  · have hall := h.returns
    rw [hstack] at hall
    exact ⟨hall _ (List.mem_append_right _ (List.mem_singleton_self _)),
      fun a ha => hall a (List.mem_append_left _ ha)⟩
  · refine ⟨hcounter hret, fun a ha => ?_⟩
    rw [hstack] at ha
    exact h.returns a ha

/-- A machine that is aligned stays so for a whole session, as long as all jumps go to even
addresses. -/
theorem Aligned.before {session : List Operation} (h : m.Aligned)
    (hset : ∀ word, Operation.setCounter word ∉ session)
    (hjumps : ∀ i operation, session[i]? = some operation →
      ∀ a, (m.before session i).jumpsTo? operation = some a → a.IsEven) (i : Nat) :
    (m.before session i).Aligned := by
  induction i with
  | zero => exact h
  | succ i ih =>
    cases hoperation : session[i]? with
    | none =>
      rw [m.before_succ_of_none hoperation]
      exact ih
    | some operation =>
      rw [m.before_succ hoperation]
      refine ih.perform (fun word hword => ?_) (hjumps i operation hoperation)
      subst hword
      exact hset word (List.mem_of_getElem? hoperation)

/-- A new machine is aligned. -/
theorem aligned_create (dialect : Dialect) (random : RandomStream) :
    (create dialect random).Aligned := by
  refine ⟨(by decide : Memory.programStart.IsEven), fun a ha => ?_⟩
  change a ∈ (BoundedStack.empty Address.zero : CallStack).toList at ha
  rw [BoundedStack.toList_empty] at ha
  cases ha

end run

/-- Sessions of a new machine stay aligned, if all that is carried out of jumps, calls and jumps by
a register goes to even addresses and the host does not set the program counter by hand. Program
counter and return addresses are even before and after every operation, so every instruction lies
at an even address, and its second byte is in the cell behind the first one. -/
theorem sessions_stay_aligned {dialect : Dialect} {random : RandomStream} {session : List Operation}
    (hset : ∀ word, Operation.setCounter word ∉ session)
    (hjumps : ∀ i operation, session[i]? = some operation →
      ∀ a, ((create dialect random).before session i).jumpsTo? operation = some a → a.IsEven)
    (i : Nat) :
    ((create dialect random).before session i).Aligned ∧
    ∃ next : Address, next.val = ((create dialect random).before session i).pc.val + 1 ∧
      ((create dialect random).before session i).fetch.toNat =
        256 * (((create dialect random).before session i).memory.read
          ((create dialect random).before session i).pc).toNat +
        (((create dialect random).before session i).memory.read next).toNat := by
  have haligned := (aligned_create dialect random).before hset hjumps i
  generalize (create dialect random).before session i = now at haligned ⊢
  exact ⟨haligned, now.pc.forward 1, haligned.counter.forward_one, now.memory.toNat_readWord now.pc⟩

/-- A program that calls a subroutine and then jumps back to its start, by an odd address plus an
odd register, with a tick and a key press in between. -/
def circling : List Operation :=
  [.load [0x22, 0x06, 0xB1, 0xFD, 0x00, 0x00, 0x60, 0x03, 0x00, 0xEE], .step, .tick, .step,
    .setKey (.ofNat 4) true, .step, .step]

/-- The program goes round without leaving the even addresses. -/
theorem circling_stays_aligned :
    (∀ word, Operation.setCounter word ∉ circling) ∧
      (∀ i operation, circling[i]? = some operation →
        ∀ a, ((create .modern (.ofSeed 0)).before circling i).jumpsTo? operation = some a →
          a.IsEven) ∧
      ((create .modern (.ofSeed 0)).before circling 7).Aligned := by
  have hset : ∀ word, Operation.setCounter word ∉ circling := by
    intro word hword
    simp [circling] at hword
  have hall : (List.range 7).map (fun i =>
      circling[i]?.bind ((create .modern (.ofSeed 0)).before circling i).jumpsTo?) =
        [none, some (.ofWord 0x206), none, none, none, none, some (.ofWord 0x200)] := by
    decide +kernel
  have hjumps : ∀ i operation, circling[i]? = some operation →
      ∀ a, ((create .modern (.ofSeed 0)).before circling i).jumpsTo? operation = some a →
        a.IsEven := by
    intro i operation hoperation a ha
    have hi : i < 7 := (List.getElem?_eq_some_iff.1 hoperation).1
    have hjump := congrArg (·[i]?) hall
    simp only [List.getElem?_map, List.getElem?_range hi, Option.map_some, hoperation,
      Option.bind_some, ha] at hjump
    have hmem := List.mem_of_getElem? hjump.symm
    simp only [List.mem_cons, reduceCtorEq, Option.some.injEq, List.not_mem_nil, or_false,
      false_or] at hmem
    obtain rfl | rfl := hmem
    · decide
    · decide
  exact ⟨hset, hjumps, (sessions_stay_aligned hset hjumps 7).1⟩

end Machine

end ChipEight
