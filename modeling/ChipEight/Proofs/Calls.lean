import ChipEight.Proofs.Footprint

/-!
# Calls and returns

The stack of a machine holds the return addresses of the open calls. A completed call puts
the address behind itself on top, a completed return takes the newest address off and goes
there, and nothing else that a host or a program can do touches the stack. So the depth
counts calls against returns, and a return that closes a call goes behind that call,
whatever happened in between. Slots above the depth play no part in it.
-/

namespace ChipEight

/-- Whether an instruction opens a call. -/
def Instruction.opensCall : Instruction → Bool
  | call _ => true
  | _ => false

/-- Whether an instruction closes a call. -/
def Instruction.closesCall : Instruction → Bool
  | ret => true
  | _ => false

namespace Machine

/-- A call that is carried out puts the address behind itself on the stack. -/
theorem stack_of_completed_call {m : Machine} {operation : Operation} {target : Address}
    (h : m.completed operation = some (.call target)) :
    (m.perform operation).machine.stack.toList = m.stack.toList ++ [m.pc.forward 2] := by
  obtain ⟨-, -, hcall, signal, hout⟩ := completed_eq_some_iff.1 h
  rw [execution, hcall] at hout
  rw [machine_of_completed h]
  change (m.advance.call m.pc target).outcome = .ok signal at hout
  change (m.advance.call m.pc target).machine.stack.toList = m.stack.toList ++ [m.pc.forward 2]
  unfold call at hout ⊢
  cases hpush : m.advance.stack.push m.advance.pc with
  | none =>
    rw [hpush] at hout
    cases hout
  | some pushed => exact BoundedStack.toList_of_push hpush

/-- A return that is carried out takes the newest address off the stack and goes there. -/
theorem stack_of_completed_ret {m : Machine} {operation : Operation}
    (h : m.completed operation = some .ret) :
    m.stack.toList = (m.perform operation).machine.stack.toList ++
      [(m.perform operation).machine.pc] := by
  obtain ⟨-, -, hret, signal, hout⟩ := completed_eq_some_iff.1 h
  rw [execution, hret] at hout
  rw [machine_of_completed h]
  change (m.advance.ret m.pc).outcome = .ok signal at hout
  change m.stack.toList = (m.advance.ret m.pc).machine.stack.toList ++
    [(m.advance.ret m.pc).machine.pc]
  unfold ret at hout ⊢
  cases hpop : m.advance.stack.pop with
  | none =>
    rw [hpop] at hout
    cases hout
  | some popped => exact BoundedStack.toList_of_pop hpop

/-- Everything else leaves the stack alone: other instructions, polls, failing steps and
whatever the host does. -/
theorem stack_of_not_completed {m : Machine} {operation : Operation}
    (hcall : ∀ target, m.completed operation ≠ some (.call target))
    (hret : m.completed operation ≠ some .ret) :
    (m.perform operation).machine.stack = m.stack := by
  cases operation with
  | step =>
    change m.step.machine.stack = m.stack
    obtain ⟨wait, -, hstep⟩ | ⟨hwait, signal, hout, hstep⟩ | ⟨-, fault, -, hstep⟩ := m.step_cases
    · rw [hstep]
      exact m.stack_poll wait
    · rw [hstep]
      have hcompleted : m.completed .step = some m.instruction :=
        completed_eq_some_iff.2 ⟨rfl, hwait, rfl, signal, hout⟩
      refine stack_execute (fun target h => ?_) fun h => ?_
      · exact hcall target (h ▸ hcompleted)
      · exact hret (h ▸ hcompleted)
    · rw [hstep]
  | load program =>
    obtain ⟨cells, r, h⟩ := m.load_memory program
    rw [h]
  | loadFile path content =>
    obtain ⟨cells, r, h⟩ := m.loadFile_memory path content
    rw [h]
  | _ => rfl

/-- What an operation does to the open calls. -/
theorem stack_cases (m : Machine) (operation : Operation) :
    (∃ target, m.completed operation = some (.call target) ∧
      (m.perform operation).machine.stack.toList = m.stack.toList ++ [m.pc.forward 2]) ∨
    (m.completed operation = some .ret ∧ m.stack.toList =
      (m.perform operation).machine.stack.toList ++ [(m.perform operation).machine.pc]) ∨
    ((∀ target, m.completed operation ≠ some (.call target)) ∧
      m.completed operation ≠ some .ret ∧
      (m.perform operation).machine.stack = m.stack) := by
  by_cases hcall : ∃ target, m.completed operation = some (.call target)
  · obtain ⟨target, h⟩ := hcall
    exact .inl ⟨target, h, stack_of_completed_call h⟩
  · have hcall' : ∀ target, m.completed operation ≠ some (.call target) :=
      fun target h => hcall ⟨target, h⟩
    by_cases hret : m.completed operation = some .ret
    · exact .inr (.inl ⟨hret, stack_of_completed_ret hret⟩)
    · exact .inr (.inr ⟨hcall', hret, stack_of_not_completed hcall' hret⟩)

/-- One operation keeps the books: depth and completed returns grow with completed calls. -/
theorem depth_perform (m : Machine) (operation : Operation) :
    (m.perform operation).machine.stack.depth +
        (m.completed operation).toList.countP Instruction.closesCall =
      m.stack.depth + (m.completed operation).toList.countP Instruction.opensCall := by
  obtain ⟨target, hdone, hstack⟩ | ⟨hdone, hstack⟩ | ⟨hcall, hret, hstack⟩ :=
    m.stack_cases operation
  · have hlength := congrArg List.length hstack
    simp only [List.length_append, BoundedStack.length_toList, List.length_singleton] at hlength
    rw [hdone, hlength]
    rfl
  · have hlength := congrArg List.length hstack
    simp only [List.length_append, BoundedStack.length_toList, List.length_singleton] at hlength
    rw [hdone, hlength]
    rfl
  · rw [hstack]
    cases hdone : m.completed operation with
    | none => rfl
    | some i =>
      cases i with
      | call target => exact absurd hdone (hcall target)
      | ret => exact absurd hdone hret
      | _ => rfl

/-- Over a whole session the depth is what it was at the start, plus the calls that were
carried out, less the returns. -/
theorem depth_performAll (m : Machine) (operations : List Operation) :
    (m.performAll operations).stack.depth +
        (m.completedIn operations).countP Instruction.closesCall =
      m.stack.depth + (m.completedIn operations).countP Instruction.opensCall := by
  induction operations generalizing m with
  | nil => rfl
  | cons first rest ih =>
    have hrest := ih (m.perform first).machine
    have hfirst := m.depth_perform first
    simp only [performAll_cons, completedIn, List.countP_append]
    omega

/-- As long as the stack stays at least as high as some values at its bottom, an operation
leaves these values in place. -/
theorem bottom_perform {m : Machine} {bottom : List Address} {operation : Operation}
    (hbottom : bottom <+: m.stack.toList)
    (hdeep : bottom.length ≤ (m.perform operation).machine.stack.depth) :
    bottom <+: (m.perform operation).machine.stack.toList := by
  obtain ⟨target, -, hstack⟩ | ⟨-, hstack⟩ | ⟨-, -, hstack⟩ := m.stack_cases operation
  · rw [hstack]
    exact hbottom.trans (List.prefix_append _ _)
  · rw [hstack] at hbottom
    refine List.prefix_of_prefix_length_le hbottom (List.prefix_append _ _) ?_
    rw [BoundedStack.length_toList]
    exact hdeep
  · rw [hstack]
    exact hbottom

/-- The values at the bottom of the stack stay in place for a whole session in which the
stack never gets lower. -/
theorem bottom_performAll {m : Machine} {bottom : List Address} {operations : List Operation}
    (hbottom : bottom <+: m.stack.toList)
    (hdeep : ∀ n ≤ operations.length,
      bottom.length ≤ (m.performAll (operations.take n)).stack.depth) :
    bottom <+: (m.performAll operations).stack.toList := by
  induction operations generalizing m with
  | nil => exact hbottom
  | cons first rest ih =>
    have hfirst := hdeep 1 (by simp)
    have hrest : ∀ n ≤ rest.length,
        bottom.length ≤ ((m.perform first).machine.performAll (rest.take n)).stack.depth :=
      fun n hn => hdeep (n + 1) (by simpa using hn)
    exact ih (bottom_perform hbottom hfirst) hrest

/-- A session from a call to the operation that first brings the stack back to its depth
before the call. -/
structure CallSpan (m : Machine) (target : Address) (inside : List Operation)
    (last : Operation) : Prop where
  /-- The machine does not wait for a key. -/
  ready : m.keyWait = none
  /-- The first step of the session is a call. -/
  calls : m.instruction = .call target
  /-- There is room for one more call. -/
  room : m.stack.depth < 16
  /-- Until the last operation the stack is higher than before the call. -/
  deep : ∀ n ≤ inside.length,
    m.stack.depth < (m.step.machine.performAll (inside.take n)).stack.depth
  /-- The last operation brings the stack back. -/
  back : ((m.step.machine.performAll inside).perform last).machine.stack.depth = m.stack.depth

/-- A call is carried out if there is room for it. -/
theorem completed_call {m : Machine} {target : Address} (hready : m.keyWait = none)
    (hcall : m.instruction = .call target) (hroom : m.stack.depth < 16) :
    m.completed .step = some (.call target) ∧ m.execution.outcome = .ok .proceed := by
  have hout : m.execution.outcome = .ok .proceed := by
    rw [execution, hcall]
    change (m.advance.call m.pc target).outcome = .ok .proceed
    unfold call
    cases hpush : m.advance.stack.push m.advance.pc with
    | none =>
      have hfull := (m.advance.stack.push_eq_none_iff m.advance.pc).1 hpush
      change m.stack.depth = 16 at hfull
      omega
    | some pushed => rfl
  exact ⟨completed_eq_some_iff.2 ⟨rfl, hready, hcall, .proceed, hout⟩, hout⟩

/-- A return that is carried out asks for the next instruction. -/
theorem proceed_of_completed_ret {m : Machine} {operation : Operation}
    (h : m.completed operation = some .ret) : m.step.outcome = .ok .proceed := by
  obtain ⟨-, hready, hret, signal, hout⟩ := completed_eq_some_iff.1 h
  rw [step_of_execution_ok hready hout]
  rw [execution, hret] at hout
  change (m.advance.ret m.pc).outcome = .ok signal at hout
  unfold ret at hout
  cases hpop : m.advance.stack.pop with
  | none =>
    rw [hpop] at hout
    cases hout
  | some popped =>
    rw [hpop] at hout
    cases hout
    rfl

/-- Calls and returns match. In every session the depth is the depth at its start plus the
calls carried out less the returns carried out, and at most sixteen. A call whose session
brings the stack back to its depth before the call is carried out, the operation that does
so is a step that carries out a return, the program goes on behind the call, and the open
calls are those before it. -/
theorem calls_match_returns (m : Machine) :
    (∀ operations : List Operation,
      (m.performAll operations).stack.depth +
          (m.completedIn operations).countP Instruction.closesCall =
        m.stack.depth + (m.completedIn operations).countP Instruction.opensCall ∧
      (m.performAll operations).stack.depth ≤ 16) ∧
    ∀ (target : Address) (inside : List Operation) (last : Operation),
      m.CallSpan target inside last →
      m.step.outcome = .ok .proceed ∧
      last = .step ∧
      (m.step.machine.performAll inside).keyWait = none ∧
      (m.step.machine.performAll inside).instruction = .ret ∧
      (m.step.machine.performAll inside).step.outcome = .ok .proceed ∧
      (m.step.machine.performAll inside).step.machine.pc = m.pc.forward 2 ∧
      (m.step.machine.performAll inside).step.machine.stack.toList = m.stack.toList := by
  refine ⟨fun operations => ⟨m.depth_performAll operations, ?_⟩,
    fun target inside last span => ?_⟩
  · exact (m.performAll operations).stack.depth_le
  obtain ⟨hdone, hout⟩ := completed_call span.ready span.calls span.room
  have hcalled : m.step.machine.stack.toList = m.stack.toList ++ [m.pc.forward 2] :=
    stack_of_completed_call hdone
  -- The values before the call and the address behind it are the bottom of the stack.
  have hbottom : m.stack.toList ++ [m.pc.forward 2] <+:
      (m.step.machine.performAll inside).stack.toList := by
    refine bottom_performAll (hcalled ▸ List.prefix_refl _) fun n hn => ?_
    rw [List.length_append, BoundedStack.length_toList]
    exact span.deep n hn
  have hdeep := span.deep inside.length (Nat.le_refl _)
  rw [List.take_length] at hdeep
  have hback := span.back
  generalize m.step.machine.performAll inside = reached at hbottom hdeep hback ⊢
  obtain ⟨other, -, hstack⟩ | ⟨hret, hstack⟩ | ⟨-, -, hstack⟩ := reached.stack_cases last
  · have hlength := congrArg List.length hstack
    simp only [List.length_append, BoundedStack.length_toList, List.length_singleton] at hlength
    omega
  · obtain ⟨rfl, hready, hinstruction, -⟩ := completed_eq_some_iff.1 hret
    change reached.stack.toList = reached.step.machine.stack.toList ++ [reached.step.machine.pc]
      at hstack
    have hsame : m.stack.toList ++ [m.pc.forward 2] =
        reached.step.machine.stack.toList ++ [reached.step.machine.pc] := by
      rw [hstack] at hbottom
      refine hbottom.eq_of_length ?_
      simp only [List.length_append, BoundedStack.length_toList, List.length_singleton]
      rw [← hback]
      rfl
    obtain ⟨hlist, hpc⟩ := List.append_inj' hsame rfl
    refine ⟨?_, rfl, hready, hinstruction, proceed_of_completed_ret hret, ?_, hlist.symm⟩
    · rw [step_of_execution_ok span.ready hout]
    · exact (List.singleton_inj.1 hpc).symm
  · rw [hstack] at hback
    omega

/-- A machine at the end of memory that is about to call a subroutine which consists of
nothing but a return. -/
def atLastCall : Machine :=
  { (create .modern (.ofSeed 0)).setCounter 0xFFE with
    memory := Memory.cleared.writeWord ⟨0x300, by decide⟩ 0x00EE }.facing 0x2300

/-- A call at the end of memory, with a tick and a key press inside. -/
theorem span_atLastCall :
    atLastCall.CallSpan ⟨0x300, by decide⟩ [.tick, .setKey (.ofNat 4) true] .step := by
  have hcall : atLastCall.instruction = .call ⟨0x300, by decide⟩ := instruction_facing _ _
  obtain ⟨hdone, -⟩ := completed_call rfl hcall (by decide)
  have hmachine := step_machine_of_completed hdone
  refine ⟨rfl, hcall, by decide, fun n hn => ?_, ?_⟩
  · rw [hmachine]
    have hlength : n ≤ 2 := hn
    obtain rfl | rfl | rfl : n = 0 ∨ n = 1 ∨ n = 2 := by omega
    · exact Nat.one_pos
    · exact Nat.one_pos
    · exact Nat.one_pos
  · rw [hmachine]
    generalize hreached : Machine.performAll _ _ = reached
    have hret : reached.instruction = .ret := by
      subst hreached
      change Instruction.decode (((Memory.cleared.writeWord ⟨0x300, by decide⟩ 0x00EE).writeWord
        _ _).readWord ⟨0x300, by decide⟩) = .ret
      rw [Memory.readWord_writeWord_of_apart _ _ (by decide) (by decide) (by decide),
        Memory.readWord_writeWord]
      rfl
    have hdone : reached.completed .step = some .ret := by
      refine completed_eq_some_iff.2 ⟨rfl, ?_, hret, .proceed, ?_⟩
      · subst hreached
        rfl
      · rw [execution, hret]
        subst hreached
        rfl
    rw [machine_of_completed hdone]
    subst hreached
    rfl

/-- The call at the end of memory returns to the beginning of memory. -/
theorem return_behind_atLastCall :
    atLastCall.CallSpan ⟨0x300, by decide⟩ [.tick, .setKey (.ofNat 4) true] .step ∧
      (atLastCall.step.machine.performAll [.tick, .setKey (.ofNat 4) true]).step.machine.pc =
        .zero := by
  obtain ⟨-, -, -, -, -, hpc, -⟩ := atLastCall.calls_match_returns.2 _ _ _ span_atLastCall
  exact ⟨span_atLastCall, hpc.trans (by decide)⟩

end Machine

end ChipEight
