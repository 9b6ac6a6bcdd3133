import ChipEight.Proofs.Plain.Parts

/-!
# Stacks in sessions of calls

A bounded stack keeps its values in slots and counts how many slots are in use. To its callers it is
a list: a push appends a value if there is room, a pop takes the last one away if there is one, and
a call that is refused changes nothing. The plain form, an array of words with a byte for the number
of slots in use, is such a list too. No session of calls tells the three apart, and what the slots
hold that are not in use never shows.
-/

namespace ChipEight

namespace BoundedStack

variable {α : Type} {capacity : Nat}

/-- A stack without values is one of depth zero. -/
theorem toList_eq_nil_iff (s : BoundedStack α capacity) : s.toList = [] ↔ s.depth = 0 := by
  rw [← List.length_eq_zero_iff, s.length_toList]

/-- A push appends to the values if there is room, and is refused otherwise. -/
theorem map_toList_push (s : BoundedStack α capacity) (value : α) : (s.push value).map toList =
    if s.toList.length < capacity then some (s.toList ++ [value]) else none := by
  have hle := s.depth_le
  rw [s.length_toList]
  cases hpush : s.push value with
  | none =>
    have hfull := (s.push_eq_none_iff value).1 hpush
    rw [if_neg (by omega), Option.map_none]
  | some next =>
    have hroom : s.depth ≠ capacity := by
      rw [ne_eq, ← s.push_eq_none_iff value, hpush]
      simp
    rw [if_pos (by omega), Option.map_some, toList_of_push hpush]

/-- A pop takes the last of the values off if there is one, and is refused otherwise. -/
theorem map_toList_pop (s : BoundedStack α capacity) :
    (s.pop.map fun popped => (popped.1, popped.2.toList)) =
      s.toList.getLast?.map fun last => (last, s.toList.dropLast) := by
  cases hpop : s.pop with
  | none =>
    have hempty : s.toList = [] := s.toList_eq_nil_iff.2 (s.pop_eq_none_iff.1 hpop)
    simp [hempty]
  | some popped => simp [toList_of_pop hpop]

/-- The stack with the same values, but with other contents in the slots that are not in use. -/
def refill (s : BoundedStack α capacity) (others : Vector α capacity) : BoundedStack α capacity :=
  ⟨.ofFn fun k => if k.val < s.depth then s.slots[k] else others[k], s.depth, s.depth_le⟩

/-- The values on the stack are those in the slots in use. -/
theorem toList_refill (s : BoundedStack α capacity) (others : Vector α capacity) :
    (s.refill others).toList = s.toList := by
  refine List.ext_getElem (by simp [refill]) fun k hk hk' => ?_
  rw [length_toList] at hk'
  simp [toList, refill, hk']

end BoundedStack

/-- A call on a stack. -/
inductive StackCall (α : Type) where
  /-- Put a value on top. -/
  | push (value : α)
  /-- Take the newest value off. -/
  | pop

/-- The answer to a call. -/
inductive StackAnswer (α : Type) where
  /-- The value is on the stack. -/
  | pushed
  /-- There was no room for the value. -/
  | full
  /-- The value was taken off. -/
  | popped (value : α)
  /-- There was no value to take off. -/
  | nothing
  deriving DecidableEq

/-- What can be seen after a call. -/
structure StackReport (α : Type) where
  /-- The answer to the call. -/
  answer : StackAnswer α
  /-- The values on the stack, the oldest first. -/
  values : List α
  /-- Number of values on the stack. -/
  count : Nat
  /-- Whether there is none. -/
  isEmpty : Bool
  deriving DecidableEq

/-- A form in which stacks are kept. Where a form has checks, `none` says that one of them failed. -/
structure StackForm (α σ : Type) where
  /-- Puts a value on top, if there is room. -/
  push : σ → α → Option (Option σ)
  /-- Takes the newest value off, if there is one. -/
  pop : σ → Option (Option (α × σ))
  /-- The values, the oldest first. -/
  values : σ → Option (List α)
  /-- Number of values. -/
  count : σ → Nat
  /-- Whether there is none. -/
  isEmpty : σ → Bool

namespace StackForm

variable {α σ τ : Type}

/-- Answers a call. The stack is as before if the call is refused. -/
def serve (form : StackForm α σ) (s : σ) : StackCall α → Option (StackAnswer α × σ)
  | .push value => (form.push s value).map fun
    | some next => (.pushed, next)
    | none => (.full, s)
  | .pop => (form.pop s).map fun
    | some (value, next) => (.popped value, next)
    | none => (.nothing, s)

/-- What can be seen of a stack, with the answer to the last call. -/
def report (form : StackForm α σ) (answer : StackAnswer α) (s : σ) : Option (StackReport α) := do
  let values ← form.values s
  some ⟨answer, values, form.count s, form.isEmpty s⟩

/-- What can be seen after each call of a session. -/
def session (form : StackForm α σ) : σ → List (StackCall α) → Option (List (StackReport α))
  | _, [] => some []
  | s, call :: rest => do
    let (answer, next) ← form.serve s call
    let first ← form.report answer next
    let others ← form.session next rest
    some (first :: others)

/-- A list of at most `capacity` values, the newest at its end. -/
def boundedList (capacity : Nat) : StackForm α (List α) where
  push values value := some (if values.length < capacity then some (values ++ [value]) else none)
  pop values := some (values.getLast?.map fun last => (last, values.dropLast))
  values := some
  count := List.length
  isEmpty := List.isEmpty

/-- A bounded stack. -/
def slots {capacity : Nat} : StackForm α (BoundedStack α capacity) where
  push s value := some (s.push value)
  pop s := some s.pop
  values s := some s.toList
  count := BoundedStack.depth
  isEmpty s := s.depth == 0

/-- An array of words and a byte. The values are a part of the array that has to be in bounds. -/
def words : StackForm UInt16 Plain.CallStack where
  push := Plain.CallStack.push
  pop := Plain.CallStack.pop
  values s := do
    let (inUse, _) ← Plain.splitAt s.entries.toList s.sp.toNat
    some inUse
  count s := s.sp.toNat
  isEmpty s := s.sp == 0

/-- A map from the stacks of one form to those of another that no call can notice. -/
structure Simulates (f : σ → τ) (form : StackForm α σ) (other : StackForm α τ) : Prop where
  /-- Both push alike. -/
  push : ∀ s value, other.push (f s) value = (form.push s value).map (Option.map f)
  /-- Both pop alike. -/
  pop : ∀ s, other.pop (f s) =
    (form.pop s).map (Option.map fun popped => (popped.1, f popped.2))
  /-- Both have the same values. -/
  values : ∀ s, other.values (f s) = form.values s
  /-- Both count alike. -/
  count : ∀ s, other.count (f s) = form.count s
  /-- Both are empty at the same time. -/
  isEmpty : ∀ s, other.isEmpty (f s) = form.isEmpty s

namespace Simulates

variable {f : σ → τ} {form : StackForm α σ} {other : StackForm α τ}

/-- A call is answered alike and leaves stacks that belong together. -/
theorem serve_eq (h : Simulates f form other) (s : σ) (call : StackCall α) :
    other.serve (f s) call =
      (form.serve s call).map fun served => (served.1, f served.2) := by
  cases call with
  | push value =>
    rw [serve, serve, h.push, Option.map_map, Option.map_map]
    congr 1
    funext pushed
    cases pushed <;> rfl
  | pop =>
    rw [serve, serve, h.pop, Option.map_map, Option.map_map]
    congr 1
    funext popped
    cases popped <;> rfl

/-- A session shows the same. -/
theorem session_eq (h : Simulates f form other) (s : σ) (calls : List (StackCall α)) :
    other.session (f s) calls = form.session s calls := by
  -- After each call the two stacks still belong together, whether it is refused or not.
  induction calls generalizing s with
  | nil => rfl
  | cons call rest ih =>
    rw [session, session, h.serve_eq]
    cases form.serve s call with
    | none => rfl
    | some served =>
      simp only [Option.map_some, Option.bind_eq_bind, Option.bind_some, report, h.values, h.count,
        h.isEmpty, ih]

end Simulates

/-- A bounded stack is the list of its values. -/
theorem toList_simulates {capacity : Nat} :
    Simulates BoundedStack.toList (slots : StackForm α (BoundedStack α capacity))
      (boundedList capacity) where
  push s value := congrArg some (s.map_toList_push value).symm
  pop s := congrArg some s.map_toList_pop.symm
  values _ := rfl
  count s := s.length_toList
  isEmpty s := Bool.eq_iff_iff.2
    (List.isEmpty_iff.trans (s.toList_eq_nil_iff.trans beq_iff_eq.symm))

/-- The plain form of a bounded stack of words is that stack. -/
theorem ofSlots_simulates : Simulates (Plain.ofSlots id) slots words where
  push s value := Plain.push_ofSlots id s value
  pop s := Plain.pop_ofSlots id s
  values s := by
    have hinside : s.depth ≤ (Plain.ofSlots id s).entries.toList.length := by
      rw [Vector.length_toList]
      exact s.depth_le
    simp only [words, slots, Plain.toNat_sp_ofSlots, Plain.splitAt_of_le hinside]
    simp [Plain.ofSlots, BoundedStack.toList]
  count s := Plain.toNat_sp_ofSlots id s
  isEmpty s := Bool.eq_iff_iff.2
    (beq_iff_eq.trans ((Plain.sp_ofSlots_eq_zero_iff id s).trans beq_iff_eq.symm))

/-- No call on a bounded list fails a check. -/
theorem isSome_session_boundedList (capacity : Nat) (values : List α)
    (calls : List (StackCall α)) : ((boundedList capacity).session values calls).isSome = true := by
  induction calls generalizing values with
  | nil => rfl
  | cons call rest ih =>
    obtain ⟨served, hserve⟩ : ∃ served, (boundedList capacity).serve values call = some served := by
      cases call <;> exact ⟨_, rfl⟩
    obtain ⟨others, hothers⟩ := Option.isSome_iff_exists.1 (ih served.2)
    have hreport : (boundedList capacity).report served.1 served.2 =
        some ⟨served.1, served.2, served.2.length, served.2.isEmpty⟩ := rfl
    simp only [session, hserve, hreport, hothers, Option.bind_eq_bind, Option.bind_some,
      Option.isSome_some]

/-- Every session of calls, of any length and with calls that are refused in it, shows the same on a
stack of sixteen slots, on its plain form and on a list of at most sixteen values, and passes all
checks. Wherever a stack has got, the contents of the slots that are not in use have no part in what
is shown from there on. -/
theorem slots_and_words_like_list (calls : List (StackCall UInt16)) :
    ((boundedList 16).session [] calls).isSome = true ∧
    slots.session (BoundedStack.empty 0 : BoundedStack UInt16 16) calls =
      (boundedList 16).session [] calls ∧
    words.session ⟨.replicate 16 0, 0⟩ calls = (boundedList 16).session [] calls ∧
    ∀ (s : BoundedStack UInt16 16) (others : Vector UInt16 16),
      slots.session (s.refill others) calls = (boundedList 16).session s.toList calls ∧
      words.session (Plain.ofSlots id (s.refill others)) calls =
        (boundedList 16).session s.toList calls := by
  have hslots : ∀ s : BoundedStack UInt16 16,
      slots.session s calls = (boundedList 16).session s.toList calls :=
    fun s => (toList_simulates.session_eq s calls).symm
  have hwords : ∀ s : BoundedStack UInt16 16,
      words.session (Plain.ofSlots id s) calls = (boundedList 16).session s.toList calls :=
    fun s => (ofSlots_simulates.session_eq s calls).trans (hslots s)
  refine ⟨isSome_session_boundedList 16 [] calls, ?_, ?_, fun s others => ⟨?_, ?_⟩⟩
  · rw [hslots, BoundedStack.toList_empty]
  · have hempty : Plain.ofSlots id (BoundedStack.empty 0) = ⟨.replicate 16 0, 0⟩ := by
      rw [Plain.ofSlots, BoundedStack.empty, Vector.map_id]
      rfl
    rw [← hempty, hwords, BoundedStack.toList_empty]
  · rw [hslots, BoundedStack.toList_refill]
  · rw [hwords, BoundedStack.toList_refill]

/-- Two calls are refused, one at either end, and the value that was popped is seen no more. -/
example : slots.session (BoundedStack.empty 0 : BoundedStack Nat 1)
    [.push 7, .push 8, .pop, .pop] =
      some [⟨.pushed, [7], 1, false⟩, ⟨.full, [7], 1, false⟩, ⟨.popped 7, [], 0, true⟩,
        ⟨.nothing, [], 0, true⟩] := by
  decide

end StackForm

end ChipEight
