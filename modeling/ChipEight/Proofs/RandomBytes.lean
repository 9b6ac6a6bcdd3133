import ChipEight.Proofs.Effects

/-!
# Random bytes over a session

The cipher's blocks, one behind the other, are the words that a generator gives, and none of them
is left out or given twice where a block ends. `CXNN` takes one word each time it is carried out,
also when its mask hides the whole byte; nothing else takes any, be it another instruction, a
failing step, a poll, a load or a change that the host makes. So the words taken in a session
are counted by the `CXNN` carried out in it.
-/

namespace ChipEight

namespace NibbleTable

/-- The values of a table in order are those for the digits in order. -/
theorem getElem?_toList {α : Type} (t : NibbleTable α) {n : Nat} (h : n < 16) :
    t.toList[n]? = some (t.get (.ofNat n)) := by
  have hlt : n < t.toList.length := by
    rw [toList, Vector.length_toList]
    exact h
  have hdigit : (Nibble.ofNat n).val = n := Nat.mod_eq_of_lt h
  rw [List.getElem?_eq_getElem hlt, get]
  simp only [toList, Vector.getElem_toList, Fin.getElem_fin, hdigit]

end NibbleTable

namespace RandomStream

/-- The words of the first blocks of a key, one block behind the other. -/
def blocks (key : ChaCha.Key) : Nat → List UInt32
  | 0 => []
  | count + 1 => blocks key count ++ (ChaCha.block key (.ofNat count)).toList

/-- Every block has sixteen words. -/
theorem length_blocks (key : ChaCha.Key) (count : Nat) :
    (blocks key count).length = 16 * count := by
  induction count with
  | zero => rfl
  | succ count ih =>
    have hblock : (ChaCha.block key (.ofNat count)).toList.length = 16 :=
      Vector.length_toList
    rw [blocks, List.length_append, ih, hblock]
    rfl

/-- The word at a position is found there in the blocks, whether or not a block begins with it. -/
theorem getElem?_blocks (key : ChaCha.Key) {count position : Nat} (h : position < 16 * count) :
    (blocks key count)[position]? = some (word key position) := by
  induction count with
  | zero => omega
  | succ count ih =>
    rw [blocks]
    by_cases hearlier : position < 16 * count
    · rw [List.getElem?_append_left (by rw [length_blocks]; exact hearlier), ih hearlier]
    · have hblock : position / 16 = count := by omega
      have hplace : position - 16 * count < 16 := by omega
      have hdigit : Nibble.ofNat position = Nibble.ofNat (position - 16 * count) := by
        apply Fin.ext
        simp only [Nibble.ofNat]
        omega
      rw [List.getElem?_append_right (by rw [length_blocks]; omega), length_blocks,
        NibbleTable.getElem?_toList _ hplace, word, hblock, hdigit]

/-- The seventeenth word is the first of the second block. -/
example (key : ChaCha.Key) : word key 16 = (ChaCha.block key 1).get (.ofNat 0) := rfl

/-- The generator after some more words. -/
def skip (r : RandomStream) (count : Nat) : RandomStream :=
  { r with position := r.position + count }

end RandomStream

/-- Whether an instruction takes a random byte. -/
def Instruction.takesByte : Instruction → Bool
  | random _ _ => true
  | _ => false

namespace Instruction

open Form in
/-- The words of the form `CXNN` stand for the instructions that take a random byte. -/
theorem decode_eq_random_iff {word : UInt16} {x : Nibble} {mask : UInt8} :
    decode word = random x mask ↔
      Fits ⟨0xC, X, N, N⟩ word ∧ x = (Fields.ofWord word).x ∧ mask = word.toUInt8 := by
  have hdecode : Fits ⟨0xC, X, N, N⟩ word →
      decode word = random (Fields.ofWord word).x word.toUInt8 := by
    intro hfits
    have hfamily : (Fields.ofWord word).family = 0xC := hfits.family
    unfold decode
    dsimp only
    rw [hfamily]
    rfl
  constructor
  · intro h
    have hfits : Fits ⟨0xC, X, N, N⟩ word := by
      refine (fits_iff (by decide) word).2 ?_
      rw [h]
      rfl
    rw [hdecode hfits] at h
    cases h
    exact ⟨hfits, rfl, rfl⟩
  · rintro ⟨hfits, rfl, rfl⟩
    exact hdecode hfits

end Instruction

namespace Machine

open Instruction.Form in
/-- A word of the form `CXNN` is carried out whenever no wait is pending; it never fails. -/
theorem completed_random_iff {m : Machine} {operation : Operation} {x : Nibble} {mask : UInt8} :
    m.completed operation = some (.random x mask) ↔
      operation = .step ∧ m.keyWait = none ∧ Instruction.Form.Fits ⟨0xC, X, N, N⟩ m.fetch ∧
        x = m.digitX ∧ mask = m.fetch.toUInt8 := by
  have hdecode : m.instruction = .random x mask ↔ Instruction.Form.Fits ⟨0xC, X, N, N⟩ m.fetch ∧
      x = m.digitX ∧ mask = m.fetch.toUInt8 := Instruction.decode_eq_random_iff
  have hnever : m.instruction = .random x mask → ∃ signal, m.execution.outcome = .ok signal := by
    intro h
    rw [execution, h]
    exact ⟨.proceed, rfl⟩
  rw [completed_eq_some_iff, ← hdecode]
  constructor
  · rintro ⟨hstep, hready, hinstruction, -⟩
    exact ⟨hstep, hready, hinstruction⟩
  · rintro ⟨hstep, hready, hinstruction⟩
    exact ⟨hstep, hready, hinstruction, hnever hinstruction⟩

/-- Number of random bytes that a session takes: one for each `CXNN` carried out. -/
def bytesTaken (m : Machine) (session : List Operation) : Nat :=
  (m.completedIn session).countP Instruction.takesByte

/-- The byte that is stored is the next one under the mask. -/
theorem v_randomize (m : Machine) (x : Nibble) (mask : UInt8) :
    (m.randomize x mask).v x = m.random.nextByte.1 &&& mask := by
  have hget : (m.randomize x mask).v x =
      if x = x then m.random.nextByte.1 &&& mask else m.v x := v_setV _ x x _
  rw [hget, if_pos rfl]

/-- What `CXNN` stores, and how it leaves the generator. -/
theorem perform_of_random {m : Machine} {operation : Operation} {x : Nibble} {mask : UInt8}
    (h : m.completed operation = some (.random x mask)) :
    (m.perform operation).machine.v x =
        (RandomStream.word m.random.key m.random.position).toUInt8 &&& mask ∧
      (m.perform operation).machine.random = m.random.skip 1 := by
  rw [machine_of_completed h]
  exact ⟨m.advance.v_randomize x mask, rfl⟩

/-- An operation that carries out no `CXNN` leaves the generator where it is. -/
theorem random_perform_of_not_random {m : Machine} {operation : Operation}
    (h : ∀ x mask, m.completed operation ≠ some (.random x mask)) :
    (m.perform operation).machine.random = m.random := by
  by_cases hstep : operation = .step
  · subst hstep
    change m.step.machine.random = m.random
    by_contra hne
    obtain ⟨hready, ⟨form, hmem, hfits⟩, -⟩ := carriesOut_of_random_ne hne
    rw [List.mem_singleton] at hmem
    rw [hmem] at hfits
    exact h _ _ (completed_random_iff.2 ⟨rfl, hready, hfits, rfl, rfl⟩)
  · exact random_perform hstep

/-- One operation takes as many words as it carries out `CXNN`, which is one or none. -/
theorem random_perform_eq_skip (m : Machine) (operation : Operation) :
    (m.perform operation).machine.random =
      m.random.skip ((m.completed operation).toList.countP Instruction.takesByte) := by
  by_cases hrandom : ∃ x mask, m.completed operation = some (.random x mask)
  · obtain ⟨x, mask, hdone⟩ := hrandom
    rw [(perform_of_random hdone).2, hdone]
    rfl
  · have hnone : ∀ x mask, m.completed operation ≠ some (.random x mask) :=
      fun x mask hdone => hrandom ⟨x, mask, hdone⟩
    rw [random_perform_of_not_random hnone]
    cases hdone : m.completed operation with
    | none => rfl
    | some i =>
      cases i with
      | random x mask => exact absurd hdone (hnone x mask)
      | _ => rfl

/-- A session takes as many words as it carries out `CXNN`. -/
theorem random_performAll_eq_skip (m : Machine) (session : List Operation) :
    (m.performAll session).random = m.random.skip (m.bytesTaken session) := by
  induction session generalizing m with
  | nil => rfl
  | cons first rest ih =>
    have hfirst := m.random_perform_eq_skip first
    have hcount : m.bytesTaken (first :: rest) =
        (m.completed first).toList.countP Instruction.takesByte +
          (m.perform first).machine.bytesTaken rest := by
      rw [bytesTaken, completedIn, List.countP_append, bytesTaken]
    rw [performAll_cons, ih, hfirst, hcount, RandomStream.skip, RandomStream.skip,
      RandomStream.skip, Nat.add_assoc]

open Instruction.Form in
/-- A machine with the generator of a key has taken a number of its words, and the next operation
takes the word behind them or none. -/
structure Accounts (m : Machine) (key : ChaCha.Key) (taken : Nat) (operation : Operation) :
    Prop where
  /-- The generator stands behind the words taken. -/
  position : m.random = ⟨key, taken⟩
  /-- The operation carries out `CXNN` just if it is a step, no wait is pending and the word at the
  program counter has this form; register and mask are those of the word. -/
  carriesOut : ∀ x mask, m.completed operation = some (.random x mask) ↔
    operation = .step ∧ m.keyWait = none ∧ Instruction.Form.Fits ⟨0xC, X, N, N⟩ m.fetch ∧
      x = m.digitX ∧ mask = m.fetch.toUInt8
  /-- It then stores the low byte of the next word under its mask. -/
  stores : ∀ x mask, m.completed operation = some (.random x mask) →
    ((m.perform operation).machine.v x).toNat =
      (RandomStream.word key taken).toNat % 256 &&& mask.toNat
  /-- It takes this word, whatever its mask. -/
  takes : ∀ x mask, m.completed operation = some (.random x mask) →
    (m.perform operation).machine.random = ⟨key, taken + 1⟩
  /-- Any other operation takes none. -/
  leaves : (∀ x mask, m.completed operation ≠ some (.random x mask)) →
    (m.perform operation).machine.random = ⟨key, taken⟩

/-- Random bytes are taken in order. The words of a key are the cipher's blocks one behind the
other. Whatever the key of a new machine is, that of a seed or one from elsewhere, after every
session as many of its words are taken as `CXNN` were carried out, and the next operation takes
the word behind them if it carries out another one, and else none. -/
theorem random_bytes_in_order (dialect : Dialect) (key : ChaCha.Key) (session : List Operation)
    (operation : Operation) :
    (∀ count position, position < 16 * count →
      (RandomStream.blocks key count)[position]? = some (RandomStream.word key position)) ∧
    ((create dialect (.ofKey key)).performAll session).Accounts key
      ((create dialect (.ofKey key)).bytesTaken session) operation := by
  refine ⟨fun count position h => RandomStream.getElem?_blocks key h, ?_⟩
  have hposition : ((create dialect (.ofKey key)).performAll session).random =
      ⟨key, (create dialect (.ofKey key)).bytesTaken session⟩ := by
    rw [random_performAll_eq_skip, RandomStream.skip]
    change RandomStream.mk key (0 + (create dialect (.ofKey key)).bytesTaken session) = _
    rw [Nat.zero_add]
  generalize (create dialect (.ofKey key)).performAll session = found at hposition ⊢
  refine
    { position := hposition, carriesOut := fun x mask => completed_random_iff,
      stores := fun x mask hdone => ?_, takes := fun x mask hdone => ?_,
      leaves := fun hnone => ?_ }
  · rw [(perform_of_random hdone).1, hposition, UInt8.toNat_and, UInt32.toNat_toUInt8]
  · rw [(perform_of_random hdone).2, hposition]
    rfl
  · rw [random_perform_of_not_random hnone, hposition]

end Machine

end ChipEight
