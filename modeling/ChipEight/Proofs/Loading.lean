import ChipEight.Machine.Operation

/-!
# Loading programs

A program is loaded as a whole or not at all. One that fits fills the program area, which is
cleared behind it, and the program counter goes to its start; nothing else of the machine changes.
One that does not fit, or whose file cannot be read, changes nothing. As no byte of an earlier
program is left over, only the last program that was accepted counts.
-/

namespace ChipEight

namespace Memory

variable {program : List UInt8}

/-- Memory is known from the bytes at all addresses. -/
theorem eq_of_read_eq {m m' : Memory} (h : ∀ a, m.read a = m'.read a) : m = m' := by
  obtain ⟨cells⟩ := m
  obtain ⟨cells'⟩ := m'
  have hcells : cells = cells' := Vector.ext fun k hk => h ⟨k, hk⟩
  rw [hcells]

/-- Below the program area the image has what memory holds. -/
theorem getElem?_image_below (m : Memory) (program : List UInt8) {a : Address}
    (h : a.val < programStart.val) : (m.image program)[a.val]? = some (m.read a) := by
  have hcell : m.cells.toList[a.val]? = some (m.read a) := by
    rw [Vector.getElem?_toList]
    exact Vector.getElem?_eq_getElem a.isLt
  have htake : a.val < (m.cells.toList.take programStart.val).length := by
    rw [List.length_take, Vector.length_toList]
    exact Nat.lt_min.2 ⟨h, a.isLt⟩
  rw [image, List.append_assoc, List.getElem?_append_left htake, List.getElem?_take_of_lt h, hcell]

/-- In the program area the image has the program and zeros behind it. -/
theorem getElem?_image_above (m : Memory) (program : List UInt8) {a : Address}
    (h : programStart.val ≤ a.val) :
    (m.image program)[a.val]? = some (program.getD (a.val - programStart.val) 0) := by
  have hlt := a.isLt
  have htake : (m.cells.toList.take programStart.val).length = programStart.val := by
    rw [List.length_take, Vector.length_toList]
    rfl
  rw [image, List.append_assoc, List.getElem?_append_right (by rw [htake]; exact h), htake]
  by_cases hinside : a.val - programStart.val < program.length
  · rw [List.getElem?_append_left hinside, List.getElem?_eq_getElem hinside,
      List.getD_eq_getElem?_getD, List.getElem?_eq_getElem hinside, Option.getD_some]
  · have hbehind := Nat.le_of_not_lt hinside
    rw [List.getElem?_append_right hbehind, List.getD_eq_getElem?_getD,
      List.getElem?_eq_none hbehind, Option.getD_none, List.getElem?_replicate_of_lt]
    unfold programRoom at *
    omega

/-- A program with more bytes than there is room for is refused. -/
theorem load_of_large (m : Memory) (h : programRoom < program.length) :
    m.load program = .error (.tooLarge program.length programRoom) :=
  dif_neg (Nat.not_le_of_lt h)

/-- A program that fits is loaded. What memory holds then is what was there below the program area,
the program, and zeros behind it. -/
theorem exists_load (m : Memory) (h : program.length ≤ programRoom) :
    ∃ cells, m.load program = .ok cells ∧
      (∀ a : Address, a.val < programStart.val → cells.read a = m.read a) ∧
      ∀ a : Address, programStart.val ≤ a.val →
        cells.read a = program.getD (a.val - programStart.val) 0 := by
  refine ⟨_, dif_pos h, fun a ha => ?_, fun a ha => ?_⟩
  · obtain ⟨_, hbyte⟩ := List.getElem_of_getElem? (m.getElem?_image_below program ha)
    exact hbyte
  · obtain ⟨_, hbyte⟩ := List.getElem_of_getElem? (m.getElem?_image_above program ha)
    exact hbyte

/-- The bytes of a program that was loaded are read back from where it starts. -/
theorem readBytes_of_load {cells : Memory}
    (h : ∀ a : Address, programStart.val ≤ a.val →
      cells.read a = program.getD (a.val - programStart.val) 0)
    (hfits : program.length ≤ programRoom) :
    cells.readBytes programStart program.length = program := by
  refine List.ext_getElem (length_readBytes _ _ _) fun k hk hprogram => ?_
  have hplace : (programStart.forward k).val = programStart.val + k := by
    unfold programRoom at hfits
    exact Nat.mod_eq_of_lt (by omega)
  have hbyte := h (programStart.forward k) (by omega)
  rw [hplace, Nat.add_sub_cancel_left, List.getD_eq_getElem?_getD,
    List.getElem?_eq_getElem hprogram, Option.getD_some] at hbyte
  simp only [readBytes, List.getElem_map, List.getElem_range]
  exact hbyte

end Memory

/-- The program that an operation tries to load, if it tries to load one; a file that cannot be
read has none. -/
def Operation.offers : Operation → Option (List UInt8)
  | load program => some program
  | loadFile _ content => content
  | _ => none

/-- Whether an operation tries to load a program. -/
def Operation.loads : Operation → Bool
  | load _ | loadFile _ _ => true
  | _ => false

/-- The operation tries to load a program, and that fits. -/
structure Operation.Accepted (operation : Operation) (program : List UInt8) : Prop where
  /-- The operation tries to load the program. -/
  offered : operation.offers = some program
  /-- The program has no more bytes than there is room for. -/
  fits : program.length ≤ 3584

namespace Machine

/-- The machine after a program was loaded, by what memory holds then. -/
def withProgram (m : Machine) (cells : Memory) : Machine :=
  { m with memory := cells, registers := { m.registers with pc := Memory.programStart } }

/-- What memory holds after a program was loaded. -/
structure Loaded (m : Machine) (program : List UInt8) (cells : Memory) : Prop where
  /-- Below the program area nothing has changed. -/
  below : ∀ a : Address, a.val < 0x200 → cells.read a = m.memory.read a
  /-- The program area has the program from its start on and zeros behind it. -/
  above : ∀ a : Address, 0x200 ≤ a.val → cells.read a = program.getD (a.val - 0x200) 0

section attempts

variable {m : Machine} {program : List UInt8}

/-- An attempt to load a program that is too large. -/
theorem perform_load_of_large (m : Machine) (h : 3584 < program.length) :
    m.perform (.load program) = ⟨m, .loaded (.error (.tooLarge program.length 3584)), []⟩ := by
  have hload : m.load program = .error (.tooLarge program.length 3584) := by
    rw [load, m.memory.load_of_large h]
    rfl
  rw [perform, hload]
  rfl

/-- An attempt to load a program that fits. -/
theorem exists_perform_load (m : Machine) (h : program.length ≤ 3584) :
    ∃ cells, m.Loaded program cells ∧ m.perform (.load program) =
      ⟨m.withProgram cells, .loaded (.ok ()), [.loaded program.length]⟩ := by
  obtain ⟨cells, hload, hbelow, habove⟩ := m.memory.exists_load h
  refine ⟨cells, ⟨hbelow, habove⟩, ?_⟩
  rw [perform, load, hload]
  rfl

/-- It does not matter whether a program comes from a file. -/
theorem perform_of_offers (m : Machine) {operation : Operation}
    (h : operation.offers = some program) : m.perform operation = m.perform (.load program) := by
  cases operation with
  | load other =>
    obtain rfl := Option.some.inj h
    rfl
  | loadFile path content =>
    obtain rfl : content = some program := h
    rfl
  | _ => cases h

/-- What memory holds after a program was loaded is determined. -/
theorem Loaded.unique {cells other : Memory} (h : m.Loaded program cells)
    (hother : m.Loaded program other) : cells = other := by
  refine Memory.eq_of_read_eq fun a => ?_
  by_cases ha : a.val < 0x200
  · rw [h.below a ha, hother.below a ha]
  · have habove := Nat.le_of_not_lt ha
    rw [h.above a habove, hother.above a habove]

/-- A program that is loaded after another one leaves nothing of it. -/
theorem Loaded.of_withProgram {earlier : List UInt8} {between cells : Memory}
    (hearlier : m.Loaded earlier between) (h : (m.withProgram between).Loaded program cells) :
    m.Loaded program cells where
  below := fun a ha => (h.below a ha).trans (hearlier.below a ha)
  above := h.above

/-- An attempt to load something succeeds or leaves the machine as it is. -/
theorem machine_of_attempt (m : Machine) {operation : Operation} (h : operation.loads = true) :
    (∃ program cells, operation.Accepted program ∧ m.Loaded program cells ∧
      (m.perform operation).machine = m.withProgram cells) ∨
    ((∀ program, ¬operation.Accepted program) ∧ (m.perform operation).machine = m) := by
  cases hoffers : operation.offers with
  | none =>
    refine .inr ⟨fun program haccepted => ?_, ?_⟩
    · cases hoffers.symm.trans haccepted.offered
    · cases operation with
      | load program => cases hoffers
      | loadFile path content =>
        obtain rfl : content = none := hoffers
        rfl
      | _ => cases h
  | some program =>
    rw [m.perform_of_offers hoffers]
    by_cases hfits : program.length ≤ 3584
    · obtain ⟨cells, hcells, hload⟩ := m.exists_perform_load hfits
      rw [hload]
      exact .inl ⟨program, cells, ⟨hoffers, hfits⟩, hcells, rfl⟩
    · rw [m.perform_load_of_large (Nat.lt_of_not_le hfits)]
      refine .inr ⟨fun other haccepted => ?_, rfl⟩
      obtain rfl := Option.some.inj (hoffers.symm.trans haccepted.offered)
      exact hfits haccepted.fits

/-- After any attempts an accepted program leaves the machine as if there had been none. -/
theorem machine_load_of_attempts {attempts : List Operation}
    (hloads : ∀ operation ∈ attempts, operation.loads = true) (hfits : program.length ≤ 3584) :
    ((m.performAll attempts).perform (.load program)).machine =
      (m.perform (.load program)).machine := by
  induction attempts generalizing m with
  | nil => rfl
  | cons first rest ih =>
    rw [performAll_cons, ih fun operation hmem => hloads operation (List.mem_cons_of_mem _ hmem)]
    obtain ⟨earlier, between, -, hbetween, hmachine⟩ | ⟨-, hmachine⟩ :=
      m.machine_of_attempt (hloads first List.mem_cons_self)
    · obtain ⟨cells, hcells, hload⟩ := m.exists_perform_load hfits
      obtain ⟨cells', hcells', hload'⟩ := (m.withProgram between).exists_perform_load hfits
      rw [hmachine, hload', hload, (hbetween.of_withProgram hcells').unique hcells]
      rfl
    · rw [hmachine]

/-- Attempts none of which is accepted leave the machine as it is. -/
theorem performAll_of_refused {attempts : List Operation}
    (hloads : ∀ operation ∈ attempts, operation.loads = true)
    (hrefused : ∀ operation ∈ attempts, ∀ program, ¬operation.Accepted program) :
    m.performAll attempts = m := by
  induction attempts with
  | nil => rfl
  | cons first rest ih =>
    obtain ⟨program, -, haccepted, -⟩ | ⟨-, hmachine⟩ :=
      m.machine_of_attempt (hloads first List.mem_cons_self)
    · exact absurd haccepted (hrefused first List.mem_cons_self program)
    · rw [performAll_cons, hmachine]
      exact ih (fun operation hmem => hloads operation (List.mem_cons_of_mem _ hmem))
        fun operation hmem => hrefused operation (List.mem_cons_of_mem _ hmem)

end attempts

/-- What an attempt to load a program does to a machine. -/
structure LoadsWhole (m : Machine) (program : List UInt8) : Prop where
  /-- It fails just if the program has more than 3584 bytes. -/
  fails_iff : (∃ fault, (m.perform (.load program)).answer = .loaded (.error fault)) ↔
    3584 < program.length
  /-- Then the fault tells how many bytes there are and how many there is room for, nothing is
  recorded, and the machine is as it was. -/
  refused : 3584 < program.length →
    m.perform (.load program) = ⟨m, .loaded (.error (.tooLarge program.length 3584)), []⟩
  /-- Otherwise memory holds the program, with zeros behind it and what was there below it; the
  program counter is at its start, and nothing else has changed. The program can be read back. -/
  accepted : program.length ≤ 3584 → ∃ cells, m.Loaded program cells ∧
    m.perform (.load program) =
      ⟨m.withProgram cells, .loaded (.ok ()), [.loaded program.length]⟩ ∧
    cells.readBytes Memory.programStart program.length = program

/-- Of some attempts to load a program only the last one that is accepted counts. -/
structure LoadsLast (m : Machine) (attempts : List Operation) : Prop where
  /-- If none is accepted, the machine is as it was. -/
  none_accepted : (∀ operation ∈ attempts, ∀ program, ¬operation.Accepted program) →
    m.performAll attempts = m
  /-- If none is accepted behind one that is, the machine is as if only its program had been
  loaded. -/
  last_accepted : ∀ earlier last later program, attempts = earlier ++ last :: later →
    last.Accepted program → (∀ operation ∈ later, ∀ other, ¬operation.Accepted other) →
    m.performAll attempts = (m.perform (.load program)).machine

/-- Every attempt to load a program succeeds as a whole or fails as a whole, whatever the machine
and however long the program. After any number of attempts only the last accepted program counts.
A file that can be read is loaded as its content, and one that cannot be read changes nothing. -/
theorem loads_whole_or_not_at_all (m : Machine) :
    (∀ program, m.LoadsWhole program) ∧
    (∀ attempts : List Operation, (∀ operation ∈ attempts, operation.loads = true) →
      m.LoadsLast attempts) ∧
    (∀ path content, m.perform (.loadFile path (some content)) = m.perform (.load content)) ∧
    ∀ path, m.perform (.loadFile path none) = ⟨m, .loaded (.error (.unreadable path)), []⟩ := by
  refine ⟨fun program => ⟨⟨?_, ?_⟩, m.perform_load_of_large, ?_⟩,
    fun attempts hloads => ⟨performAll_of_refused hloads, ?_⟩, fun path content => rfl,
    fun path => rfl⟩
  · rintro ⟨fault, hanswer⟩
    refine Nat.lt_of_not_le fun hfits => ?_
    obtain ⟨cells, -, hload⟩ := m.exists_perform_load hfits
    rw [hload] at hanswer
    cases hanswer
  · intro hlarge
    rw [m.perform_load_of_large hlarge]
    exact ⟨_, rfl⟩
  · intro hfits
    obtain ⟨cells, hcells, hload⟩ := m.exists_perform_load hfits
    exact ⟨cells, hcells, hload, Memory.readBytes_of_load hcells.above hfits⟩
  · rintro earlier last later program rfl haccepted hrefused
    have hearlier : ∀ operation ∈ earlier, operation.loads = true :=
      fun operation hmem => hloads operation (List.mem_append_left _ hmem)
    have hlater : ∀ operation ∈ later, operation.loads = true :=
      fun operation hmem => hloads operation (List.mem_append_right _ (List.mem_cons_of_mem _ hmem))
    rw [performAll_append, performAll_cons, performAll_of_refused hlater hrefused,
      perform_of_offers _ haccepted.offered, machine_load_of_attempts hearlier haccepted.fits]

/-- A program that is longer, one that counts, one that is too large, and a file that cannot be
read. -/
def fourAttempts : List Operation :=
  [.load [0x60, 0x01, 0x61, 0x02], .loadFile "second" (some [0x12, 0x00]),
    .load (.replicate 3585 0xFF), .loadFile "third" none]

/-- Only the second program counts. -/
theorem performAll_fourAttempts :
    (∀ operation ∈ fourAttempts, operation.loads = true) ∧
      (create .modern (.ofSeed 0)).performAll fourAttempts =
        ((create .modern (.ofSeed 0)).perform (.load [0x12, 0x00])).machine := by
  have hloads : ∀ operation ∈ fourAttempts, operation.loads = true := by decide
  refine ⟨hloads, ?_⟩
  have hlast :=
    ((loads_whole_or_not_at_all (create .modern (.ofSeed 0))).2.1 fourAttempts hloads).last_accepted
  refine hlast [.load [0x60, 0x01, 0x61, 0x02]] (.loadFile "second" (some [0x12, 0x00]))
    [.load (.replicate 3585 0xFF), .loadFile "third" none] [0x12, 0x00] rfl
    ⟨rfl, by decide⟩ fun operation hmem other haccepted => ?_
  obtain rfl | hmem := List.mem_cons.1 hmem
  · obtain rfl := Option.some.inj haccepted.offered
    have hfits := haccepted.fits
    rw [List.length_replicate] at hfits
    exact absurd hfits (by decide)
  · obtain rfl := List.mem_singleton.1 hmem
    cases haccepted.offered

end Machine

end ChipEight
