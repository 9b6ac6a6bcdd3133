import ChipEight.Machine.Basic

/-!
# Parts of a machine in plain words

The types of a machine settle what would have to be checked if its state were kept in bytes,
16-bit words and arrays: that an index is in bounds, that a digit is below sixteen, that a
counter does not overflow. Here the parts of a machine are kept like that, and every check is
made: an operation answers `none` if one fails. Each definition is followed by the law that it
does on the plain form of a part what the machine does, so that none of its checks fails there.
-/

namespace ChipEight

namespace Address

/-- The word of an address has its value. -/
theorem toNat_toWord (a : Address) : a.toWord.toNat = a.val := by
  have hlt := a.isLt
  rw [toWord, UInt16.toNat_ofNat']
  omega

/-- The low twelve bits of a word are the address that it names. -/
theorem toNat_mask (word : UInt16) : (word &&& 0x0FFF).toNat = (ofWord word).val := by
  rw [UInt16.toNat_and]
  exact Nat.and_two_pow_sub_one_eq_mod word.toNat 12

/-- Masking a word leaves the word of the address that it names. -/
theorem toWord_ofWord (word : UInt16) : (ofWord word).toWord = word &&& 0x0FFF :=
  UInt16.toNat_inj.1 (by rw [toNat_toWord, toNat_mask])

/-- Adding to a word goes forward from the address that it names. -/
theorem ofWord_add (word : UInt16) (count : Nat) :
    ofWord (word + .ofNat count) = (ofWord word).forward count := by
  apply Fin.ext
  simp only [ofWord, forward, UInt16.toNat_add, UInt16.toNat_ofNat']
  omega

end Address

/-- The byte of a digit has its value. -/
theorem Nibble.toNat_toByte (n : Nibble) : n.toByte.toNat = n.val := by
  have hlt := n.isLt
  rw [toByte, UInt8.toNat_ofNat']
  omega

namespace Plain

section checks

variable {α β : Type} {n : Nat}

/-- A condition that has to hold. -/
def require (condition : Prop) [Decidable condition] : Option Unit :=
  if condition then some () else none

/-- A number that has to stay below a bound. -/
def bounded (bound number : Nat) : Option Nat := if number < bound then some number else none

/-- A digit, which has to be at most fifteen. -/
def digit (value : UInt8) : Option UInt8 := if value ≤ 0x0F then some value else none

/-- Stores an element at an index, which has to be in bounds. -/
def store (elements : Vector α n) (index : Nat) (value : α) : Option (Vector α n) :=
  if h : index < n then some (elements.set index value h) else none

/-- Splits a list at an index, which has to be in bounds. -/
def splitAt (list : List α) (index : Nat) : Option (List α × List α) :=
  if index ≤ list.length then some (list.take index, list.drop index) else none

/-- The elements of a list as an array, whose size they have to have. -/
def ofList (list : List α) : Option (Vector α n) :=
  if h : list.length = n then some ⟨list.toArray, h⟩ else none

/-- A condition that holds passes. -/
theorem require_of {condition : Prop} [Decidable condition] (h : condition) :
    require condition = some () := if_pos h

/-- A number below the bound passes. -/
theorem bounded_of_lt {bound number : Nat} (h : number < bound) :
    bounded bound number = some number := if_pos h

/-- A digit is at most fifteen. -/
theorem toByte_le (x : Nibble) : x.toByte ≤ 0x0F := by
  rw [UInt8.le_iff_toNat_le, x.toNat_toByte]
  exact Nat.le_of_lt_succ x.isLt

/-- The byte of a digit passes. -/
theorem digit_toByte (x : Nibble) : digit x.toByte = some x.toByte := if_pos (toByte_le x)

/-- A store in bounds happens. -/
theorem store_of_lt (elements : Vector α n) {index : Nat} (value : α) (h : index < n) :
    store elements index value = some (elements.set index value h) := dif_pos h

/-- A split in bounds happens. -/
theorem splitAt_of_le {list : List α} {index : Nat} (h : index ≤ list.length) :
    splitAt list index = some (list.take index, list.drop index) := if_pos h

/-- A list of the right size is an array. -/
theorem ofList_of_length {list : List α} (h : list.length = n) :
    ofList list = some ⟨list.toArray, h⟩ := dif_pos h

/-- A table is read at the byte of a digit. -/
theorem getElem?_digit (t : NibbleTable α) (x : Nibble) :
    t.values[x.toByte.toNat]? = some (t.get x) := by
  have hlt : x.toByte.toNat < 16 := by
    rw [x.toNat_toByte]
    exact x.isLt
  rw [Vector.getElem?_eq_getElem hlt, NibbleTable.get]
  simp only [x.toNat_toByte, Fin.getElem_fin]

/-- A table is written at the byte of a digit. -/
theorem store_digit (t : NibbleTable α) (x : Nibble) (value : α) :
    store t.values x.toByte.toNat value = some (t.set x value).values := by
  have hlt : x.toByte.toNat < 16 := by
    rw [x.toNat_toByte]
    exact x.isLt
  rw [store_of_lt _ _ hlt, NibbleTable.set]
  simp only [x.toNat_toByte]

/-- A loop over a list that never fails. -/
theorem mapM_eq_some {f : α → Option β} {g : α → β} {list : List α}
    (h : ∀ a ∈ list, f a = some (g a)) : list.mapM f = some (list.map g) := by
  induction list with
  | nil => rfl
  | cons first rest ih =>
    have hrest := ih fun a ha => h a (List.mem_cons_of_mem first ha)
    rw [List.mapM_cons, h first List.mem_cons_self, hrest]
    rfl

end checks

section memory

variable (cells : Vector UInt8 4096)

/-- The byte at the address that a word names. -/
def read (word : UInt16) : Option UInt8 := cells[(word &&& 0x0FFF).toNat]?

/-- Stores a byte at the address that a word names. -/
def write (word : UInt16) (value : UInt8) : Option (Vector UInt8 4096) :=
  store cells (word &&& 0x0FFF).toNat value

/-- The 16-bit word at an address, high byte first. -/
def readWord (word : UInt16) : Option UInt16 := do
  let high ← read cells word
  let low ← read cells (word + 1)
  some (high.toUInt16 <<< 8 ||| low.toUInt16)

/-- The bytes from an address on, as many as asked for. -/
def readBytes (word : UInt16) (count : Nat) : Option (List UInt8) :=
  (List.range count).mapM fun k => read cells (word + .ofNat k)

/-- Copies bytes to the cells from an index on. -/
def copy (cells : Vector UInt8 4096) (index : Nat) : List UInt8 → Option (Vector UInt8 4096)
  | [] => some cells
  | byte :: rest => do copy (← store cells index byte) (index + 1) rest

/-- Memory with nothing but the font in it. -/
def initialCells : Option (Vector UInt8 4096) := copy (.replicate 4096 0) 0x50 Font.bytes.toList

/-- Puts a program into the program area and clears what it leaves free. A program that is too
large is refused. -/
def load (program : List UInt8) : Option (Except LoadFault (Vector UInt8 4096)) :=
  if 3584 < program.length then some (.error (.tooLarge program.length 3584))
  else do
    let (kept, area) ← splitAt cells.toList 0x200
    let (place, rest) ← splitAt area program.length
    require (place.length = program.length)
    let image ← ofList (kept ++ program ++ .replicate rest.length 0)
    some (.ok image)

end memory

section memory

variable (m : Memory)

/-- Reading agrees. -/
theorem read_cells (word : UInt16) : read m.cells word = some (m.read (.ofWord word)) := by
  rw [read, Address.toNat_mask, Vector.getElem?_eq_getElem (Address.ofWord word).isLt]
  rfl

/-- Writing agrees. -/
theorem write_cells (word : UInt16) (value : UInt8) :
    write m.cells word value = some (m.write (.ofWord word) value).cells := by
  rw [write, Address.toNat_mask, store_of_lt _ _ (Address.ofWord word).isLt]
  rfl

/-- Reading words agrees. -/
theorem readWord_cells (word : UInt16) :
    readWord m.cells word = some (m.readWord (.ofWord word)) := by
  have hnext : Address.ofWord (word + 1) = (Address.ofWord word).forward 1 :=
    Address.ofWord_add word 1
  rw [readWord, read_cells, read_cells, hnext]
  rfl

/-- Reading many bytes agrees. -/
theorem readBytes_cells (word : UInt16) (count : Nat) :
    readBytes m.cells word count = some (m.readBytes (.ofWord word) count) := by
  refine mapM_eq_some fun k _ => ?_
  rw [read_cells, Address.ofWord_add]

/-- Copying agrees with storing the bytes one behind the other, as long as they fit. -/
theorem copy_cells {a : Address} {bytes : List UInt8} (h : a.val + bytes.length ≤ 4096) :
    copy m.cells a.val bytes = some (m.writeBytes a bytes).cells := by
  induction bytes generalizing m a with
  | nil => rfl
  | cons byte rest ih =>
    rw [List.length_cons] at h
    rw [copy, store_of_lt _ _ a.isLt]
    cases rest with
    | nil => rfl
    | cons next others =>
      rw [List.length_cons] at h
      have hforward : (a.forward 1).val = a.val + 1 := Nat.mod_eq_of_lt (by omega)
      have hfits : (a.forward 1).val + (next :: others).length ≤ 4096 := by
        rw [hforward, List.length_cons]
        omega
      have hrest := ih (m.write a byte) hfits
      rw [hforward] at hrest
      exact hrest

/-- The font is copied. -/
theorem initialCells_eq : initialCells = some Memory.initial.cells :=
  copy_cells Memory.cleared (a := Font.glyphAddress (.ofNat 0)) (by decide)

/-- Loading agrees. -/
theorem load_cells (program : List UInt8) :
    load m.cells program = some ((m.load program).map Memory.cells) := by
  by_cases hlarge : 3584 < program.length
  · have hroom : ¬program.length ≤ Memory.programRoom := Nat.not_le_of_lt hlarge
    rw [load, if_pos hlarge, Memory.load, dif_neg hroom]
    rfl
  · have hroom : program.length ≤ Memory.programRoom := Nat.le_of_not_lt hlarge
    have hstart : 0x200 ≤ m.cells.toList.length := by
      rw [Vector.length_toList]
      decide
    have harea : (m.cells.toList.drop 0x200).length = 3584 := by
      rw [List.length_drop, Vector.length_toList]
    have hplace : ((m.cells.toList.drop 0x200).take program.length).length = program.length := by
      rw [List.length_take, harea]
      omega
    have hrest : ((m.cells.toList.drop 0x200).drop program.length).length =
        Memory.programRoom - program.length := by
      rw [List.length_drop, harea]
      rfl
    have himage : m.cells.toList.take 0x200 ++ program ++
        List.replicate (Memory.programRoom - program.length) 0 = m.image program := rfl
    rw [load, if_neg hlarge, splitAt_of_le hstart, Memory.load, dif_pos hroom]
    simp only [Option.bind_eq_bind, Option.bind_some]
    rw [splitAt_of_le (by omega)]
    simp only [Option.bind_some]
    rw [require_of hplace, hrest]
    simp only [Option.bind_some]
    rw [himage, ofList_of_length (m.length_image hroom)]
    rfl

end memory

/-- The registers: sixteen bytes, the index register and the program counter. -/
structure Registers where
  /-- The sixteen byte registers. -/
  v : Vector UInt8 16
  /-- The index register. -/
  i : UInt16
  /-- The program counter. -/
  pc : UInt16

namespace Registers

variable (r : Registers)

/-- The byte in a register. -/
def get (x : UInt8) : Option UInt8 := r.v[x.toNat]?

/-- Stores a byte in a register. -/
def set (x value : UInt8) : Option Registers := do
  let v ← store r.v x.toNat value
  some { r with v }

/-- Points the index register at the address that a word names. -/
def setIndex (word : UInt16) : Registers := { r with i := word &&& 0x0FFF }

/-- Continues at the address that a word names. -/
def setCounter (word : UInt16) : Registers := { r with pc := word &&& 0x0FFF }

/-- Moves the program counter past one instruction. -/
def advance : Registers := r.setCounter (r.pc + 2)

/-- Tells in the flag register whether a condition is met. -/
def setFlag (condition : Bool) : Option Registers := r.set 0xF (flagByte condition)

end Registers

/-- The plain form of registers. -/
def ofRegisters (r : ChipEight.Registers) : Registers := ⟨r.v.values, r.i.toWord, r.pc.toWord⟩

section registers

variable (r : ChipEight.Registers)

/-- Reading a register agrees. -/
theorem get_ofRegisters (x : Nibble) : (ofRegisters r).get x.toByte = some (r.get x) :=
  getElem?_digit r.v x

/-- Writing a register agrees. -/
theorem set_ofRegisters (x : Nibble) (value : UInt8) :
    (ofRegisters r).set x.toByte value = some (ofRegisters (r.set x value)) := by
  rw [Registers.set, ofRegisters, store_digit]
  rfl

/-- Writing the index register agrees. -/
theorem setIndex_ofRegisters (word : UInt16) :
    (ofRegisters r).setIndex word = ofRegisters (r.setIndex word) := by
  rw [Registers.setIndex, ← Address.toWord_ofWord]
  rfl

/-- Writing the program counter agrees. -/
theorem setCounter_ofRegisters (word : UInt16) :
    (ofRegisters r).setCounter word = ofRegisters (r.setCounter word) := by
  rw [Registers.setCounter, ← Address.toWord_ofWord]
  rfl

/-- Moving on agrees. -/
theorem advance_ofRegisters : (ofRegisters r).advance = ofRegisters r.advance := by
  have hnext : Address.ofWord (r.pc.toWord + 2) = r.pc.forward 2 := by
    have h := Address.ofWord_add r.pc.toWord 2
    rw [Address.ofWord_toWord] at h
    exact h
  rw [Registers.advance, setCounter_ofRegisters, ChipEight.Registers.setCounter]
  change ofRegisters { r with pc := Address.ofWord (r.pc.toWord + 2) } = _
  rw [hnext]
  rfl

/-- Writing the flag agrees. -/
theorem setFlag_ofRegisters (condition : Bool) :
    (ofRegisters r).setFlag condition = some (ofRegisters (r.setFlag condition)) :=
  set_ofRegisters r ChipEight.Registers.flag (flagByte condition)

end registers

/-- The stack of return addresses. -/
structure CallStack where
  /-- The slots, the oldest address first. -/
  entries : Vector UInt16 16
  /-- Number of slots in use. -/
  sp : UInt8

namespace CallStack

variable (s : CallStack)

/-- Puts an address on top; a full stack takes none. -/
def push (word : UInt16) : Option (Option CallStack) :=
  if s.entries[s.sp.toNat]?.isSome then do
    let entries ← store s.entries s.sp.toNat word
    let sp ← bounded 0x100 (s.sp.toNat + 1)
    some (some ⟨entries, .ofNat sp⟩)
  else some none

/-- Takes the newest address off; an empty stack has none. -/
def pop : Option (Option (UInt16 × CallStack)) :=
  if s.sp = 0 then some none
  else do
    let word ← s.entries[(s.sp - 1).toNat]?
    some (some (word, { s with sp := s.sp - 1 }))

end CallStack

/-- The plain form of a stack whose values are kept as words. -/
def ofSlots {α : Type} (word : α → UInt16) (s : BoundedStack α 16) : CallStack :=
  ⟨s.slots.map word, .ofNat s.depth⟩

/-- The plain form of a stack. -/
def ofStack (s : ChipEight.CallStack) : CallStack := ⟨s.slots.map Address.toWord, .ofNat s.depth⟩

section slots

variable {α : Type} (word : α → UInt16) (s : BoundedStack α 16)

/-- The depth survives being kept in a byte. -/
theorem toNat_sp_ofSlots : (ofSlots word s).sp.toNat = s.depth := by
  have hle := s.depth_le
  rw [ofSlots, UInt8.toNat_ofNat']
  omega

/-- The pointer is zero if the stack is empty. -/
theorem sp_ofSlots_eq_zero_iff : (ofSlots word s).sp = 0 ↔ s.depth = 0 := by
  rw [← UInt8.toNat_inj, toNat_sp_ofSlots]
  rfl

/-- Pushing a value agrees with pushing its word. -/
theorem push_ofSlots (value : α) :
    (ofSlots word s).push (word value) = some ((s.push value).map (ofSlots word)) := by
  have hle := s.depth_le
  rw [CallStack.push, toNat_sp_ofSlots, BoundedStack.push]
  by_cases hroom : s.depth < 16
  · have hslot : ((ofSlots word s).entries[s.depth]?).isSome = true := by
      rw [Vector.getElem?_eq_getElem hroom]
      rfl
    rw [if_pos hslot, store_of_lt _ _ hroom, bounded_of_lt (by omega), dif_pos hroom]
    simp only [Option.bind_eq_bind, Option.bind_some, Option.map_some, ofSlots, Vector.map_set]
  · have hslot : ¬((ofSlots word s).entries[s.depth]?).isSome = true := by
      rw [Vector.getElem?_eq_none (by omega)]
      exact Bool.false_ne_true
    rw [if_neg hslot, dif_neg hroom]
    rfl

/-- Popping a value agrees with popping its word. -/
theorem pop_ofSlots : (ofSlots word s).pop =
    some (s.pop.map fun popped => (word popped.1, ofSlots word popped.2)) := by
  have hle := s.depth_le
  have hsp := toNat_sp_ofSlots word s
  rw [CallStack.pop, BoundedStack.pop]
  by_cases hempty : s.depth = 0
  · rw [if_pos ((sp_ofSlots_eq_zero_iff word s).2 hempty), dif_pos hempty]
    rfl
  · have hone : (1 : UInt8) ≤ (ofSlots word s).sp := by
      rw [UInt8.le_iff_toNat_le, hsp]
      exact Nat.one_le_iff_ne_zero.2 hempty
    have hless : ((ofSlots word s).sp - 1).toNat = s.depth - 1 := by
      rw [UInt8.toNat_sub_of_le _ _ hone, hsp]
      rfl
    have hbyte : (ofSlots word s).sp - 1 = .ofNat (s.depth - 1) := by
      apply UInt8.toNat_inj.1
      rw [hless, UInt8.toNat_ofNat']
      omega
    have hlt : s.depth - 1 < 16 := by omega
    rw [if_neg (mt (sp_ofSlots_eq_zero_iff word s).1 hempty), dif_neg hempty, hless,
      Vector.getElem?_eq_getElem hlt, hbyte]
    simp only [Option.bind_eq_bind, Option.bind_some, Option.map_some, ofSlots, Vector.getElem_map]

end slots

section stack

variable (s : ChipEight.CallStack)

/-- The depth survives being kept in a byte. -/
theorem toNat_sp_ofStack : (ofStack s).sp.toNat = s.depth := toNat_sp_ofSlots Address.toWord s

/-- Pushing agrees. -/
theorem push_ofStack (a : Address) :
    (ofStack s).push a.toWord = some ((s.push a).map ofStack) := push_ofSlots Address.toWord s a

/-- Popping agrees. -/
theorem pop_ofStack :
    (ofStack s).pop = some (s.pop.map fun popped => (popped.1.toWord, ofStack popped.2)) :=
  pop_ofSlots Address.toWord s

end stack

/-- The lowest-numbered key held down. -/
def lowest (keys : Vector Bool 16) : Option (Option UInt8) :=
  match keys.toList.findIdx? id with
  | some index => do
    let key ← digit (.ofNat index)
    some (some key)
  | none => some none

/-- Looking for a key agrees. -/
theorem lowest_keys (p : Keypad) : lowest p.keys.values = some (p.lowest?.map Nibble.toByte) := by
  have hlength : p.keys.values.toList.length = 16 := Vector.length_toList
  cases hlowest : p.lowest? with
  | none =>
    have hall := p.lowest?_eq_none_iff.1 hlowest
    have hindex : p.keys.values.toList.findIdx? id = none := by
      refine List.findIdx?_eq_none_iff.2 fun pressed hmem => ?_
      obtain ⟨index, hlt, rfl⟩ := List.mem_iff_getElem.1 hmem
      rw [Vector.getElem_toList]
      exact hall ⟨index, by omega⟩
    rw [lowest, hindex]
    rfl
  | some key =>
    obtain ⟨hheld, hbelow⟩ := (p.lowest?_eq_some_iff key).1 hlowest
    have hlt : key.val < p.keys.values.toList.length := by
      rw [hlength]
      exact key.isLt
    have hindex : p.keys.values.toList.findIdx? id = some key.val := by
      refine List.findIdx?_eq_some_iff_getElem.2 ⟨hlt, ?_, fun j hj => ?_⟩
      · rw [Vector.getElem_toList]
        exact hheld
      · rw [Vector.getElem_toList]
        exact Bool.eq_false_iff.1 (hbelow ⟨j, Nat.lt_trans hj key.isLt⟩ hj)
    have hbyte : UInt8.ofNat key.val = key.toByte := rfl
    rw [lowest, hindex]
    simp only [hbyte, digit_toByte, Option.bind_eq_bind, Option.bind_some, Option.map_some]

end Plain

end ChipEight
