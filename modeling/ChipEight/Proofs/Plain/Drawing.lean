import ChipEight.Proofs.Drawing
import ChipEight.Proofs.Plain.Parts

/-!
# Drawing pixel by pixel

Here the screen is an array of rows of pixels, and a sprite is drawn by going through its rows
and through the bits of each row, flipping one pixel for each set bit. Where the edges clip, the
loops are left early. The machine flips a whole row at once instead; both give the same pixels
and tell alike whether something was erased.
-/

namespace ChipEight

namespace Edges

/-- The column on which bit number `bit` of a sprite row falls, if it falls on the screen. -/
def column? (edges : Edges) (x bit : Nat) : Option Nat :=
  match edges with
  | wrap => some ((x + bit) % 64)
  | clip => if x % 64 + bit < 64 then some (x % 64 + bit) else none

/-- With wrapping edges a bit falls on the column that is reached going round. -/
theorem column?_wrap_iff {x bit px : Nat} :
    wrap.column? x bit = some px ↔ (x + bit) % 64 = px := Option.some_inj

/-- With clipping edges a bit falls on its column or on none. -/
theorem column?_clip_iff {x bit px : Nat} :
    clip.column? x bit = some px ↔ x % 64 + bit = px ∧ px < 64 := by
  unfold column?
  by_cases hlt : x % 64 + bit < 64
  · simp only [if_pos hlt, Option.some_inj]
    omega
  · simp only [if_neg hlt, reduceCtorEq, false_iff]
    omega

/-- A bit is cut off if it lies past the right edge and the edges clip. -/
theorem column?_eq (edges : Edges) (x bit : Nat) :
    edges.column? x bit =
      if edges = clip ∧ 64 ≤ x % 64 + bit then none else some ((x % 64 + bit) % 64) := by
  cases edges with
  | wrap =>
    rw [if_neg fun h => Edges.noConfusion h.1]
    exact column?_wrap_iff.2 (by omega)
  | clip =>
    unfold column?
    by_cases hlt : x % 64 + bit < 64
    · rw [if_pos hlt, if_neg fun h => Nat.not_le_of_lt hlt h.2, Nat.mod_eq_of_lt hlt]
    · rw [if_neg hlt, if_pos ⟨rfl, Nat.le_of_not_lt hlt⟩]

/-- A bit falls on one of the columns of the screen. -/
theorem column?_lt {edges : Edges} {x bit px : Nat} (h : edges.column? x bit = some px) :
    px < 64 := by
  cases edges with
  | wrap =>
    have hpx := column?_wrap_iff.1 h
    omega
  | clip => exact (column?_clip_iff.1 h).2

/-- Different bits of a row fall on different columns. -/
theorem column?_inj {edges : Edges} {x bit other px : Nat} (hbit : bit < 8) (hother : other < 8)
    (h : edges.column? x bit = some px) (h' : edges.column? x other = some px) : bit = other := by
  cases edges with
  | wrap =>
    have hpx := column?_wrap_iff.1 h
    have hpx' := column?_wrap_iff.1 h'
    omega
  | clip =>
    have hpx := column?_clip_iff.1 h
    have hpx' := column?_clip_iff.1 h'
    omega

/-- The row word of a sprite row has a one where a set bit falls. -/
theorem getMsbD_place_iff (edges : Edges) (x : Nat) (bits : UInt8) {px : Nat} (hpx : px < 64) :
    (edges.place x bits).getMsbD px = true ↔
      ∃ bit < 8, bits.toBitVec.getMsbD bit = true ∧ edges.column? x bit = some px := by
  cases edges with
  | wrap =>
    rw [getMsbD_place_wrap x bits ⟨px, hpx⟩]
    constructor
    · intro h
      have hlt : (px + (64 - x % 64)) % 64 < 8 := BitVec.lt_of_getMsbD h
      refine ⟨(px + (64 - x % 64)) % 64, hlt, h, column?_wrap_iff.2 ?_⟩
      omega
    · rintro ⟨bit, hbit, hone, hcolumn⟩
      have hcolumn := column?_wrap_iff.1 hcolumn
      have hsource : (px + (64 - x % 64)) % 64 = bit := by omega
      rw [hsource]
      exact hone
  | clip =>
    have hflush : ∀ i, (bits.toBitVec.setWidth 64 <<< 56).getMsbD i = bits.toBitVec.getMsbD i := by
      intro i
      rw [BitVec.getMsbD_shiftLeft, BitVec.getMsbD_setWidth]
      by_cases hi : i < 8
      · rw [decide_eq_true (by omega), Bool.true_and]
        congr 1
      · rw [BitVec.getMsbD_of_ge _ _ (by omega), BitVec.getMsbD_of_ge _ _ (by omega),
          Bool.and_false]
    simp only [place, BitVec.getMsbD_ushiftRight, hflush, decide_eq_true hpx, Bool.true_and,
      Bool.and_eq_true, Bool.not_eq_true', decide_eq_false_iff_not, column?_clip_iff]
    constructor
    · rintro ⟨hright, hone⟩
      have hlt : px - x % 64 < 8 := BitVec.lt_of_getMsbD hone
      exact ⟨px - x % 64, hlt, hone, by omega, hpx⟩
    · rintro ⟨bit, hbit, hone, hcolumn, -⟩
      have hsource : px - x % 64 = bit := by omega
      rw [hsource]
      exact ⟨by omega, hone⟩

end Edges

namespace Screen

/-- The word with a one in one column. -/
def oneAt (px : Nat) : BitVec 64 := .twoPow 64 (63 - px)

/-- The only one is in that column. -/
theorem getMsbD_oneAt {px : Nat} (h : px < 64) (c : Nat) :
    (oneAt px).getMsbD c = decide (c = px) := by
  rw [oneAt, BitVec.getMsbD_twoPow, decide_eq_true (by omega), Bool.true_and]
  congr 2
  omega

/-- Flipping one row twice is flipping it by both words together. -/
theorem flip_flip (s : Screen) (row : Fin 32) (a b : BitVec 64) :
    ((s.flip row a).screen.flip row b).screen = (s.flip row (a ^^^ b)).screen := by
  simp only [flip, Fin.getElem_fin, Vector.getElem_set_self, Vector.set_set, BitVec.xor_assoc]

/-- Flipping a row by two words without a common one erases what either of them erases. -/
theorem erased_flip_xor (s : Screen) (row : Fin 32) {a b : BitVec 64} (h : a &&& b = 0#64) :
    (s.flip row (a ^^^ b)).erased =
      ((s.flip row a).erased || ((s.flip row a).screen.flip row b).erased) := by
  have hcommon : ∀ px, (a.getMsbD px && b.getMsbD px) = false := by
    intro px
    rw [← BitVec.getMsbD_and, h, BitVec.getMsbD_zero]
  apply Bool.eq_iff_iff.2
  rw [Bool.or_eq_true, erased_flip, erased_flip, erased_flip, ← exists_or]
  refine exists_congr fun px => ?_
  rw [← exists_or]
  refine exists_congr fun py => ?_
  have hpx := hcommon px
  rw [pixel_flip_val, BitVec.getMsbD_xor]
  grind

/-- Flipping a single pixel erases it if it is lit. -/
theorem erased_flip_oneAt (s : Screen) (row : Fin 32) {px : Nat} (hpx : px < 64) :
    (s.flip row (oneAt px)).erased = s.rows[row].getMsbD px := by
  apply Bool.eq_iff_iff.2
  refine bne_iff_ne.trans ((ne_zero_iff_getMsbD _).trans ?_)
  simp only [BitVec.getMsbD_and, getMsbD_oneAt hpx, Bool.and_eq_true, decide_eq_true_eq]
  constructor
  · rintro ⟨c, hlit, hc⟩
    rw [← hc]
    exact hlit
  · intro hlit
    exact ⟨⟨px, hpx⟩, hlit, rfl⟩

/-- Flipping a row by nothing changes nothing. -/
theorem flip_zero (s : Screen) (row : Fin 32) : s.flip row 0#64 = ⟨s, false⟩ := by
  simp [flip]

end Screen

namespace Plain

/-- The pixels of a screen, row by row. -/
abbrev Pixels := Vector (Vector Bool 64) 32

/-- Number of different values of a 64-bit number. -/
def sizeBound : Nat := 0x10000000000000000

/-- Flips a pixel, and answers whether it was lit. -/
def flipPixel (pixels : Pixels) (y x : Nat) : Option (Pixels × Bool) := do
  let row ← pixels[y]?
  let lit ← row[x]?
  let row ← store row x (!lit)
  let pixels ← store pixels y row
  some (pixels, lit)

/-- A bit of a sprite row, counted from the left. The distance of a shift has to be less than
the width of what is shifted. -/
def spriteBit (byte : UInt8) (bit : Nat) : Option Bool := do
  let distance ← bounded 8 bit
  some (byte &&& ((0x80 : UInt8) >>> UInt8.ofNat distance) != 0)

/-- Draws bits of a sprite row, and answers whether a lit pixel went dark. -/
def drawBits (edges : Edges) (x y : Nat) (byte : UInt8) :
    List Nat → Pixels → Bool → Option (Pixels × Bool)
  | [], pixels, erased => some (pixels, erased)
  | bit :: rest, pixels, erased => do
    let set ← spriteBit byte bit
    if set then
      let px ← bounded sizeBound (x + bit)
      if edges = .clip ∧ 64 ≤ px then some (pixels, erased)
      else
        let (pixels, lit) ← flipPixel pixels (y % 32) (px % 64)
        drawBits edges x y byte rest pixels (erased || lit)
    else drawBits edges x y byte rest pixels erased

/-- Draws rows of a sprite from row number `row` on. -/
def drawRows (edges : Edges) (x y : Nat) :
    Nat → List UInt8 → Pixels → Bool → Option (Pixels × Bool)
  | _, [], pixels, erased => some (pixels, erased)
  | row, byte :: rest, pixels, erased => do
    let py ← bounded sizeBound (y + row)
    if edges = .clip ∧ 32 ≤ py then some (pixels, erased)
    else
      let (pixels, erased) ← drawBits edges x py byte (List.range 8) pixels erased
      drawRows edges x y (row + 1) rest pixels erased

/-- Draws a sprite, and answers whether a lit pixel went dark. -/
def draw (pixels : Pixels) (edges : Edges) (x y : Nat) (sprite : List UInt8) :
    Option (Pixels × Bool) :=
  drawRows edges (x % 64) (y % 32) 0 sprite pixels false

/-- The pixels of a row word. -/
def ofRow (row : BitVec 64) : Vector Bool 64 := .ofFn fun px => row.getMsbD px.val

/-- The pixels of a screen. -/
def ofScreen (s : Screen) : Pixels := s.rows.map ofRow

/-- The pixels of a row after one of them was flipped. -/
theorem ofRow_xor_oneAt (row : BitVec 64) {px : Nat} (hpx : px < 64) :
    ofRow (row ^^^ Screen.oneAt px) = (ofRow row).set px (!row.getMsbD px) := by
  apply Vector.ext
  intro c hc
  rw [Vector.getElem_set, ofRow, ofRow, Vector.getElem_ofFn, Vector.getElem_ofFn,
    BitVec.getMsbD_xor, Screen.getMsbD_oneAt hpx]
  by_cases hsame : px = c
  · subst hsame
    rw [decide_eq_true rfl, Bool.xor_true, if_pos rfl]
  · rw [decide_eq_false (Ne.symm hsame), Bool.xor_false, if_neg hsame]

/-- Flipping a pixel flips the row by a word with a single one. -/
theorem flipPixel_ofScreen (s : Screen) (y : Nat) {px : Nat} (hpx : px < 64) :
    flipPixel (ofScreen s) (y % 32) px =
      some (ofScreen (s.flip (Screen.rowAt y) (Screen.oneAt px)).screen,
        (s.flip (Screen.rowAt y) (Screen.oneAt px)).erased) := by
  have hy : y % 32 < 32 := Nat.mod_lt y (by decide)
  have hrow : (ofScreen s)[y % 32]? = some (ofRow s.rows[y % 32]) := by
    rw [Vector.getElem?_eq_getElem hy, ofScreen, Vector.getElem_map]
  have hlit : (ofRow s.rows[y % 32])[px]? = some (s.rows[y % 32].getMsbD px) := by
    rw [Vector.getElem?_eq_getElem hpx, ofRow, Vector.getElem_ofFn]
  have herased : (s.flip (Screen.rowAt y) (Screen.oneAt px)).erased =
      s.rows[y % 32].getMsbD px := s.erased_flip_oneAt (Screen.rowAt y) hpx
  rw [flipPixel, hrow]
  simp only [Option.bind_eq_bind, Option.bind_some, hlit]
  rw [store_of_lt _ _ hpx, ← ofRow_xor_oneAt _ hpx]
  simp only [Option.bind_some]
  rw [store_of_lt _ _ hy, herased]
  simp only [Option.bind_some, ofScreen, Screen.flip, Screen.rowAt, Vector.map_set,
    Fin.getElem_fin]

/-- The mask of a bit is a power of two. -/
theorem bitMask_eq : ∀ bit : Fin 8,
    ((0x80 : UInt8) >>> UInt8.ofNat bit.val).toBitVec = .twoPow 8 (7 - bit.val) ∧
      BitVec.twoPow 8 (7 - bit.val) ≠ 0#8 := by
  decide

/-- A bit of a sprite row. -/
theorem spriteBit_eq (byte : UInt8) {bit : Nat} (h : bit < 8) :
    spriteBit byte bit = some (byte.toBitVec.getMsbD bit) := by
  obtain ⟨hmask, hne⟩ := bitMask_eq ⟨bit, h⟩
  rw [spriteBit, bounded_of_lt h]
  refine congrArg some (Bool.eq_iff_iff.2 ?_)
  rw [bne_iff_ne, ne_eq, ← UInt8.toBitVec_inj, UInt8.toBitVec_and, hmask, BitVec.and_twoPow,
    BitVec.getMsbD_eq_getLsbD, decide_eq_true h, Bool.true_and]
  split
  · next hset => exact iff_of_true hne hset
  · next hset => exact iff_of_false (not_not_intro rfl) hset

/-- The bits of a sprite row from one on. -/
def bitsFrom (byte : UInt8) (first : Nat) : UInt8 :=
  ⟨byte.toBitVec &&& (BitVec.allOnes 8 >>> first)⟩

/-- A bit is kept if it is not before the first one. -/
theorem getMsbD_bitsFrom (byte : UInt8) (first bit : Nat) :
    (bitsFrom byte first).toBitVec.getMsbD bit =
      (byte.toBitVec.getMsbD bit && decide (first ≤ bit)) := by
  rw [bitsFrom, BitVec.getMsbD_and, BitVec.getMsbD_ushiftRight, BitVec.getMsbD_allOnes]
  by_cases hbit : bit < 8
  · rw [decide_eq_true hbit, Bool.true_and]
    by_cases hfirst : bit < first
    · rw [decide_eq_true hfirst, decide_eq_false (show ¬first ≤ bit by omega)]
      rfl
    · rw [decide_eq_false hfirst, decide_eq_true (show first ≤ bit by omega),
        decide_eq_true (show bit - first < 8 by omega)]
      rfl
  · rw [BitVec.getMsbD_of_ge _ _ (Nat.le_of_not_lt hbit), Bool.false_and, Bool.false_and]

section place

variable {edges : Edges} {x : Nat} {byte : UInt8} {first : Nat}

/-- Where the bits from one on fall. -/
theorem getMsbD_place_bitsFrom_iff {px : Nat} (hpx : px < 64) :
    (edges.place x (bitsFrom byte first)).getMsbD px = true ↔
      ∃ bit < 8, (byte.toBitVec.getMsbD bit = true ∧ first ≤ bit) ∧
        edges.column? x bit = some px := by
  simp only [edges.getMsbD_place_iff x _ hpx, getMsbD_bitsFrom, Bool.and_eq_true,
    decide_eq_true_eq]

/-- If no bit from one on falls on the screen, there is nothing to flip. -/
theorem place_bitsFrom_eq_zero (h : ∀ bit < 8, first ≤ bit → edges.column? x bit = none) :
    edges.place x (bitsFrom byte first) = 0#64 := by
  refine BitVec.eq_of_getMsbD_eq fun px hpx => ?_
  rw [BitVec.getMsbD_zero, Bool.eq_false_iff]
  intro hone
  obtain ⟨bit, hbit, ⟨-, hfirst⟩, hcolumn⟩ := (getMsbD_place_bitsFrom_iff hpx).1 hone
  rw [h bit hbit hfirst] at hcolumn
  cases hcolumn

/-- A bit that is not set adds nothing. -/
theorem place_bitsFrom_of_clear (hclear : byte.toBitVec.getMsbD first = false) :
    edges.place x (bitsFrom byte first) = edges.place x (bitsFrom byte (first + 1)) := by
  refine BitVec.eq_of_getMsbD_eq fun px hpx => Bool.eq_iff_iff.2 ?_
  rw [getMsbD_place_bitsFrom_iff hpx, getMsbD_place_bitsFrom_iff hpx]
  refine exists_congr fun bit => and_congr_right fun _ => and_congr_left fun _ => ?_
  refine and_congr_right fun hset => ⟨fun hle => ?_, Nat.le_of_succ_le⟩
  refine Nat.lt_of_le_of_ne hle fun heq => ?_
  rw [heq, hset] at hclear
  cases hclear

/-- The bits behind one do not fall where it falls. -/
theorem place_bitsFrom_succ_apart {column : Nat} (hfirst : first < 8)
    (h : edges.column? x first = some column) :
    (edges.place x (bitsFrom byte (first + 1))).getMsbD column = false := by
  rw [Bool.eq_false_iff]
  intro hone
  obtain ⟨bit, hbit, ⟨-, hlater⟩, hcolumn⟩ :=
    (getMsbD_place_bitsFrom_iff (Edges.column?_lt h)).1 hone
  have hsame := Edges.column?_inj hfirst hbit h hcolumn
  omega

/-- A set bit adds the column where it falls. -/
theorem place_bitsFrom_of_set {column : Nat} (hfirst : first < 8)
    (hset : byte.toBitVec.getMsbD first = true) (h : edges.column? x first = some column) :
    edges.place x (bitsFrom byte first) =
      Screen.oneAt column ^^^ edges.place x (bitsFrom byte (first + 1)) := by
  have hapart : (edges.place x (bitsFrom byte (first + 1))).getMsbD column = false :=
    place_bitsFrom_succ_apart hfirst h
  refine BitVec.eq_of_getMsbD_eq fun px hpx => ?_
  rw [BitVec.getMsbD_xor, Screen.getMsbD_oneAt (Edges.column?_lt h)]
  by_cases hcolumn : px = column
  · subst hcolumn
    rw [hapart, decide_eq_true rfl, Bool.xor_false]
    exact (getMsbD_place_bitsFrom_iff hpx).2 ⟨first, hfirst, ⟨hset, Nat.le_refl first⟩, h⟩
  · rw [decide_eq_false hcolumn, Bool.false_xor]
    apply Bool.eq_iff_iff.2
    rw [getMsbD_place_bitsFrom_iff hpx, getMsbD_place_bitsFrom_iff hpx]
    refine exists_congr fun bit => and_congr_right fun _ => and_congr_left fun hbit => ?_
    refine and_congr_right fun _ => ⟨fun hle => ?_, Nat.le_of_succ_le⟩
    refine Nat.lt_of_le_of_ne hle fun heq => ?_
    rw [← heq, h] at hbit
    exact hcolumn (Option.some.inj hbit).symm

end place

/-- Drawing the bits of a row flips a row of the screen. -/
theorem drawBits_ofScreen (edges : Edges) (x y : Nat) (byte : UInt8) (s : Screen) (erased : Bool)
    {first count : Nat} (h : first + count = 8) :
    drawBits edges (x % 64) y byte (List.range' first count) (ofScreen s) erased =
      some (ofScreen (s.flip (Screen.rowAt y) (edges.place x (bitsFrom byte first))).screen,
        erased || (s.flip (Screen.rowAt y) (edges.place x (bitsFrom byte first))).erased) := by
  induction count generalizing first s erased with
  | zero =>
    have hnone : edges.place x (bitsFrom byte first) = 0#64 :=
      place_bitsFrom_eq_zero fun bit hbit hle => by omega
    rw [hnone, Screen.flip_zero, Bool.or_false]
    rfl
  | succ count ih =>
    have hfirst : first < 8 := by omega
    rw [List.range'_succ, drawBits, spriteBit_eq byte hfirst]
    simp only [Option.bind_eq_bind, Option.bind_some]
    cases hset : byte.toBitVec.getMsbD first with
    | false =>
      rw [if_neg Bool.false_ne_true, place_bitsFrom_of_clear hset]
      exact ih s erased (by omega)
    | true =>
      rw [if_pos rfl, bounded_of_lt (by unfold sizeBound; omega)]
      simp only [Option.bind_some]
      by_cases hcut : edges = .clip ∧ 64 ≤ x % 64 + first
      · have hnone : edges.place x (bitsFrom byte first) = 0#64 := by
          refine place_bitsFrom_eq_zero fun bit _ hle => ?_
          rw [Edges.column?_eq, if_pos ⟨hcut.1, by omega⟩]
        rw [if_pos hcut, hnone, Screen.flip_zero, Bool.or_false]
      · have hcolumn : edges.column? x first = some ((x % 64 + first) % 64) := by
          rw [Edges.column?_eq, if_neg hcut]
        have hapart : Screen.oneAt ((x % 64 + first) % 64) &&&
            edges.place x (bitsFrom byte (first + 1)) = 0#64 := by
          refine BitVec.eq_of_getMsbD_eq fun px _ => ?_
          rw [BitVec.getMsbD_and, Screen.getMsbD_oneAt (Edges.column?_lt hcolumn),
            BitVec.getMsbD_zero]
          by_cases hpx : px = (x % 64 + first) % 64
          · rw [hpx, place_bitsFrom_succ_apart hfirst hcolumn, Bool.and_false]
          · rw [decide_eq_false hpx, Bool.false_and]
        rw [if_neg hcut, flipPixel_ofScreen s y (Edges.column?_lt hcolumn),
          place_bitsFrom_of_set hfirst hset hcolumn, Screen.erased_flip_xor _ _ hapart,
          ← Screen.flip_flip, ← Bool.or_assoc]
        exact ih _ _ (by omega)

/-- Drawing all bits of a row flips a row of the screen. -/
theorem drawBits_ofScreen_all (edges : Edges) (x y : Nat) (byte : UInt8) (s : Screen)
    (erased : Bool) :
    drawBits edges (x % 64) y byte (List.range 8) (ofScreen s) erased =
      some (ofScreen (s.flip (Screen.rowAt y) (edges.place x byte)).screen,
        erased || (s.flip (Screen.rowAt y) (edges.place x byte)).erased) := by
  have hall : bitsFrom byte 0 = byte := by
    refine UInt8.toBitVec_inj.1 (BitVec.eq_of_getMsbD_eq fun bit _ => ?_)
    rw [getMsbD_bitsFrom, decide_eq_true (Nat.zero_le bit), Bool.and_true]
  have hrow := drawBits_ofScreen edges x y byte s erased (show 0 + 8 = 8 from rfl)
  rw [hall] at hrow
  rw [List.range_eq_range']
  exact hrow

/-- The rows of a sprite that are drawn from row number `row` on. -/
def rowsFrom (edges : Edges) (y row : Nat) (sprite : List UInt8) : List UInt8 :=
  match edges with
  | .wrap => sprite
  | .clip => sprite.take (32 - (y % 32 + row))

/-- Drawing rows flips them one after the other. -/
theorem drawRows_ofScreen (edges : Edges) (x y : Nat) (sprite : List UInt8) (s : Screen)
    (erased : Bool) {row : Nat} (h : 32 + row + sprite.length ≤ sizeBound) :
    drawRows edges (x % 64) (y % 32) row sprite (ofScreen s) erased =
      some (ofScreen (Screen.flipRows edges x (y + row) (rowsFrom edges y row sprite) s).screen,
        erased || (Screen.flipRows edges x (y + row) (rowsFrom edges y row sprite) s).erased) := by
  induction sprite generalizing row s erased with
  | nil =>
    have hnone : rowsFrom edges y row [] = [] := by
      cases edges with
      | wrap => rfl
      | clip => exact List.take_nil
    rw [hnone, Screen.flipRows, Bool.or_false]
    rfl
  | cons byte rest ih =>
    rw [List.length_cons] at h
    rw [drawRows, bounded_of_lt (by omega)]
    simp only [Option.bind_eq_bind, Option.bind_some]
    by_cases hcut : edges = .clip ∧ 32 ≤ y % 32 + row
    · obtain ⟨rfl, hbelow⟩ := hcut
      have hnone : rowsFrom .clip y row (byte :: rest) = [] := by
        rw [rowsFrom, Nat.sub_eq_zero_of_le hbelow, List.take_zero]
      rw [if_pos ⟨rfl, hbelow⟩, hnone, Screen.flipRows, Bool.or_false]
    · have hrows : rowsFrom edges y row (byte :: rest) =
          byte :: rowsFrom edges y (row + 1) rest := by
        cases edges with
        | wrap => rfl
        | clip =>
          have hinside : y % 32 + row < 32 := Nat.lt_of_not_le fun hle => hcut ⟨rfl, hle⟩
          have hcount : 32 - (y % 32 + row) = 32 - (y % 32 + (row + 1)) + 1 := by omega
          rw [rowsFrom, hcount, List.take_succ_cons]
          rfl
      have hplace : Screen.rowAt (y % 32 + row) = Screen.rowAt (y + row) :=
        Fin.ext (Nat.mod_add_mod y 32 row)
      rw [if_neg hcut, drawBits_ofScreen_all, hplace]
      simp only [Option.bind_some]
      rw [ih _ _ (by omega), hrows, Screen.flipRows, Bool.or_assoc, Nat.add_assoc]

/-- Drawing agrees, as long as the number of rows is far from overflowing. -/
theorem draw_ofScreen (s : Screen) (edges : Edges) (x y : Nat) {sprite : List UInt8}
    (h : 32 + sprite.length ≤ sizeBound) :
    draw (ofScreen s) edges x y sprite =
      some (ofScreen (s.draw edges x y sprite).screen, (s.draw edges x y sprite).erased) := by
  have hvisible : rowsFrom edges y 0 sprite = edges.visible y sprite := by
    cases edges <;> rfl
  rw [draw, drawRows_ofScreen edges x y sprite s false h, hvisible, Bool.false_or]
  rfl

end Plain

end ChipEight
