import ChipEight.Screen
import Mathlib.Algebra.BigOperators.Fin
import Mathlib.Data.Fintype.BigOperators

/-!
# Drawing by counting flips

Drawing flips one row of the screen for each row of the sprite. How often it flips a pixel
depends on the sprite and its place only, not on the screen, and this number settles the
rest: a pixel is toggled if the number is odd, and a lit pixel went dark on the way exactly
if a lit pixel was flipped at all or some pixel was flipped twice. With wrapping edges the
number is that of the set bits of the sprite which fall on the pixel. It can exceed one only
when the sprite is higher than the screen and so covers a part of itself.
-/

namespace ChipEight

namespace Edges

/-- With wrapping edges the bit for a pixel is taken from as many columns into the sprite
row as the pixel lies to the right of its left end, going round. -/
theorem getMsbD_place_wrap (x : Nat) (bits : UInt8) (px : Fin 64) :
    (wrap.place x bits).getMsbD px = bits.toBitVec.getMsbD ((px + (64 - x % 64)) % 64) := by
  have hpx := px.isLt
  have hx : x % 64 < 64 := Nat.mod_lt x (by omega)
  simp only [place, BitVec.getMsbD_rotateRight, hpx, decide_true, Bool.true_and]
  rw [Nat.mod_mod]
  by_cases hleft : px.val < x % 64
  · rw [if_pos hleft, BitVec.getMsbD_shiftLeft, BitVec.getMsbD_setWidth]
    have hround : (64 + px.val - x % 64) % 64 = (px.val + (64 - x % 64)) % 64 := by omega
    rw [hround, decide_eq_true (by omega), Bool.true_and]
    congr 1
  · rw [if_neg hleft, BitVec.getMsbD_shiftLeft, BitVec.getMsbD_setWidth]
    rw [decide_eq_true (by omega), Bool.true_and]
    congr 1
    omega

end Edges

/-- Number of set bits of one row of a sprite that fall on a column when the row starts at
column `x` and wraps at the right edge. -/
def hitsInRow (x : Nat) (bits : UInt8) (px : Fin 64) : Nat :=
  (Finset.univ.filter fun col : Fin 8 =>
    bits.toBitVec.getMsbD col ∧ (x + col) % 64 = px).card

/-- Number of set bits of a sprite that fall on a pixel when its left upper corner is at
column `x` and row `y` and it wraps at the edges. -/
def hits (x y : Nat) (sprite : List UInt8) (px : Fin 64) (py : Fin 32) : Nat :=
  (Finset.univ.filter fun spot : Fin sprite.length × Fin 8 =>
    (sprite.get spot.1).toBitVec.getMsbD spot.2 ∧
      (x + spot.2) % 64 = px ∧ (y + spot.1) % 32 = py).card

/-- At most one bit of a row falls on a column, and it does if the row word has a one there. -/
theorem hitsInRow_eq (x : Nat) (bits : UInt8) (px : Fin 64) :
    hitsInRow x bits px = ((Edges.wrap.place x bits).getMsbD px).toNat := by
  rw [Edges.getMsbD_place_wrap, hitsInRow]
  have hpx := px.isLt
  -- Of all columns of the row, only the one that this bit comes from can fall on the pixel.
  cases hbit : bits.toBitVec.getMsbD ((px + (64 - x % 64)) % 64) with
  | true =>
    have hcol : (px + (64 - x % 64)) % 64 < 8 := BitVec.lt_of_getMsbD hbit
    refine Finset.card_eq_one.2 ⟨⟨(px + (64 - x % 64)) % 64, hcol⟩, ?_⟩
    ext col
    have hlt := col.isLt
    simp only [Finset.mem_filter, Finset.mem_univ, true_and, Finset.mem_singleton, Fin.ext_iff]
    constructor
    · intro h
      omega
    · intro h
      rw [h]
      exact ⟨hbit, by omega⟩
  | false =>
    refine Finset.card_eq_zero.2 (Finset.filter_eq_empty_iff.2 fun col _ h => ?_)
    have hlt := col.isLt
    have hcol : (px + (64 - x % 64)) % 64 = col := by omega
    rw [hcol, h.1] at hbit
    cases hbit

/-- An empty sprite has no bits. -/
theorem hits_nil (x y : Nat) (px : Fin 64) (py : Fin 32) : hits x y [] px py = 0 :=
  Finset.card_eq_zero.2 (Finset.filter_eq_empty_iff.2 fun spot => spot.1.elim0)

/-- The bits of a sprite that fall on a pixel are those of its first row, if the pixel is in
the row of the screen where the sprite starts, and those of the rest one row lower. -/
theorem hits_cons (x y : Nat) (bits : UInt8) (rest : List UInt8) (px : Fin 64) (py : Fin 32) :
    hits x y (bits :: rest) px py =
      (if Screen.rowAt y = py then hitsInRow x bits px else 0) + hits x (y + 1) rest px py := by
  simp only [hits, hitsInRow, Finset.card_filter, Fintype.sum_prod_type]
  refine (Fin.sum_univ_succ _).trans (congrArg₂ HAdd.hAdd ?first ?others)
  case first =>
    by_cases hrow : Screen.rowAt y = py
    · rw [if_pos hrow]
      have hpy : y % 32 = py := congrArg Fin.val hrow
      refine Finset.sum_congr rfl fun col _ => if_congr ?_ rfl rfl
      exact ⟨fun h => ⟨h.1, h.2.1⟩, fun h => ⟨h.1, h.2, hpy⟩⟩
    · rw [if_neg hrow]
      exact Finset.sum_eq_zero fun col _ => if_neg fun h => hrow (Fin.ext h.2.2)
  case others =>
    refine Finset.sum_congr rfl fun row _ => Finset.sum_congr rfl fun col _ => ?_
    have hrow : y + row.succ.val = y + 1 + row.val := by
      rw [Fin.val_succ]
      omega
    rw [hrow]
    rfl

/-- The bits of a sprite no higher than the screen fall on different pixels. -/
theorem hits_le_one {sprite : List UInt8} (hlength : sprite.length ≤ 32) (x y : Nat)
    (px : Fin 64) (py : Fin 32) : hits x y sprite px py ≤ 1 := by
  refine Finset.card_le_one.2 fun first hfirst second hsecond => ?_
  simp only [Finset.mem_filter, Finset.mem_univ, true_and] at hfirst hsecond
  have hrows := first.1.isLt
  have hrows' := second.1.isLt
  have hcols := first.2.isLt
  have hcols' := second.2.isLt
  exact Prod.ext (Fin.ext (by omega)) (Fin.ext (by omega))

/-- A word is not zero if it has a one. -/
theorem ne_zero_iff_getMsbD (word : BitVec 64) :
    word ≠ 0#64 ↔ ∃ px : Fin 64, word.getMsbD px = true := by
  constructor
  · intro hne
    by_contra hnone
    refine hne (BitVec.eq_of_getMsbD_eq fun px hpx => ?_)
    rw [BitVec.getMsbD_zero]
    exact Bool.eq_false_iff.2 fun hone => hnone ⟨⟨px, hpx⟩, hone⟩
  · rintro ⟨px, hone⟩ hzero
    rw [hzero, BitVec.getMsbD_zero] at hone
    cases hone

namespace Screen

/-- A pixel of the screen keeps its row number. -/
theorem rowAt_val (py : Fin 32) : rowAt py = py := Fin.ext (Nat.mod_eq_of_lt py.isLt)

/-- Flipping a row, for pixels that are numbered as they lie on the screen. -/
theorem pixel_flip_val (s : Screen) (row : Fin 32) (bits : BitVec 64) (px : Fin 64)
    (py : Fin 32) :
    (s.flip row bits).screen.pixel px py =
      (s.pixel px py ^^ (decide (row = py) && bits.getMsbD px)) := by
  rw [pixel_flip, rowAt_val, Nat.mod_eq_of_lt px.isLt]

/-- No pixel of the dark screen is lit. -/
theorem pixel_dark (px py : Nat) : dark.pixel px py = false := by
  simp only [dark, pixel, Fin.getElem_fin, Vector.getElem_replicate]
  exact BitVec.getMsbD_zero

/-- How often drawing flips a pixel: once for each row of the sprite that is drawn into the
row of the pixel with a one in its column. -/
def flips (edges : Edges) (x : Nat) (px : Fin 64) (py : Fin 32) : Nat → List UInt8 → Nat
  | _, [] => 0
  | y, bits :: rest =>
    (decide (rowAt y = py) && (edges.place x bits).getMsbD px).toNat +
      flips edges x px py (y + 1) rest

/-- With wrapping edges a pixel is flipped once for each set bit that falls on it. -/
theorem flips_wrap (x y : Nat) (sprite : List UInt8) (px : Fin 64) (py : Fin 32) :
    flips .wrap x px py y sprite = hits x y sprite px py := by
  induction sprite generalizing y with
  | nil => rw [hits_nil, flips]
  | cons bits rest ih =>
    rw [hits_cons, flips, ih, hitsInRow_eq]
    by_cases hrow : rowAt y = py
    · rw [if_pos hrow, decide_eq_true hrow, Bool.true_and]
    · rw [if_neg hrow, decide_eq_false hrow, Bool.false_and, Bool.toNat_false]

/-- Drawing toggles the pixels that it flips an odd number of times. -/
theorem pixel_flipRows (edges : Edges) (x y : Nat) (sprite : List UInt8) (s : Screen)
    (px : Fin 64) (py : Fin 32) :
    (flipRows edges x y sprite s).screen.pixel px py =
      (s.pixel px py ^^ decide (flips edges x px py y sprite % 2 = 1)) := by
  induction sprite generalizing y s with
  | nil => rw [flipRows, flips, decide_eq_false (by omega), Bool.xor_false]
  | cons bits rest ih =>
    rw [flipRows, flips, ih, pixel_flip_val, Bool.xor_assoc]
    congr 1
    cases decide (rowAt y = py) && (edges.place x bits).getMsbD px with
    | false => rw [Bool.false_xor, Bool.toNat_false, Nat.zero_add]
    | true =>
      rw [Bool.true_xor, Bool.toNat_true, ← decide_not]
      exact decide_eq_decide.2 (by omega)

/-- Flipping a row erases if the word has a one at a lit pixel of the row. -/
theorem erased_flip (s : Screen) (row : Fin 32) (bits : BitVec 64) :
    (s.flip row bits).erased = true ↔ ∃ (px : Fin 64) (py : Fin 32),
      s.pixel px py = true ∧ (decide (row = py) && bits.getMsbD px) = true := by
  have herased : (s.flip row bits).erased = true ↔
      ∃ px : Fin 64, (s.rows[row] &&& bits).getMsbD px = true :=
    bne_iff_ne.trans (ne_zero_iff_getMsbD _)
  have hbit : ∀ px : Fin 64, (s.rows[row] &&& bits).getMsbD px =
      (s.pixel px row && bits.getMsbD px) := by
    intro px
    simp only [pixel, rowAt_val, Nat.mod_eq_of_lt px.isLt, BitVec.getMsbD_and]
  rw [herased]
  constructor
  · rintro ⟨px, hpx⟩
    rw [hbit, Bool.and_eq_true] at hpx
    exact ⟨px, row, hpx.1, by rw [decide_eq_true rfl, Bool.true_and, hpx.2]⟩
  · rintro ⟨px, py, hlit, hone⟩
    obtain ⟨hrow, hone⟩ := Bool.and_eq_true_iff.1 hone
    have hrow := of_decide_eq_true hrow
    rw [← hrow] at hlit
    exact ⟨px, by rw [hbit, hlit, hone, Bool.true_and]⟩

/-- A row in front of others erases a pixel, or they do after it, if together they flip the
pixel twice or flip it at all when it is lit. -/
theorem erases_cons (lit inFront : Bool) (others : Nat) :
    ((lit = true ∧ inFront = true) ∨
        (1 ≤ others ∧ (lit ^^ inFront) = true) ∨ 2 ≤ others) ↔
      (1 ≤ inFront.toNat + others ∧ lit = true) ∨ 2 ≤ inFront.toNat + others := by
  cases inFront with
  | false => simp only [Bool.toNat_false, Nat.zero_add, Bool.xor_false, Bool.false_eq_true,
      and_false, false_or]
  | true =>
    -- The others find the pixel flipped already.
    cases lit with
    | false =>
      simp only [Bool.toNat_true, Bool.false_eq_true, Bool.xor_true, Bool.not_false, and_true,
        and_false, false_or]
      omega
    | true =>
      simp only [Bool.toNat_true, and_self, and_true, true_or, true_iff]
      omega

/-- Drawing erases if it flips a lit pixel or flips a pixel twice. The order of the flips
plays no part in it. -/
theorem erased_flipRows (edges : Edges) (x y : Nat) (sprite : List UInt8) (s : Screen) :
    (flipRows edges x y sprite s).erased = true ↔ ∃ (px : Fin 64) (py : Fin 32),
      (1 ≤ flips edges x px py y sprite ∧ s.pixel px py = true) ∨
        2 ≤ flips edges x px py y sprite := by
  induction sprite generalizing y s with
  | nil =>
    simp only [flipRows, flips]
    constructor
    · intro h
      cases h
    · rintro ⟨px, py, h⟩
      omega
  | cons bits rest ih =>
    simp only [flipRows, flips, Bool.or_eq_true, erased_flip, ih, pixel_flip_val,
      ← exists_or, erases_cons]

/-- What drawing with wrapping edges does, at any place and for sprites of any height. A
pixel is toggled if an odd number of set bits of the sprite fall on it. The draw erases if
one of them falls on a lit pixel or two of them fall on the same pixel. Unless the sprite
is higher than the screen, this says that some lit pixel is dark afterwards. -/
theorem draw_wrap_iff_hits (s : Screen) (x y : Nat) (sprite : List UInt8) :
    (∀ (px : Fin 64) (py : Fin 32), (s.draw .wrap x y sprite).screen.pixel px py =
      (s.pixel px py ^^ decide (hits x y sprite px py % 2 = 1))) ∧
    ((s.draw .wrap x y sprite).erased = true ↔ ∃ (px : Fin 64) (py : Fin 32),
      (1 ≤ hits x y sprite px py ∧ s.pixel px py = true) ∨ 2 ≤ hits x y sprite px py) ∧
    (sprite.length ≤ 32 →
      ((s.draw .wrap x y sprite).erased = true ↔ ∃ (px : Fin 64) (py : Fin 32),
        s.pixel px py = true ∧ (s.draw .wrap x y sprite).screen.pixel px py = false)) := by
  have hpixel : ∀ (px : Fin 64) (py : Fin 32), (s.draw .wrap x y sprite).screen.pixel px py =
      (s.pixel px py ^^ decide (hits x y sprite px py % 2 = 1)) := by
    intro px py
    rw [← flips_wrap]
    exact pixel_flipRows .wrap x y sprite s px py
  have herased := erased_flipRows .wrap x y sprite s
  simp only [flips_wrap] at herased
  refine ⟨hpixel, herased, fun hlength => herased.trans ?_⟩
  refine exists_congr fun px => exists_congr fun py => ?_
  have hone := hits_le_one hlength x y px py
  rw [hpixel]
  constructor
  · rintro (⟨hhit, hlit⟩ | htwice)
    · refine ⟨hlit, ?_⟩
      rw [hlit, decide_eq_true (by omega), Bool.xor_self]
    · omega
  · rintro ⟨hlit, hdark⟩
    rw [hlit, Bool.true_xor, Bool.not_eq_false', decide_eq_true_eq] at hdark
    exact .inl ⟨by omega, hlit⟩

/-- On a dark screen a sprite of thirty-three rows lights a pixel with its first row and
erases it with its last. One of thirty-two rows has nothing to erase. -/
theorem erased_of_thirty_three_rows :
    (dark.draw .wrap 60 7 (List.replicate 33 0x80)).erased = true ∧
      (dark.draw .wrap 60 7 (List.replicate 32 0x80)).erased = false := by
  constructor
  · have herased := (draw_wrap_iff_hits dark 60 7 (List.replicate 33 0x80)).2.1
    refine herased.2 ⟨⟨60, by decide⟩, ⟨7, by decide⟩, .inr ?_⟩
    decide +kernel
  · have herased := (draw_wrap_iff_hits dark 60 7 (List.replicate 32 0x80)).2.2 (by decide)
    refine Bool.eq_false_iff.2 fun h => ?_
    obtain ⟨px, py, hlit, -⟩ := herased.1 h
    rw [pixel_dark] at hlit
    cases hlit

end Screen

end ChipEight
