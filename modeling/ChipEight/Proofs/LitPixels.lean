import ChipEight.Proofs.Collisions
import Mathlib.Algebra.BigOperators.Fin
import Mathlib.Data.Fintype.BigOperators
import Mathlib.Data.Nat.Count

/-!
# Counting lit pixels

Drawing a sprite lights pixels and darkens others. How many pixels are lit afterwards follows from
two numbers: how many set bits of the sprite fall on the screen, and how many of these fall on a
pixel that is lit already. For this no two bits may fall on the same pixel, and in a sprite that is
no higher than the screen none do. So the pixels that a sprite covers are counted by its bits, and
the lit pixels after a drawing are those that were lit or are covered, but not both.
-/

namespace ChipEight

open scoped symmDiff

/-- The set bits of a sprite, each named by its row and its place in the row. -/
def setBits (sprite : List UInt8) : Finset (Fin sprite.length × Fin 8) :=
  Finset.univ.filter fun spot => (sprite.get spot.1).toBitVec.getMsbD spot.2 = true

/-- The set bits of a sprite that fall on the screen when its left upper corner is at column `x`
and row `y`. Edges that wrap lose none; edges that clip lose those past the right or the bottom
edge. -/
def landing (edges : Edges) (x y : Nat) (sprite : List UInt8) :
    Finset (Fin sprite.length × Fin 8) :=
  match edges with
  | .wrap => setBits sprite
  | .clip => (setBits sprite).filter fun spot => x % 64 + spot.2 < 64 ∧ y % 32 + spot.1 < 32

/-- The pixels that a sprite covers. -/
def covered (edges : Edges) (x y : Nat) (sprite : List UInt8) : Finset (Fin 64 × Fin 32) :=
  Finset.univ.filter fun place => Covers edges x y sprite place.1 place.2

/-- The pixel on which a bit of a sprite falls, going round at the edges. -/
def target (x y : Nat) {rows : Nat} (spot : Fin rows × Fin 8) : Fin 64 × Fin 32 :=
  (⟨(x + spot.2) % 64, Nat.mod_lt _ (by decide)⟩, Screen.rowAt (y + spot.1))

section target

variable {edges : Edges} {x y : Nat} {sprite : List UInt8}

/-- Bits of a sprite that is no higher than the screen fall on different pixels. -/
theorem target_injective {rows : Nat} (hrows : rows ≤ 32) :
    Function.Injective (@target x y rows) := by
  intro first second hsame
  have hcolumn : (x + first.2) % 64 = (x + second.2) % 64 :=
    congrArg (fun place => place.1.val) hsame
  have hrow : (y + first.1) % 32 = (y + second.1) % 32 :=
    congrArg (fun place => place.2.val) hsame
  exact Prod.ext (Fin.ext (by omega)) (Fin.ext (by omega))

/-- A bit lands on a pixel if it is set and falls there. -/
theorem lands_iff {spot : Fin sprite.length × Fin 8} {place : Fin 64 × Fin 32} :
    spot ∈ landing edges x y sprite ∧ target x y spot = place ↔
      (sprite.get spot.1).toBitVec.getMsbD spot.2 = true ∧
        edges.column? x spot.2 = some place.1.val ∧ edges.row? y spot.1 = some place.2.val := by
  have hcolumn := place.1.isLt
  have hrow := place.2.isLt
  have htarget : target x y spot = place ↔
      (x + spot.2) % 64 = place.1.val ∧ (y + spot.1) % 32 = place.2.val :=
    Prod.ext_iff.trans (and_congr Fin.ext_iff Fin.ext_iff)
  cases edges with
  | wrap =>
    simp only [landing, setBits, Finset.mem_filter, Finset.mem_univ, true_and, htarget,
      Edges.column?_wrap_iff, Edges.row?_wrap_iff]
  | clip =>
    simp only [landing, setBits, Finset.mem_filter, Finset.mem_univ, true_and, htarget,
      Edges.column?_clip_iff, Edges.row?_clip_iff, and_assoc]
    -- What lands lies before both edges, where nothing goes round.
    refine and_congr_right fun _ => ?_
    omega

/-- A sprite covers the pixels on which its bits land. -/
theorem image_landing : (landing edges x y sprite).image (target x y) =
    covered edges x y sprite := by
  ext place
  have hcovers : place ∈ covered edges x y sprite ↔ Covers edges x y sprite place.1 place.2 :=
    Finset.mem_filter_univ place
  simp only [hcovers, Covers, Finset.mem_image, lands_iff, Prod.exists]

/-- Covered pixels with some property are counted by the bits that land on them. -/
theorem card_filter_covered (hlength : sprite.length ≤ 32) (p : Fin 64 × Fin 32 → Prop)
    [DecidablePred p] : ((covered edges x y sprite).filter p).card =
      ((landing edges x y sprite).filter fun spot => p (target x y spot)).card := by
  rw [← image_landing, Finset.filter_image,
    Finset.card_image_of_injective _ (target_injective hlength)]

end target

namespace Screen

/-- The lit pixels. -/
def litPixels (s : Screen) : Finset (Fin 64 × Fin 32) :=
  Finset.univ.filter fun place => s.pixel place.1 place.2 = true

/-- The set bits of a sprite that fall on a lit pixel. -/
def strikes (s : Screen) (edges : Edges) (x y : Nat) (sprite : List UInt8) :
    Finset (Fin sprite.length × Fin 8) :=
  (landing edges x y sprite).filter fun spot => s.pixel (x + spot.2) (y + spot.1) = true

/-- Whether the pixel on which a bit falls is lit. -/
theorem pixel_target (s : Screen) (x y : Nat) {rows : Nat} (spot : Fin rows × Fin 8) :
    s.pixel (target x y spot).1 (target x y spot).2 = s.pixel (x + spot.2) (y + spot.1) := by
  simp only [target, pixel, rowAt_val, Nat.mod_mod]

/-- The lit pixels of a row, column by column. -/
theorem litInRow_eq_sum (row : BitVec 64) :
    litInRow row = ∑ px : Fin 64, if row.getMsbD px = true then 1 else 0 := by
  rw [← Finset.sum_range fun px => if row.getMsbD px = true then 1 else 0, ← Finset.card_filter,
    ← Nat.count_eq_card_filter_range]
  simp [litInRow, Nat.count]

/-- The lit pixels of a screen, row by row. -/
theorem lit_eq_sum (s : Screen) :
    s.lit = ∑ py : Fin 32, ∑ px : Fin 64, if s.pixel px py = true then 1 else 0 := by
  have hrow : ∀ py : Fin 32, litInRow s.rows[py] =
      ∑ px : Fin 64, if s.pixel px py = true then 1 else 0 := by
    intro py
    simp only [litInRow_eq_sum, pixel, rowAt_val, Nat.mod_eq_of_lt (Fin.isLt _)]
  have hrows : s.rows.toList.map litInRow = List.ofFn fun py : Fin 32 => litInRow s.rows[py] :=
    List.ext_getElem (by simp only [List.length_map, Vector.length_toList, List.length_ofFn])
      fun py _ _ => by
        simp only [List.getElem_map, Vector.getElem_toList, List.getElem_ofFn, Fin.getElem_fin]
  simp only [← hrow]
  rw [← List.sum_ofFn, ← hrows]
  rfl

/-- The number of lit pixels. -/
theorem card_litPixels (s : Screen) : s.litPixels.card = s.lit := by
  rw [litPixels, Finset.card_filter, Fintype.sum_prod_type_right, lit_eq_sum]

variable {edges : Edges} {x y : Nat} {sprite : List UInt8}

/-- A drawing leaves lit what was lit or is covered, but not both. -/
theorem litPixels_draw (hlength : sprite.length ≤ 32) (s : Screen) :
    (s.draw edges x y sprite).screen.litPixels = s.litPixels ∆ covered edges x y sprite := by
  ext place
  simp only [litPixels, covered, Finset.mem_symmDiff, Finset.mem_filter_univ, pixel_draw hlength]
  cases s.pixel place.1 place.2 <;> simp

/-- The set bits that land on the screen are as many as the pixels that are covered. -/
theorem card_landing (hlength : sprite.length ≤ 32) :
    (landing edges x y sprite).card = (covered edges x y sprite).card := by
  rw [← image_landing, Finset.card_image_of_injective _ (target_injective hlength)]

/-- The set bits that land on lit pixels are as many as the lit pixels that are covered. -/
theorem card_strikes (hlength : sprite.length ≤ 32) (s : Screen) :
    (s.strikes edges x y sprite).card = (s.litPixels ∩ covered edges x y sprite).card := by
  have hlit : s.litPixels ∩ covered edges x y sprite =
      (covered edges x y sprite).filter fun place => s.pixel place.1 place.2 = true := by
    rw [litPixels, Finset.filter_inter, Finset.univ_inter]
  rw [hlit, card_filter_covered hlength, strikes]
  exact congrArg Finset.card (Finset.filter_congr fun spot _ => by rw [pixel_target])

/-- Drawing erases if a set bit lands on a lit pixel. -/
theorem erased_draw_iff_strikes (hlength : sprite.length ≤ 32) (s : Screen) :
    (s.draw edges x y sprite).erased = true ↔ 0 < (s.strikes edges x y sprite).card := by
  rw [erased_draw_iff_loses hlength, loses_draw_iff hlength, card_strikes hlength, Finset.card_pos]
  simp only [Finset.Nonempty, Finset.mem_inter, litPixels, covered, Finset.mem_filter_univ,
    Prod.exists, and_comm]

/-- The lit pixels after a drawing, and those that were lit and are covered counted twice, are as
many as those before and the covered ones together. -/
theorem card_litPixels_draw (hlength : sprite.length ≤ 32) (s : Screen) :
    (s.draw edges x y sprite).screen.litPixels.card +
        2 * (s.litPixels ∩ covered edges x y sprite).card =
      s.litPixels.card + (covered edges x y sprite).card := by
  have hlit := Finset.card_sdiff_add_card_inter s.litPixels (covered edges x y sprite)
  have hcovered := Finset.card_sdiff_add_card_inter (covered edges x y sprite) s.litPixels
  rw [Finset.inter_comm] at hcovered
  -- The pixels in both sets are counted once in either set and not at all in the difference.
  rw [litPixels_draw hlength, symmDiff_def, Finset.sup_eq_union,
    Finset.card_union_of_disjoint disjoint_sdiff_sdiff]
  omega

/-- What a drawing does to the number of lit pixels, at any place and for both kinds of edges. To
the lit pixels come the set bits that land on the screen, less twice those that land on a lit pixel.
The draw erases if fewer pixels are lit afterwards than if every bit had landed on a dark one. -/
theorem lit_draw_and_erased_iff (s : Screen) (edges : Edges) (x y : Nat) {sprite : List UInt8}
    (hlength : sprite.length ≤ 32) :
    ((s.draw edges x y sprite).screen.lit : Int) =
        s.lit + (landing edges x y sprite).card - 2 * (s.strikes edges x y sprite).card ∧
    ((s.draw edges x y sprite).erased = true ↔
      (s.draw edges x y sprite).screen.lit < s.lit + (landing edges x y sprite).card) := by
  have hcount : (s.draw edges x y sprite).screen.litPixels.card +
      2 * (s.litPixels ∩ covered edges x y sprite).card =
        s.litPixels.card + (covered edges x y sprite).card := card_litPixels_draw hlength s
  rw [card_litPixels, card_litPixels, ← card_strikes hlength, ← card_landing hlength] at hcount
  rw [erased_draw_iff_strikes hlength]
  omega

/-- A pillar four pixels wide, drawn from row 20 on and round the bottom edge. -/
def pillar : Screen := (dark.draw .wrap 60 20 (List.replicate 32 0xF0)).screen

/-- A block as high as the screen that starts at the right half of the pillar. Clipped, it is twelve
rows of two pixels, all lit before. -/
theorem lit_draw_over_pillar :
    pillar.lit = 128 ∧ (landing .clip 62 20 (List.replicate 32 0xFF)).card = 24 ∧
      (pillar.draw .clip 62 20 (List.replicate 32 0xFF)).screen.lit = 104 ∧
      (pillar.draw .clip 62 20 (List.replicate 32 0xFF)).erased = true := by
  obtain ⟨hbefore, hlanding, hstrikes⟩ : pillar.lit = 128 ∧
      (landing .clip 62 20 (List.replicate 32 0xFF)).card = 24 ∧
      (pillar.strikes .clip 62 20 (List.replicate 32 0xFF)).card = 24 := by
    decide +kernel
  have hrows : (List.replicate 32 (0xFF : UInt8)).length ≤ 32 := by decide
  obtain ⟨hlit, herased⟩ := pillar.lit_draw_and_erased_iff .clip 62 20 hrows
  rw [hbefore, hlanding] at hlit herased
  rw [hstrikes] at hlit
  exact ⟨hbefore, hlanding, by omega, herased.2 (by omega)⟩

end Screen

end ChipEight
