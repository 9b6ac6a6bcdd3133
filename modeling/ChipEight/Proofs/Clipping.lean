import ChipEight.Proofs.Landings

/-!
# Sprites at the edges

Whether the edges wrap or clip matters only to sprites that have a set bit past the right or
the bottom edge. All other sprites are drawn alike, and erase alike: a row keeps all its bits
when it is cut off at the right edge, and rows below the bottom edge, which only wrapping edges
draw, have nothing to flip. So clipping is a matter of the sprite alone: edges that clip draw any
sprite as edges that wrap draw the part of it that lies on the screen.
-/

namespace ChipEight

/-- A sprite overhangs if, with its left upper corner at column `x` and row `y`, a set bit of it
lies past the right or the bottom edge. -/
def Overhangs (x y : Nat) (sprite : List UInt8) : Prop :=
  ∃ (row : Fin sprite.length) (bit : Fin 8), (sprite.get row).toBitVec.getMsbD bit = true ∧
    (64 ≤ x % 64 + bit ∨ 32 ≤ y % 32 + row)

instance (x y : Nat) (sprite : List UInt8) : Decidable (Overhangs x y sprite) :=
  inferInstanceAs (Decidable (∃ (row : Fin sprite.length) (bit : Fin 8),
    (sprite.get row).toBitVec.getMsbD bit = true ∧ (64 ≤ x % 64 + bit ∨ 32 ≤ y % 32 + row)))

/-- The leftmost bits of a sprite row, as many as are asked for; the others are cleared. -/
def leftmost (count : Nat) (bits : UInt8) : UInt8 :=
  bits &&& .ofBitVec (BitVec.allOnes 8 <<< (8 - count))

/-- The part of a sprite that lies on the screen when its left upper corner is at column `x` and
row `y`: the rows before the bottom edge, each with its bits before the right edge. -/
def cutToSize (x y : Nat) (sprite : List UInt8) : List UInt8 :=
  (sprite.take (min sprite.length (32 - y % 32))).map (leftmost (min 8 (64 - x % 64)))

/-- Just the leftmost bits are kept. -/
theorem getMsbD_leftmost {count bit : Nat} (bits : UInt8) (hbit : bit < 8) :
    (leftmost count bits).toBitVec.getMsbD bit =
      (bits.toBitVec.getMsbD bit && decide (bit < count)) := by
  rw [leftmost, UInt8.toBitVec_and, BitVec.getMsbD_and, BitVec.getMsbD_shiftLeft,
    BitVec.getMsbD_allOnes]
  congr 1
  exact decide_eq_decide.2 (by omega)

namespace Edges

/-- Edges that clip place a row as edges that wrap place its bits before the right edge. -/
theorem place_clip_eq_place_leftmost (x : Nat) (bits : UInt8) :
    clip.place x bits = wrap.place x (leftmost (min 8 (64 - x % 64)) bits) := by
  refine BitVec.eq_of_getMsbD_eq fun px hpx => Bool.eq_iff_iff.2 ?_
  rw [getMsbD_place_iff clip x bits hpx, getMsbD_place_iff wrap x _ hpx]
  refine exists_congr fun bit => and_congr_right fun hbit => ?_
  rw [getMsbD_leftmost bits hbit, column?_clip_iff, column?_wrap_iff, Bool.and_eq_true,
    decide_eq_true_eq, and_assoc]
  refine and_congr_right fun _ => ?_
  omega

/-- A sprite row without a set bit past the right edge is placed alike by both kinds of edges. -/
theorem place_clip_eq_place_wrap {x : Nat} {bits : UInt8}
    (h : ∀ bit < 8, bits.toBitVec.getMsbD bit = true → x % 64 + bit < 64) :
    clip.place x bits = wrap.place x bits := by
  refine BitVec.eq_of_getMsbD_eq fun px hpx => Bool.eq_iff_iff.2 ?_
  rw [getMsbD_place_iff clip x bits hpx, getMsbD_place_iff wrap x bits hpx]
  refine exists_congr fun bit => and_congr_right fun hbit => and_congr_right fun hset => ?_
  have hinside := h bit hbit hset
  rw [column?_clip_iff, column?_wrap_iff]
  omega

/-- A sprite row without a set bit has nothing to flip. -/
theorem place_eq_zero {edges : Edges} {x : Nat} {bits : UInt8}
    (h : ∀ bit < 8, bits.toBitVec.getMsbD bit ≠ true) : edges.place x bits = 0#64 := by
  refine BitVec.eq_of_getMsbD_eq fun px hpx => ?_
  rw [BitVec.getMsbD_zero, Bool.eq_false_iff]
  intro hone
  obtain ⟨bit, hbit, hset, -⟩ := (getMsbD_place_iff edges x bits hpx).1 hone
  exact h bit hbit hset

end Edges

namespace Screen

/-- Flipping the rows of a sprite that starts in row `first` of the screen, with no set bit past
an edge: rows past the bottom edge can be left out, and the others can be cut off. -/
theorem flipRows_clip_eq_flipRows_wrap {x first : Nat} {sprite : List UInt8}
    (h : ∀ (row : Fin sprite.length) (bit : Fin 8),
      (sprite.get row).toBitVec.getMsbD bit = true → x % 64 + bit < 64 ∧ first + row < 32)
    (y : Nat) (s : Screen) :
    flipRows .clip x y (sprite.take (32 - first)) s = flipRows .wrap x y sprite s := by
  induction sprite generalizing first y s with
  | nil => rw [List.take_nil, flipRows, flipRows]
  | cons bits rest ih =>
    have hbits : ∀ bit < 8, bits.toBitVec.getMsbD bit = true →
        x % 64 + bit < 64 ∧ first < 32 := fun bit hbit hset =>
      h ⟨0, Nat.succ_pos rest.length⟩ ⟨bit, hbit⟩ hset
    have hrest : ∀ (row : Fin rest.length) (bit : Fin 8),
        (rest.get row).toBitVec.getMsbD bit = true →
          x % 64 + bit < 64 ∧ first + 1 + row < 32 := by
      intro row bit hset
      have hrow := h row.succ bit hset
      rw [Fin.val_succ] at hrow
      omega
    by_cases hinside : first < 32
    · have hcount : 32 - first = 32 - (first + 1) + 1 := by omega
      rw [hcount, List.take_succ_cons, flipRows, flipRows, ih hrest,
        Edges.place_clip_eq_place_wrap fun bit hbit hset => (hbits bit hbit hset).1]
    · -- This row and all rows below it are past the bottom edge, so they have no set bits.
      have hnone : ∀ bit < 8, bits.toBitVec.getMsbD bit ≠ true := fun bit hbit hset =>
        hinside (hbits bit hbit hset).2
      have hothers := ih hrest (y + 1) s
      rw [Nat.sub_eq_zero_of_le (by omega), List.take_zero, flipRows] at hothers
      rw [Nat.sub_eq_zero_of_le (by omega), List.take_zero, flipRows, flipRows,
        Edges.place_eq_zero hnone, flip_zero, ← hothers]
      rfl

/-- A sprite that does not overhang is drawn alike, and erases alike, whether the edges clip or
wrap. -/
theorem draw_clip_eq_draw_wrap {x y : Nat} {sprite : List UInt8} (h : ¬Overhangs x y sprite)
    (s : Screen) : s.draw .clip x y sprite = s.draw .wrap x y sprite := by
  refine flipRows_clip_eq_flipRows_wrap (fun row bit hset => ?_) y s
  by_contra houtside
  exact h ⟨row, bit, hset, by omega⟩

/-- Edges that clip flip rows as edges that wrap flip their bits before the right edge. -/
theorem flipRows_clip_eq_flipRows_leftmost (x y : Nat) (rows : List UInt8) (s : Screen) :
    flipRows .clip x y rows s =
      flipRows .wrap x y (rows.map (leftmost (min 8 (64 - x % 64)))) s := by
  induction rows generalizing y s with
  | nil => rfl
  | cons bits rest ih =>
    rw [List.map_cons, flipRows, flipRows, ih, Edges.place_clip_eq_place_leftmost]

/-- Clipping is cutting the sprite to size. Edges that clip draw and erase as edges that wrap do
with the part of the sprite that lies on the screen, at any place and for sprites of any height. In
particular they draw and erase like these if no set bit lies past an edge; and they leave all rows
above the sprite and all columns left of it. -/
theorem draw_clip_eq_draw_cutToSize (s : Screen) (x y : Nat) (sprite : List UInt8) :
    s.draw .clip x y sprite = s.draw .wrap x y (cutToSize x y sprite) ∧
    (¬Overhangs x y sprite → s.draw .clip x y sprite = s.draw .wrap x y sprite) ∧
    ∀ (px : Fin 64) (py : Fin 32), py.val < y % 32 ∨ px.val < x % 64 →
      (s.draw .clip x y sprite).screen.pixel px py = s.pixel px py := by
  refine ⟨?_, fun hinside => draw_clip_eq_draw_wrap hinside s, fun px py hbefore => ?_⟩
  · have hrows : sprite.take (min sprite.length (32 - y % 32)) = sprite.take (32 - y % 32) := by
      rw [Nat.min_comm, ← List.take_eq_take_min]
    rw [draw, draw, cutToSize, hrows]
    exact flipRows_clip_eq_flipRows_leftmost x y (sprite.take (32 - y % 32)) s
  · refine pixel_draw_of_not_covers ?_ s
    rintro ⟨row, bit, -, hcolumn, hrow⟩
    have hcolumn := Edges.column?_clip_iff.1 hcolumn
    have hrow := Edges.row?_clip_iff.1 hrow
    omega

/-- In the lower right corner four bits of the first two rows are left of a sprite. A sprite that
has no others is drawn there as it is; and nothing is drawn above the corner. -/
theorem draw_clip_in_corner :
    dark.draw .clip 60 30 [0xFF, 0x81, 0xFF] = dark.draw .wrap 60 30 [0xF0, 0x80] ∧
      ¬Overhangs 60 30 [0xF0, 0x80] ∧
      dark.draw .clip 60 30 [0xF0, 0x80] = dark.draw .wrap 60 30 [0xF0, 0x80] ∧
      (dark.draw .clip 60 30 [0xFF, 0x81, 0xFF]).screen.pixel 60 29 = false := by
  have hoverhangs : ¬Overhangs 60 30 [0xF0, 0x80] := by decide
  obtain ⟨hcut, -, habove⟩ := draw_clip_eq_draw_cutToSize dark 60 30 [0xFF, 0x81, 0xFF]
  have hpixel := habove ⟨60, by decide⟩ ⟨29, by decide⟩ (by decide)
  have halike := (draw_clip_eq_draw_cutToSize dark 60 30 [0xF0, 0x80]).2.1 hoverhangs
  exact ⟨hcut, hoverhangs, halike, hpixel.trans (pixel_dark 60 29)⟩

/-- Both kinds of edges draw a sprite alike, unless it overhangs. -/
theorem draw_eq_of_not_overhangs {x y : Nat} {sprite : List UInt8} (h : ¬Overhangs x y sprite)
    (s : Screen) (edges other : Edges) : s.draw edges x y sprite = s.draw other x y sprite := by
  cases edges <;> cases other
  · rfl
  · exact (draw_clip_eq_draw_wrap h s).symm
  · exact draw_clip_eq_draw_wrap h s
  · rfl

/-- A sprite in the lower right corner whose right half and second row are empty. -/
example (s : Screen) :
    s.draw .clip 60 31 [0xF0, 0x00] = s.draw .wrap 60 31 [0xF0, 0x00] :=
  draw_clip_eq_draw_wrap (by decide) s

end Screen

end ChipEight
