import ChipEight.Proofs.Plain.Drawing

/-!
# Where the bits of a sprite fall

Each set bit of a sprite falls on one pixel of the screen or, past an edge that clips, on none. In
a sprite that is no higher than the screen different bits fall on different pixels. So drawing it
toggles the pixels that some set bit falls on, and no others.
-/

namespace ChipEight

namespace Edges

variable {y row : Nat}

/-- The row of the screen on which row number `row` of a sprite falls, if it falls on the screen. -/
def row? (edges : Edges) (y row : Nat) : Option Nat :=
  match edges with
  | wrap => some ((y + row) % 32)
  | clip => if y % 32 + row < 32 then some (y % 32 + row) else none

/-- With wrapping edges a row falls on the row that is reached going round. -/
theorem row?_wrap_iff {py : Nat} : wrap.row? y row = some py ↔ (y + row) % 32 = py := Option.some_inj

/-- With clipping edges a row falls on its row or on none. -/
theorem row?_clip_iff {py : Nat} :
    clip.row? y row = some py ↔ y % 32 + row = py ∧ py < 32 := by
  unfold row?
  by_cases hlt : y % 32 + row < 32
  · simp only [if_pos hlt, Option.some_inj]
    omega
  · simp only [if_neg hlt, reduceCtorEq, false_iff]
    omega

/-- The rows of a sprite that are drawn into a row of the screen are those that fall on it. -/
theorem getElem?_visible_iff {edges : Edges} {sprite : List UInt8} {bits : UInt8} {py : Fin 32} :
    (edges.visible y sprite)[row]? = some bits ∧ Screen.rowAt (y + row) = py ↔
      sprite[row]? = some bits ∧ edges.row? y row = some py.val := by
  have hrowAt : Screen.rowAt (y + row) = py ↔ (y + row) % 32 = py.val := Fin.ext_iff
  have hlt := py.isLt
  rw [hrowAt]
  cases edges with
  | wrap => rw [row?_wrap_iff, visible]
  | clip =>
    rw [row?_clip_iff, visible, List.getElem?_take, ite_eq_iff]
    constructor
    · rintro ⟨⟨hvisible, hbits⟩ | ⟨-, hnone⟩, hrow⟩
      · exact ⟨hbits, by omega, hlt⟩
      · cases hnone
    · rintro ⟨hbits, hrow, -⟩
      exact ⟨.inl ⟨by omega, hbits⟩, by omega⟩

end Edges

/-- A sprite covers a pixel if, with its left upper corner at column `x` and row `y`, a set bit of it
falls there. -/
def Covers (edges : Edges) (x y : Nat) (sprite : List UInt8) (px : Fin 64) (py : Fin 32) : Prop :=
  ∃ (row : Fin sprite.length) (bit : Fin 8), (sprite.get row).toBitVec.getMsbD bit = true ∧
    edges.column? x bit = some px.val ∧ edges.row? y row = some py.val

instance (edges : Edges) (x y : Nat) (sprite : List UInt8) (px : Fin 64) (py : Fin 32) :
    Decidable (Covers edges x y sprite px py) :=
  inferInstanceAs (Decidable (∃ (row : Fin sprite.length) (bit : Fin 8),
    (sprite.get row).toBitVec.getMsbD bit = true ∧ edges.column? x bit = some px.val ∧
      edges.row? y row = some py.val))

namespace Screen

variable {edges : Edges} {x y : Nat} {sprite : List UInt8} {px : Fin 64} {py : Fin 32}

/-- Drawing rows flips a pixel if one of them is drawn into its row with a one in its column. -/
theorem flips_pos_iff : 0 < flips edges x px py y sprite ↔ ∃ row bits, sprite[row]? = some bits ∧
    rowAt (y + row) = py ∧ (edges.place x bits).getMsbD px = true := by
  induction sprite generalizing y with
  | nil => simp [flips]
  | cons first rest ih =>
    rw [flips, Nat.add_pos_iff_pos_or_pos, ih, Nat.pos_iff_ne_zero, ne_eq, Bool.toNat_eq_zero,
      Bool.not_eq_false, Bool.and_eq_true, decide_eq_true_eq]
    constructor
    · rintro (⟨hrow, hone⟩ | ⟨row, bits, hbits, hrow, hone⟩)
      · exact ⟨0, first, rfl, hrow, hone⟩
      · rw [Nat.add_right_comm] at hrow
        exact ⟨row + 1, bits, hbits, hrow, hone⟩
    · rintro ⟨row, bits, hbits, hrow, hone⟩
      cases row with
      | zero =>
        obtain rfl := Option.some.inj hbits
        exact .inl ⟨hrow, hone⟩
      | succ row =>
        rw [← Nat.add_assoc, Nat.add_right_comm] at hrow
        exact .inr ⟨row, bits, hbits, hrow, hone⟩

/-- Rows that fill the screen at most once flip no pixel twice. -/
theorem flips_le_one (hlength : sprite.length ≤ 32) : flips edges x px py y sprite ≤ 1 := by
  induction sprite generalizing y with
  | nil => simp [flips]
  | cons first rest ih =>
    rw [List.length_cons] at hlength
    rw [flips]
    cases hfirst : decide (rowAt y = py) && (edges.place x first).getMsbD px with
    | false =>
      rw [Bool.toNat_false, Nat.zero_add]
      exact ih (by omega)
    | true =>
      -- The rows behind this one are drawn into other rows of the screen.
      have hrow : rowAt y = py := of_decide_eq_true (Bool.and_eq_true_iff.1 hfirst).1
      have hothers : ¬0 < flips edges x px py (y + 1) rest := by
        rw [flips_pos_iff]
        rintro ⟨row, bits, hbits, hrow', -⟩
        obtain ⟨hlt, -⟩ := List.getElem?_eq_some_iff.1 hbits
        have hsame : (y + 1 + row) % 32 = y % 32 := congrArg Fin.val (hrow'.trans hrow.symm)
        omega
      rw [Bool.toNat_true]
      omega

/-- Drawing a sprite that is no higher than the screen flips no pixel twice. -/
theorem flips_visible_le_one (hlength : sprite.length ≤ 32) :
    flips edges x px py y (edges.visible y sprite) ≤ 1 := by
  refine flips_le_one ?_
  cases edges with
  | wrap => exact hlength
  | clip => exact Nat.le_trans (List.length_take_le' _ _) hlength

/-- A pixel is flipped if the sprite covers it. -/
theorem flips_visible_pos_iff :
    0 < flips edges x px py y (edges.visible y sprite) ↔ Covers edges x y sprite px py := by
  rw [flips_pos_iff]
  constructor
  · rintro ⟨row, bits, hbits, hrow, hone⟩
    obtain ⟨hbits, hfalls⟩ := Edges.getElem?_visible_iff.1 ⟨hbits, hrow⟩
    obtain ⟨hlt, rfl⟩ := List.getElem?_eq_some_iff.1 hbits
    obtain ⟨bit, hbit, hset, hcolumn⟩ := (Edges.getMsbD_place_iff edges x _ px.isLt).1 hone
    exact ⟨⟨row, hlt⟩, ⟨bit, hbit⟩, hset, hcolumn, hfalls⟩
  · rintro ⟨row, bit, hset, hcolumn, hfalls⟩
    have hget : sprite[row.val]? = some (sprite.get row) := List.getElem?_eq_getElem row.isLt
    obtain ⟨hbits, hrow⟩ := Edges.getElem?_visible_iff.2 ⟨hget, hfalls⟩
    exact ⟨row, sprite.get row, hbits, hrow,
      (Edges.getMsbD_place_iff edges x _ px.isLt).2 ⟨bit, bit.isLt, hset, hcolumn⟩⟩

/-- Drawing leaves the pixels that the sprite does not cover. -/
theorem pixel_draw_of_not_covers (h : ¬Covers edges x y sprite px py) (s : Screen) :
    (s.draw edges x y sprite).screen.pixel px py = s.pixel px py := by
  have hnone : flips edges x px py y (edges.visible y sprite) = 0 :=
    Nat.eq_zero_of_not_pos fun hpos => h (flips_visible_pos_iff.1 hpos)
  rw [draw, pixel_flipRows, hnone, decide_eq_false (by omega), Bool.xor_false]

/-- Drawing a sprite that is no higher than the screen toggles the pixels that it covers. -/
theorem pixel_draw (hlength : sprite.length ≤ 32) (s : Screen) :
    (s.draw edges x y sprite).screen.pixel px py =
      (s.pixel px py ^^ decide (Covers edges x y sprite px py)) := by
  have hone : flips edges x px py y (edges.visible y sprite) ≤ 1 := flips_visible_le_one hlength
  rw [draw, pixel_flipRows]
  congr 1
  refine decide_eq_decide.2 (Iff.trans ?_ flips_visible_pos_iff)
  omega

end Screen

end ChipEight
