import ChipEight.Proofs.Drawing

/-!
# Several drawings

A drawing toggles the pixels that it would light on a dark screen, whatever is on the screen
already. So what several drawings leave depends on how many of them toggle a pixel and on
nothing else: they can be made in any order, and a drawing that is made twice might as well
not be made. This holds for wrapping and clipping edges side by side, at any place, and for
sprites that are so high that they cover a part of themselves. Whether a drawing erases
something does depend on the order, of course.
-/

namespace ChipEight

/-- A sprite, and where and how it is drawn. -/
structure Drawing where
  /-- What happens to the sprite at the edges. -/
  edges : Edges
  /-- The column of its left upper corner, before it is taken modulo the width. -/
  x : Nat
  /-- The row of its left upper corner, before it is taken modulo the height. -/
  y : Nat
  /-- The rows of the sprite. -/
  sprite : List UInt8
  deriving DecidableEq

namespace Screen

/-- Two screens with the same pixels are the same. -/
theorem eq_of_pixel_eq {s t : Screen}
    (h : ∀ (px : Fin 64) (py : Fin 32), s.pixel px py = t.pixel px py) : s = t := by
  have hrows : s.rows = t.rows := by
    apply Vector.ext
    intro py hpy
    refine BitVec.eq_of_getMsbD_eq fun px hpx => ?_
    have hpixel := h ⟨px, hpx⟩ ⟨py, hpy⟩
    have hrow : rowAt py = ⟨py, hpy⟩ := rowAt_val ⟨py, hpy⟩
    simp only [pixel, hrow, Nat.mod_eq_of_lt hpx, Fin.getElem_fin] at hpixel
    exact hpixel
  cases s
  cases t
  exact congrArg Screen.mk hrows

/-- The screen after one drawing. -/
def afterDrawing (s : Screen) (d : Drawing) : Screen := (s.draw d.edges d.x d.y d.sprite).screen

/-- The screen after some drawings, made one after the other. -/
def drawAll (s : Screen) (drawings : List Drawing) : Screen := drawings.foldl afterDrawing s

end Screen

/-- Whether a drawing lights a pixel of the dark screen. -/
def Drawing.lights (px : Fin 64) (py : Fin 32) (d : Drawing) : Bool :=
  (Screen.dark.afterDrawing d).pixel px py

namespace Screen

/-- A drawing toggles the pixels that it lights on the dark screen. -/
theorem pixel_afterDrawing (s : Screen) (d : Drawing) (px : Fin 64) (py : Fin 32) :
    (s.afterDrawing d).pixel px py = (s.pixel px py ^^ d.lights px py) := by
  have hlights : d.lights px py = decide (flips d.edges d.x px py d.y
      (d.edges.visible d.y d.sprite) % 2 = 1) := by
    rw [Drawing.lights, afterDrawing, draw, pixel_flipRows, pixel_dark, Bool.false_xor]
  rw [hlights, afterDrawing, draw, pixel_flipRows]

/-- Several drawings toggle the pixels that an odd number of them light on the dark screen. -/
theorem pixel_drawAll (s : Screen) (drawings : List Drawing) (px : Fin 64) (py : Fin 32) :
    (s.drawAll drawings).pixel px py =
      (s.pixel px py ^^ decide (drawings.countP (Drawing.lights px py) % 2 = 1)) := by
  induction drawings generalizing s with
  | nil =>
    rw [List.countP_nil, decide_eq_false (by omega), Bool.xor_false]
    rfl
  | cons first rest ih =>
    have hrest : (s.drawAll (first :: rest)).pixel px py =
        ((s.afterDrawing first).drawAll rest).pixel px py := rfl
    rw [hrest, ih, pixel_afterDrawing, Bool.xor_assoc, List.countP_cons]
    congr 1
    cases first.lights px py with
    | false => rw [Bool.false_xor, if_neg Bool.false_ne_true, Nat.add_zero]
    | true =>
      rw [Bool.true_xor, if_pos rfl, ← decide_not]
      exact decide_eq_decide.2 (by omega)

/-- Drawings that toggle each pixel equally often, up to pairs, leave the same screen. -/
theorem drawAll_eq_of_countP {drawings other : List Drawing} (s : Screen)
    (h : ∀ px py, drawings.countP (Drawing.lights px py) % 2 =
      other.countP (Drawing.lights px py) % 2) : s.drawAll drawings = s.drawAll other := by
  refine eq_of_pixel_eq fun px py => ?_
  rw [pixel_drawAll, pixel_drawAll, h]

/-- Drawings toggle pixels and do nothing else. A pixel is toggled if an odd number of them
would light it on a dark screen. Hence they leave the same screen in every order, and a
drawing that is made twice, with any others before, in between and afterwards, leaves the
screen that the others leave without it. -/
theorem drawAll_perm_and_twice (s : Screen) :
    (∀ (drawings : List Drawing) (px : Fin 64) (py : Fin 32),
      (s.drawAll drawings).pixel px py =
        (s.pixel px py ^^ decide (drawings.countP (Drawing.lights px py) % 2 = 1))) ∧
    (∀ drawings other : List Drawing, drawings.Perm other →
      s.drawAll drawings = s.drawAll other) ∧
    (∀ (before between after : List Drawing) (twice : Drawing),
      s.drawAll (before ++ twice :: between ++ twice :: after) =
        s.drawAll (before ++ between ++ after)) := by
  refine ⟨s.pixel_drawAll, fun drawings other hperm => ?_,
    fun before between after twice => ?_⟩
  · refine s.drawAll_eq_of_countP fun px py => ?_
    rw [hperm.countP_eq]
  · refine s.drawAll_eq_of_countP fun px py => ?_
    simp only [List.countP_append, List.countP_cons]
    omega

/-- A drawing that wraps around the corner of the screen. -/
def aroundCorner : Drawing := ⟨.wrap, 60, 30, [0xFF, 0x81, 0xFF]⟩

/-- The same sprite at the same place, cut off there. -/
def cutOff : Drawing := { aroundCorner with edges := .clip }

/-- A sprite of forty rows, the last eight of which lie on the first eight. -/
def tall : Drawing := ⟨.wrap, 64, 95, List.replicate 40 0xF0⟩

/-- The three can be drawn in another order, and the last two drop out when drawn twice. -/
theorem drawAll_of_three :
    [aroundCorner, cutOff, tall].Perm [tall, aroundCorner, cutOff] ∧
      dark.drawAll [aroundCorner, cutOff, tall] = dark.drawAll [tall, aroundCorner, cutOff] ∧
      dark.drawAll [tall, cutOff, aroundCorner, tall, cutOff] = dark.drawAll [aroundCorner] := by
  obtain ⟨-, hperm, htwice⟩ := dark.drawAll_perm_and_twice
  have hthree : [aroundCorner, cutOff, tall].Perm [tall, aroundCorner, cutOff] := by decide
  refine ⟨hthree, hperm _ _ hthree, ?_⟩
  exact (htwice [] [cutOff, aroundCorner] [cutOff] tall).trans
    (htwice [] [aroundCorner] [] cutOff)

end Screen

end ChipEight
