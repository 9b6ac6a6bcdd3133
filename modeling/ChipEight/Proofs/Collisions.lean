import ChipEight.Proofs.Alignment
import ChipEight.Proofs.Glyphs
import ChipEight.Proofs.Words

/-!
# Drawing and collisions

`DXYN` draws as many bytes as its last digit says, from the index register on, at the column and the
row that two registers hold. Its flag is about the screen as a whole: it tells whether some pixel
that was lit is dark afterwards. Drawing itself only notices what each row of the sprite erases when
it is flipped; as a sprite of this instruction is never higher than the screen, no pixel is flipped
twice, and so the two say the same. The position is read before the flag is written, so the flag
register may hold a coordinate.
-/

namespace ChipEight

namespace Screen

/-- Some pixel that is lit on the screen is dark on the one after it. -/
def Loses (s after : Screen) : Prop :=
  ∃ (px : Fin 64) (py : Fin 32), s.pixel px py = true ∧ after.pixel px py = false

instance (s after : Screen) : Decidable (s.Loses after) :=
  inferInstanceAs (Decidable (∃ (px : Fin 64) (py : Fin 32),
    s.pixel px py = true ∧ after.pixel px py = false))

/-- Drawing a sprite that is no higher than the screen loses the lit pixels that it covers. -/
theorem loses_draw_iff {edges : Edges} {x y : Nat} {sprite : List UInt8}
    (hlength : sprite.length ≤ 32) (s : Screen) :
    s.Loses (s.draw edges x y sprite).screen ↔
      ∃ (px : Fin 64) (py : Fin 32), Covers edges x y sprite px py ∧ s.pixel px py = true := by
  refine exists_congr fun px => exists_congr fun py => ?_
  rw [pixel_draw hlength]
  constructor
  · rintro ⟨hlit, hdark⟩
    rw [hlit, Bool.true_xor, Bool.not_eq_false', decide_eq_true_eq] at hdark
    exact ⟨hdark, hlit⟩
  · rintro ⟨hcovers, hlit⟩
    exact ⟨hlit, by rw [hlit, decide_eq_true hcovers, Bool.xor_self]⟩

/-- Drawing a sprite that is no higher than the screen erases if a lit pixel is lost. -/
theorem erased_draw_iff_loses {edges : Edges} {x y : Nat} {sprite : List UInt8}
    (hlength : sprite.length ≤ 32) (s : Screen) :
    (s.draw edges x y sprite).erased = true ↔ s.Loses (s.draw edges x y sprite).screen := by
  rw [loses_draw_iff hlength, draw, erased_flipRows]
  refine exists_congr fun px => exists_congr fun py => ?_
  have hone : flips edges x px py y (edges.visible y sprite) ≤ 1 := flips_visible_le_one hlength
  have hcovers : Covers edges x y sprite px py ↔
      0 < flips edges x px py y (edges.visible y sprite) := flips_visible_pos_iff.symm
  rw [hcovers]
  constructor
  · rintro (hlit | htwice)
    · exact hlit
    · omega
  · exact .inl

end Screen

namespace Machine

/-- The flag after drawing. -/
theorem v_flag_draw (m : Machine) (x y height : Nibble) :
    (m.draw x y height).v Registers.flag =
      if (m.drawn x y height).erased = true then 1
      else if m.dialect.drawClearsFlag = true then 0 else m.v Registers.flag := by
  unfold draw drawn
  dsimp only
  cases (m.screen.draw m.edges (m.v x).toNat (m.v y).toNat (m.sprite height)).erased with
  | true =>
    rw [Bool.or_true, if_pos rfl, if_pos rfl]
    exact (v_setV _ _ _ _).trans (if_pos rfl)
  | false =>
    rw [Bool.or_false, if_neg Bool.false_ne_true]
    split
    · exact (v_setV _ _ _ _).trans (if_pos rfl)
    · rfl

/-- What a machine becomes when a sprite is drawn with its left upper corner at some column and
row. -/
structure DrawsSprite (m : Machine) (edges : Edges) (sprite : List UInt8) (column row : Nat)
    (after : Machine) : Prop where
  /-- The sprite is on the screen. -/
  screen : after.screen = (m.screen.draw edges column row sprite).screen
  /-- A pixel was toggled just if a set bit of the sprite falls on it. -/
  pixel : ∀ (px : Fin 64) (py : Fin 32), after.screen.pixel px py =
    (m.screen.pixel px py ^^ decide (Covers edges column row sprite px py))
  /-- The flag tells whether a lit pixel was lost. If none was, the dialect says whether the flag is
  cleared or left. -/
  flag : after.v Registers.flag =
    if m.screen.Loses after.screen then 1
    else if m.dialect.drawClearsFlag = true then 0 else m.v Registers.flag
  /-- All other registers keep their bytes. -/
  registers : ∀ j, j ≠ Registers.flag → after.v j = m.v j
  /-- The index register stays. -/
  index : after.i = m.i
  /-- The next instruction comes next. -/
  counter : after.pc = m.pc.forward 2
  /-- Nothing else is different. -/
  rest : after = { m with registers := after.registers, screen := after.screen }

/-- A machine that is about to carry out `DXYN` draws the bytes in memory from the index register
on, round the end of memory if need be, at the column in `VX` and the row in `VY`. It does not
matter whether `X`, `Y` and the flag are different registers. -/
theorem step_draws_sprite {m : Machine} {x y height : Nibble} (h : m.Faces (.draw x y height)) :
    m.step.outcome = .ok (if m.dialect.drawEndsFrame then .nextFrame else .proceed) ∧
    m.DrawsSprite (if m.dialect.clipsSprites then .clip else .wrap)
      ((List.range height.val).map fun k => m.memory.read (m.i.forward k))
      (m.v x).toNat (m.v y).toNat m.step.machine := by
  obtain ⟨hout, hstep⟩ := h.step_eq rfl rfl
  refine ⟨hout, ?_⟩
  rw [hstep]
  change m.DrawsSprite m.edges (m.sprite height) (m.v x).toNat (m.v y).toNat
    (m.advance.draw x y height)
  have hlength : (m.sprite height).length ≤ 32 := by
    have hlt := height.isLt
    rw [sprite, Memory.length_readBytes]
    omega
  have hscreen : (m.advance.draw x y height).screen = (m.drawn x y height).screen :=
    m.advance.screen_draw x y height
  have hpixel : ∀ (px : Fin 64) (py : Fin 32), (m.drawn x y height).screen.pixel px py =
      (m.screen.pixel px py ^^
        decide (Covers m.edges (m.v x).toNat (m.v y).toNat (m.sprite height) px py)) :=
    fun _ _ => Screen.pixel_draw hlength m.screen
  have herased : (m.drawn x y height).erased = true ↔
      m.screen.Loses (m.drawn x y height).screen :=
    Screen.erased_draw_iff_loses hlength m.screen
  have hflag : (m.advance.draw x y height).v Registers.flag =
      if (m.drawn x y height).erased = true then 1
      else if m.dialect.drawClearsFlag = true then 0 else m.v Registers.flag :=
    m.advance.v_flag_draw x y height
  obtain ⟨r, s, hrest⟩ := m.advance.draw_screen x y height
  exact
    { screen := hscreen
      pixel := fun px py => by rw [hscreen, hpixel]
      flag := by rw [hflag, hscreen]; exact if_congr herased rfl rfl
      registers := fun j hj => m.advance.v_draw x y height hj
      index := m.advance.i_draw x y height
      counter := m.advance.pc_draw x y height
      rest := by rw [hrest]; rfl }

/-- A drawing of four rows that takes both coordinates from the flag register. -/
def flagDrawing : Instruction := .draw Registers.flag Registers.flag (.ofNat 4)

/-- A machine about to carry it out, with a sprite that lies across the end of memory. Where the
first bit will fall, a pixel is lit. -/
def colliding : Machine :=
  { create .cosmacVip (.ofSeed 0) with
    memory := Memory.cleared.writeBytes (.ofWord 0xFFE) [0xFF, 0x80, 0x80, 0xFF]
    registers := ⟨(NibbleTable.replicate 0).set Registers.flag 61, .ofWord 0xFFE, .ofWord 0x200⟩
    screen := (Screen.dark.draw .wrap 61 29 [0x80]).screen }.facing flagDrawing.encode

/-- The lit pixel is lost and the flag register, which held the coordinates, tells of it. The row is
drawn up to the right edge, and the last row of the sprite is cut off. -/
theorem colliding_loses_pixel :
    colliding.Faces flagDrawing ∧
      colliding.step.machine.v Registers.flag = 1 ∧
      colliding.step.machine.screen.pixel 61 29 = false ∧
      colliding.step.machine.screen.pixel 63 29 = true ∧
      colliding.step.machine.screen.pixel 0 29 = false ∧
      colliding.step.machine.screen.pixel 61 0 = false := by
  have hfaces : colliding.Faces flagDrawing := faces_facing rfl flagDrawing
  have hdraws := (step_draws_sprite hfaces).2
  obtain ⟨hedges, hsprite, hplace, hlit, hright, hleft, htop⟩ :
      (if colliding.dialect.clipsSprites then Edges.clip else .wrap) = .clip ∧
      ((List.range (Nibble.ofNat 4).val).map fun k =>
        colliding.memory.read (colliding.i.forward k)) = [0xFF, 0x80, 0x80, 0xFF] ∧
      (colliding.v Registers.flag).toNat = 61 ∧
      colliding.screen.pixel 61 29 = true ∧ colliding.screen.pixel 63 29 = false ∧
      colliding.screen.pixel 0 29 = false ∧ colliding.screen.pixel 61 0 = false := by
    decide +kernel
  rw [hedges, hsprite, hplace] at hdraws
  have hlost : colliding.step.machine.screen.pixel 61 29 = false := by
    rw [hdraws.pixel ⟨61, by decide⟩ ⟨29, by decide⟩, hlit]
    decide
  refine ⟨hfaces, ?_, hlost, ?_, ?_, ?_⟩
  · rw [hdraws.flag, if_pos ⟨⟨61, by decide⟩, ⟨29, by decide⟩, hlit, hlost⟩]
  · rw [hdraws.pixel ⟨63, by decide⟩ ⟨29, by decide⟩, hright]
    decide
  · rw [hdraws.pixel ⟨0, by decide⟩ ⟨29, by decide⟩, hleft]
    decide
  · rw [hdraws.pixel ⟨61, by decide⟩ ⟨0, by decide⟩, htop]
    decide

end Machine

end ChipEight
