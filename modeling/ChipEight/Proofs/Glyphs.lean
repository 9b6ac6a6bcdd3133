import ChipEight.Proofs.Landings
import ChipEight.Proofs.Seeds
import ChipEight.Proofs.Stores

/-!
# Glyphs

The font lies in memory from the start, below the program area. Loads do not touch it, so it stays
there as long as no program and no host stores a byte over it. Then `FX29` followed by `DXY5` draws
the glyph of a digit, wherever the program lies and whatever it has done before.
-/

namespace ChipEight

namespace Font

/-- The rows of the glyph for a digit. -/
def glyph (digit : Nibble) : List UInt8 :=
  (bytes.toList.drop (digit.val * glyphHeight)).take glyphHeight

/-- All glyphs are equally high. -/
theorem length_glyph (digit : Nibble) : (glyph digit).length = glyphHeight := by
  revert digit
  decide

/-- The glyphs lie one behind the other. -/
theorem glyphAddress_eq (digit : Nibble) :
    glyphAddress digit = (glyphAddress (.ofNat 0)).forward (digit.val * glyphHeight) := by
  revert digit
  decide

end Font

namespace Memory

/-- The font is where it was at the start. -/
def HasFont (m : Memory) : Prop :=
  m.readBytes (Font.glyphAddress (.ofNat 0)) 80 = Font.bytes.toList

/-- The memory of a new machine has the font. -/
theorem hasFont_initial : initial.HasFont :=
  cleared.readBytes_writeBytes (Font.glyphAddress (.ofNat 0)) (by decide)

/-- Memory that has the font has each glyph at its address. -/
theorem HasFont.readBytes_glyph {m : Memory} (h : m.HasFont) (digit : Nibble) :
    m.readBytes (Font.glyphAddress digit) Font.glyphHeight = Font.glyph digit := by
  have hinside : digit.val * Font.glyphHeight + Font.glyphHeight ≤ 80 := by
    have hlt := digit.isLt
    unfold Font.glyphHeight
    omega
  rw [Font.glyphAddress_eq, m.readBytes_forward _ hinside, h, Font.glyph]

/-- Memory has the font as long as all cells of the font keep their bytes. -/
theorem HasFont.of_read_eq {m m' : Memory} (h : m.HasFont)
    (hread : ∀ b : Address, 0x50 ≤ b.val → b.val < 0xA0 → m'.read b = m.read b) : m'.HasFont := by
  refine Eq.trans (List.map_congr_left fun k hk => ?_) h
  have hlt := List.mem_range.1 hk
  have hplace : ((Font.glyphAddress (.ofNat 0)).forward k).val = 0x50 + k :=
    Nat.mod_eq_of_lt (show 0x50 + k < 4096 by omega)
  exact hread _ (by omega) (by omega)

end Memory

namespace Machine

/-- No operation of a session but a load stores a byte in a cell of the font. -/
def SparesFont (m : Machine) (session : List Operation) : Prop :=
  ∀ i operation, session[i]? = some operation →
    ∀ b ∈ (m.before session i).storedAt operation, b.val < 0x50 ∨ 0xA0 ≤ b.val

/-- The font stays in memory through a session that spares it. -/
theorem SparesFont.hasFont {m : Machine} {session : List Operation} (h : m.SparesFont session)
    (hfont : m.memory.HasFont) : (m.performAll session).memory.HasFont := by
  refine hfont.of_read_eq fun b hlow hhigh => ?_
  refine read_performAll_of_not_storedAt (by omega) fun i operation hoperation hstored => ?_
  have hspares := h i operation hoperation b hstored
  omega

/-- The machine with other registers, and so with another program counter and index register. -/
def withRegisters (m : Machine) (r : Registers) : Machine := { m with registers := r }

/-- A machine with its own registers is the machine itself. -/
@[simp] theorem withRegisters_self (m : Machine) : m.withRegisters m.registers = m := rfl

/-- A machine shows what another one did with a glyph drawn over it: that for the last digit of
`VX`, with its left upper corner at column `VA` and row `VB`. -/
structure ShowsGlyph (m : Machine) (x a b : Nibble) (after : Machine) : Prop where
  /-- The glyph was drawn as the dialect draws at the edges. -/
  screen : after.screen = (m.screen.draw m.edges (m.v a).toNat (m.v b).toNat
    (Font.glyph (.ofByte (m.v x)))).screen
  /-- A pixel was toggled just if a set bit of the glyph falls on it. -/
  pixel : ∀ (px : Fin 64) (py : Fin 32), after.screen.pixel px py = (m.screen.pixel px py ^^
    decide (Covers m.edges (m.v a).toNat (m.v b).toNat (Font.glyph (.ofByte (m.v x))) px py))

/-- The word of `FX29`. -/
def glyphWord (x : Nibble) : UInt16 := .ofNat (0xF029 + 0x100 * x.val)

/-- The word of `DXY5`. -/
def drawWord (x y : Nibble) : UInt16 := .ofNat (0xD005 + 0x100 * x.val + 0x10 * y.val)

/-- The word of `FX29` is the instruction that points at a glyph. -/
theorem decode_glyphWord (x : Nibble) : Instruction.decode (glyphWord x) = .pointAtGlyph x := by
  revert x
  decide

/-- The word of `DXY5` is the instruction that draws five rows. -/
theorem decode_drawWord (x y : Nibble) :
    Instruction.decode (drawWord x y) = .draw x y (.ofNat 5) := by
  revert x y
  decide +kernel

/-- What is on the screen after a sprite was drawn. -/
theorem screen_draw (m : Machine) (x y height : Nibble) : (m.draw x y height).screen =
    (m.screen.draw m.edges (m.v x).toNat (m.v y).toNat (m.sprite height)).screen := by
  unfold draw
  dsimp only
  split <;> rfl

/-- Where memory has the font, `FX29` and then `DXY5` draw a glyph, wherever they lie. -/
theorem showsGlyph_of_hasFont (m : Machine) (hfont : m.memory.HasFont) (place next : Address)
    (x a b : Nibble) : m.ShowsGlyph x a b
      ((m.execute place (.pointAtGlyph x)).machine.execute next (.draw a b (.ofNat 5))).machine := by
  have hsprite : (m.advance.pointAt (Font.glyphAddress (.ofByte (m.v x)))).advance.sprite
      (.ofNat 5) = Font.glyph (.ofByte (m.v x)) := hfont.readBytes_glyph (.ofByte (m.v x))
  have hscreen := screen_draw (m.advance.pointAt (Font.glyphAddress (.ofByte (m.v x)))).advance a b
    (.ofNat 5)
  rw [hsprite] at hscreen
  refine ⟨hscreen, fun px py => ?_⟩
  have hheight : (Font.glyph (.ofByte (m.v x))).length ≤ 32 := by
    rw [Font.length_glyph]
    decide
  refine (congrArg (·.pixel px py) hscreen).trans ?_
  exact Screen.pixel_draw hheight m.screen

/-- Two steps draw a glyph. -/
structure StepsShowGlyph (m : Machine) (x a b : Nibble) : Prop where
  /-- The first step asks to go on. -/
  first : m.step.outcome = .ok .proceed
  /-- The second one does not fail either; it asks for what the dialect wants of a drawing. -/
  second : m.step.machine.step.outcome =
    .ok (if m.dialect.drawEndsFrame then .nextFrame else .proceed)
  /-- They show the glyph. -/
  shows : m.ShowsGlyph x a b m.step.machine.step.machine

/-- Where memory has the font and the words of `FX29` and `DXY5` come next, two steps draw a
glyph. -/
theorem stepsShowGlyph_of_hasFont (m : Machine) (hfont : m.memory.HasFont) (hready : m.keyWait = none)
    {x a b : Nibble} (hfirst : m.fetch = glyphWord x)
    (hsecond : m.memory.readWord (m.pc.forward 2) = drawWord a b) : m.StepsShowGlyph x a b := by
  have hpoint : m.instruction = .pointAtGlyph x := by
    rw [instruction, hfirst, decode_glyphWord]
  obtain ⟨hout, hstep⟩ := step_of_instruction hready hpoint rfl
  have hdraw : m.step.machine.instruction = .draw a b (.ofNat 5) := by
    have hfetch : m.step.machine.fetch = drawWord a b := by
      rw [hstep]
      exact hsecond
    rw [instruction, hfetch, decode_drawWord]
  have hnext : m.step.machine.keyWait = none := by
    rw [hstep]
    exact hready
  have hdialect : m.step.machine.dialect = m.dialect := m.dialect_step
  obtain ⟨hout', hstep'⟩ := step_of_instruction hnext hdraw rfl
  refine ⟨hout, ?_, ?_⟩
  · rw [← hdialect]
    exact hout'
  · rw [hstep', hstep]
    exact m.showsGlyph_of_hasFont hfont m.pc _ x a b

/-- The font outlives every run of a new machine, with any dialect and any random stream, in which
no `FX33` or `FX55` that is carried out, and no byte that the host stores, goes to one of its cells;
loads may be as many and as large as they like. Then `FX29` and `DXY5` draw the glyph for the last
digit of `VX` at column `VA` and row `VB`, over the edges or up to them as the dialect says, whatever
the registers hold; and if no wait for a key is pending, two steps do it where the words come
next. -/
theorem font_outlives_runs {dialect : Dialect} {random : RandomStream}
    {session : List Operation} {m : Machine}
    (h : (create dialect random).SparesFont session)
    (hm : m = (create dialect random).performAll session) :
    m.memory.HasFont ∧ m.dialect = dialect ∧
    ∀ (r : Registers) (x a b : Nibble),
      (∀ place next, (m.withRegisters r).ShowsGlyph x a b
        (((m.withRegisters r).execute place (.pointAtGlyph x)).machine.execute next
          (.draw a b (.ofNat 5))).machine) ∧
      (m.keyWait = none → m.memory.readWord r.pc = glyphWord x →
        m.memory.readWord (r.pc.forward 2) = drawWord a b →
        (m.withRegisters r).StepsShowGlyph x a b) := by
  have hfont : m.memory.HasFont := by
    rw [hm]
    exact h.hasFont Memory.hasFont_initial
  have hdialect : m.dialect = dialect := by
    rw [hm]
    exact dialect_performAll _ session
  refine ⟨hfont, hdialect, fun r x a b => ⟨fun place next => ?_, fun hready hfirst hsecond => ?_⟩⟩
  · exact (m.withRegisters r).showsGlyph_of_hasFont hfont place next x a b
  · exact (m.withRegisters r).stepsShowGlyph_of_hasFont hfont hready hfirst hsecond

/-- A new machine is given a program that stores the decimal digits of 137 behind itself and comes
to where it draws the last hexadecimal digit of this number. -/
def scoring : List Operation :=
  .load [0x63, 0x89, 0xA3, 0x00, 0xF3, 0x33, 0x64, 0x3E, 0x65, 0x1D, 0xF3, 0x29, 0xD4, 0x55] ::
    .replicate 5 .step

/-- The machine that comes to draw. -/
def scored : Machine := (create .cosmacVip (.ofSeed 0)).performAll scoring

/-- The cells that the decimal digits go to. -/
def digitCells : List Address := [.ofWord 0x300, .ofWord 0x301, .ofWord 0x302]

/-- The digits do not fall on the font. -/
theorem sparesFont_scoring :
    (create .cosmacVip (.ofSeed 0)).SparesFont scoring := by
  have hstored : ∀ i : Fin 6, ((create .cosmacVip (.ofSeed 0)).before scoring
      i).storedAt (scoring.get i) = if i.val = 3 then digitCells else [] := by
    decide +kernel
  have hspared : ∀ b ∈ digitCells, b.val < 0x50 ∨ 0xA0 ≤ b.val := by
    simp [digitCells, Address.ofWord]
  intro i operation hoperation
  obtain ⟨hlt, rfl⟩ := List.getElem?_eq_some_iff.1 hoperation
  have hcells : ((create .cosmacVip (.ofSeed 0)).before scoring i).storedAt
      scoring[i] = if i = 3 then digitCells else [] := hstored ⟨i, hlt⟩
  rw [hcells]
  split
  · exact hspared
  · intro b hb
    cases hb

/-- Two more steps draw the glyph for the digit nine, cut off at the lower right corner. -/
theorem scored_shows_nine :
    (create .cosmacVip (.ofSeed 0)).SparesFont scoring ∧
      scored.step.machine.step.machine.screen =
        (Screen.dark.draw .clip 62 29 [0xF0, 0x90, 0xF0, 0x10, 0xF0]).screen := by
  obtain ⟨hready, hfirst, hsecond, hglyph, hcolumn, hrow, hedges, hdark⟩ :
      scored.keyWait = none ∧
      scored.memory.readWord scored.pc = glyphWord (.ofNat 3) ∧
      scored.memory.readWord (scored.pc.forward 2) = drawWord (.ofNat 4) (.ofNat 5) ∧
      Font.glyph (.ofByte (scored.v (.ofNat 3))) = [0xF0, 0x90, 0xF0, 0x10, 0xF0] ∧
      scored.v (.ofNat 4) = 62 ∧ scored.v (.ofNat 5) = 29 ∧ scored.edges = .clip ∧
      scored.screen = .dark := by
    decide +kernel
  obtain ⟨-, -, hglyphs⟩ := font_outlives_runs sparesFont_scoring (show scored = _ from rfl)
  have hsteps := (hglyphs scored.registers (.ofNat 3) (.ofNat 4) (.ofNat 5)).2 hready hfirst hsecond
  rw [withRegisters_self] at hsteps
  have hscreen := hsteps.shows.screen
  rw [hglyph, hcolumn, hrow, hedges, hdark] at hscreen
  exact ⟨sparesFont_scoring, hscreen⟩

end Machine

end ChipEight
