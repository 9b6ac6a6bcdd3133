import ChipEight.Proofs.Windows

/-!
# What a pixel of the window shows

Showing the screen treats every pixel alike and by itself: its brightness and the four bytes that it
has in the frame depend on whether it is lit, on the time that has passed, and on its brightness
before, and the pixels follow one another row by row. So what a pixel shows after a long history is
a matter of its own exposures: of the times at which the screen was shown in an open window, and of
whether the pixel was lit then. What the other pixels did, and what the machine, its program and its
clocks did in between, can be told from these exposures only.

A window that is opened begins with an empty frame. It is opened once; if it were opened again, its
frame would be empty until the screen is shown the next time.
-/

namespace ChipEight

/-- Number of the pixel in a row and a column. Pixels are counted row by row. -/
def pixelNumber (row : Fin 32) (col : Fin 64) : Fin 2048 := ⟨64 * row.val + col.val, by omega⟩

/-- The brightness of the pixel in a row and a column. -/
def Phosphor.level (p : Phosphor) (row : Fin 32) (col : Fin 64) : Binary32 :=
  p.get (pixelNumber row col)

namespace Frame

/-- The bytes of a frame in the order in which it holds them. -/
def bytes (frame : Frame) : List UInt8 := frame.toList.flatMap Colour.bytes

/-- The four bytes that a frame holds for the pixel in a row and a column. -/
def bytesAt (frame : Frame) (row : Fin 32) (col : Fin 64) : List UInt8 :=
  ((bytes frame).drop (4 * (64 * row.val + col.val))).take 4

/-- Each colour takes up four bytes. -/
theorem take_drop_flatMap_bytes (colours : List Colour) (k : Nat) :
    ((colours.flatMap Colour.bytes).drop (4 * k)).take 4 = (colours[k]?.map Colour.bytes).getD [] := by
  induction colours generalizing k with
  | nil => rw [List.flatMap_nil, List.drop_nil, List.take_nil, List.getElem?_nil]; rfl
  | cons first rest ih =>
    cases k with
    | zero => rfl
    | succ k =>
      rw [List.getElem?_cons_succ, ← ih k]
      rfl

/-- The bytes that a frame holds for a pixel are those of its colour. -/
theorem bytesAt_eq (frame : Frame) (row : Fin 32) (col : Fin 64) :
    bytesAt frame row col = (frame.get (pixelNumber row col)).bytes := by
  have hcolour : frame.toList[64 * row.val + col.val]? = some (frame.get (pixelNumber row col)) := by
    rw [Vector.getElem?_toList]
    exact Vector.getElem?_eq_getElem (pixelNumber row col).isLt
  rw [bytesAt, bytes, take_drop_flatMap_bytes, hcolour]
  rfl

/-- A frame in which nothing was shown holds zeros. -/
theorem bytesAt_blank (row : Fin 32) (col : Fin 64) : bytesAt blank row col = [0, 0, 0, 0] := by
  have hcolour : blank.get (pixelNumber row col) = ⟨0, 0, 0, 0⟩ :=
    Vector.getElem_replicate (pixelNumber row col).isLt
  rw [bytesAt_eq, hcolour]
  rfl

/-- A frame that shows some brightness holds the bytes of its colour. -/
theorem bytesAt_frame (p : Phosphor) (row : Fin 32) (col : Fin 64) :
    bytesAt p.frame row col = [0, 255, 0, (p.level row col * 255).toByte] := by
  have hcolour : p.frame.get (pixelNumber row col) = .ofBrightness (p.level row col) :=
    Vector.getElem_map Colour.ofBrightness (pixelNumber row col).isLt
  rw [bytesAt_eq, hcolour]
  rfl

end Frame

/-- Brightness of a pixel after an exposure to the screen. -/
theorem Phosphor.level_expose (p : Phosphor) (screen : Screen) (elapsed : Binary32)
    (row : Fin 32) (col : Fin 64) :
    (p.expose screen elapsed).level row col =
      glow (screen.pixel col row) (fadeRate * elapsed) (p.level row col) := by
  have hcell : (p.expose screen elapsed).level row col =
      glow (screen.pixel ((64 * row.val + col.val) % 64) ((64 * row.val + col.val) / 64))
        (fadeRate * elapsed) (p.level row col) :=
    Vector.getElem_ofFn (pixelNumber row col).isLt
  have hcol : (64 * row.val + col.val) % 64 = col := by omega
  have hrow : (64 * row.val + col.val) / 64 = row := by omega
  rw [hcell, hcol, hrow]

/-- The screen as it was shown, and the time that had passed. -/
structure Exposure where
  /-- Seconds that had passed. -/
  elapsed : Binary32
  /-- The pixels. -/
  screen : Screen

namespace Exposure

/-- What one pixel sees of an exposure: the time that had passed, and whether the pixel was lit. -/
def seenBy (e : Exposure) (row : Fin 32) (col : Fin 64) : Binary32 × Bool :=
  (e.elapsed, e.screen.pixel col row)

/-- The brightness of a pixel after an exposure of which it sees this. -/
def fade (level : Binary32) (seen : Binary32 × Bool) : Binary32 :=
  Phosphor.glow seen.2 (fadeRate * seen.1) level

end Exposure

/-- Whether a happening opens the window. It does if the window system does its part. -/
def Happening.opens : Happening → Bool
  | .event (.opened .done .done) => true
  | _ => false

/-- No other happening opens the window. -/
theorem Happening.opens_iff (happening : Happening) :
    happening.opens = true ↔ happening = .event (.opened .done .done) := by
  constructor
  · intro h
    unfold opens at h
    split at h
    · rfl
    · cases h
  · rintro rfl
    rfl

namespace Window

/-- The exposure that a happening is, if the screen is put into the frame of an open window. A
redraw shows the screen that its time leaves, unless an instruction fails. -/
def exposure? (w : Window) (happening : Happening) : Option Exposure :=
  w.frame.bind fun _ =>
    match happening with
    | .render elapsed => some ⟨elapsed, w.pacer.machine.screen⟩
    | .redraw budget elapsed _ =>
      (w.pacer.update budget elapsed).bind fun u =>
        if u.outcome.isOk then some ⟨elapsed, u.pacer.machine.screen⟩ else none
    | _ => none

/-- The exposures of a history, in order. -/
def exposures (w : Window) : List Happening → List Exposure
  | [] => []
  | first :: rest =>
    (w.exposure? first).toList ++ (w.after first).elim [] fun next => next.exposures rest

/-- What a pixel sees of the exposures of a history. -/
def seenBy (w : Window) (history : List Happening) (row : Fin 32) (col : Fin 64) :
    List (Binary32 × Bool) :=
  (w.exposures history).map (·.seenBy row col)

/-- The bytes that a pixel has in the frame, once there is a frame. -/
def shownAt (w : Window) (row : Fin 32) (col : Fin 64) : Option (List UInt8) :=
  w.frame.map (Frame.bytesAt · row col)

/-- Before the window is open, showing the screen changes nothing. -/
theorem render_of_closed {w : Window} (h : w.frame = none) (elapsed : Binary32) :
    w.render elapsed = w := by
  unfold render
  rw [h]

/-- Once the window is open, showing the screen exposes the pixels and makes a frame of them. -/
theorem render_of_open {w : Window} {shown : Frame} (h : w.frame = some shown)
    (elapsed : Binary32) :
    w.render elapsed = { w with
      phosphor := w.phosphor.expose w.pacer.machine.screen elapsed,
      frame := some (w.phosphor.expose w.pacer.machine.screen elapsed).frame } := by
  unfold render
  rw [h]

section history

variable {w next last : Window} {happening : Happening} {history : List Happening}
  {row : Fin 32} {col : Fin 64}

/-- A key that is pressed or released is nothing to be seen. -/
theorem display_pressKey (w : Window) (code : String) (pressed : Bool) :
    (w.pressKey code pressed).phosphor = w.phosphor ∧
      (w.pressKey code pressed).frame = w.frame := by
  unfold pressKey
  split
  · exact ⟨rfl, rfl⟩
  · exact ⟨rfl, rfl⟩

/-- What is asked of the surface is nothing to be seen in the frame. -/
theorem display_ask (w : Window) (failure : String → Failure) (service : Service) :
    (w.ask failure service).phosphor = w.phosphor ∧ (w.ask failure service).frame = w.frame := by
  obtain ⟨reason, -, -, hask⟩ | ⟨-, hask⟩ := w.ask_cases failure service
  · rw [hask]
    exact ⟨rfl, rfl⟩
  · rw [hask]
    exact ⟨rfl, rfl⟩

/-- Before the window is open there are no exposures. -/
theorem exposure?_of_closed (h : w.frame = none) (happening : Happening) :
    w.exposure? happening = none := by
  unfold exposure?
  rw [h]
  rfl

/-- A redraw is an exposure if the window is open and no instruction fails, and else it leaves frame
and brightness alone. -/
theorem display_redraw {budget : Nat} {elapsed : Binary32} {surface : Service}
    (h : w.redraw budget elapsed surface = some next) :
    (∃ e, w.exposure? (.redraw budget elapsed surface) = some e ∧
      next.phosphor = w.phosphor.expose e.screen e.elapsed ∧
      next.frame = some next.phosphor.frame) ∨
    (w.exposure? (.redraw budget elapsed surface) = none ∧ next.phosphor = w.phosphor ∧
      next.frame = w.frame) := by
  obtain ⟨u, hupdate, ⟨fault, hfault, rfl⟩ | ⟨signal, hsignal, rfl⟩⟩ := redraw_cases h
  · refine .inr ⟨?_, rfl, rfl⟩
    cases hframe : w.frame with
    | none => exact exposure?_of_closed hframe _
    | some shown =>
      simp only [exposure?, hframe, hupdate, hfault, Option.bind_some]
      rfl
  · obtain ⟨hphosphor, hsame⟩ :=
      ({ w with pacer := u.pacer }.updateSound.render elapsed).display_ask .notShown surface
    rw [hphosphor, hsame]
    obtain hframe | ⟨shown, hframe⟩ := Option.eq_none_or_eq_some w.frame
    · have hclosed : { w with pacer := u.pacer }.updateSound.frame = none := hframe
      rw [render_of_closed hclosed]
      exact .inr ⟨exposure?_of_closed hframe _, rfl, rfl⟩
    · have hopen : { w with pacer := u.pacer }.updateSound.frame = some shown := hframe
      rw [render_of_open hopen]
      refine .inl ⟨⟨elapsed, u.pacer.machine.screen⟩, ?_, rfl, rfl⟩
      simp only [exposure?, hframe, hupdate, hsignal, Option.bind_some]
      rfl

/-- A happening opens the window, or it is an exposure, or it leaves frame and brightness alone. -/
theorem display_cases (h : w.after happening = some next) :
    (happening.opens = true ∧ w.exposure? happening = none ∧ next.phosphor = w.phosphor ∧
      next.frame = some .blank) ∨
    (∃ e, happening.opens = false ∧ w.exposure? happening = some e ∧
      next.phosphor = w.phosphor.expose e.screen e.elapsed ∧
      next.frame = some next.phosphor.frame) ∨
    (happening.opens = false ∧ w.exposure? happening = none ∧ next.phosphor = w.phosphor ∧
      next.frame = w.frame) := by
  have hnone : (∀ elapsed, happening ≠ .render elapsed) →
      (∀ budget elapsed surface, happening ≠ .redraw budget elapsed surface) →
      w.exposure? happening = none := by
    intro hrender hredraw
    cases hframe : w.frame with
    | none => exact exposure?_of_closed hframe happening
    | some shown =>
      unfold exposure?
      rw [hframe]
      cases happening with
      | render elapsed => exact absurd rfl (hrender elapsed)
      | redraw budget elapsed surface => exact absurd rfl (hredraw budget elapsed surface)
      | _ => rfl
  cases happening with
  | redraw budget elapsed surface =>
    obtain ⟨e, hsome, hshown⟩ | ⟨hunseen, hsame⟩ := display_redraw h
    · exact .inr (.inl ⟨e, rfl, hsome, hshown⟩)
    · exact .inr (.inr ⟨rfl, hunseen, hsame⟩)
  | elapse budget elapsed =>
    obtain ⟨u, -, rfl⟩ := Option.map_eq_some_iff.1 h
    exact .inr (.inr ⟨rfl, hnone nofun nofun, rfl, rfl⟩)
  | sound =>
    obtain rfl := Option.some.inj h
    exact .inr (.inr ⟨rfl, hnone nofun nofun, rfl, rfl⟩)
  | render elapsed =>
    obtain rfl := Option.some.inj h
    cases hframe : w.frame with
    | none =>
      rw [render_of_closed hframe]
      exact .inr (.inr ⟨rfl, exposure?_of_closed hframe _, rfl, hframe⟩)
    | some shown =>
      have hsome : w.exposure? (.render elapsed) = some ⟨elapsed, w.pacer.machine.screen⟩ := by
        rw [exposure?, hframe]
        rfl
      rw [render_of_open hframe]
      exact .inr (.inl ⟨_, rfl, hsome, rfl, rfl⟩)
  | event event =>
    obtain rfl := Option.some.inj h
    have hunseen : w.exposure? (.event event) = none := hnone nofun nofun
    have hcloses : event ≠ .opened .done .done → (Happening.event event).opens = false := by
      intro hother
      rw [← Bool.not_eq_true, Happening.opens_iff]
      exact fun hopens => hother (Happening.event.inj hopens)
    obtain ⟨code, pressed, rfl, hnext⟩ | ⟨hends, hnext⟩ | ⟨failure, hfails, hnext⟩ | ⟨rfl, hnext⟩ |
      ⟨-, -, -, hother, hnext⟩ := w.handle_cases event
    all_goals rw [hnext]
    · exact .inr (.inr ⟨rfl, hunseen, w.display_pressKey code pressed⟩)
    · refine .inr (.inr ⟨hcloses ?_, hunseen, rfl, rfl⟩)
      rintro rfl
      obtain hclose | ⟨code, pressed, hescape⟩ := hends
      · cases hclose
      · cases hescape
    · refine .inr (.inr ⟨hcloses ?_, hunseen, rfl, rfl⟩)
      rintro rfl
      cases hfails
    · exact .inl ⟨rfl, hunseen, rfl, rfl⟩
    · exact .inr (.inr ⟨hcloses hother, hunseen, rfl, rfl⟩)

/-- The exposures of a history are the one that its first happening is, if it is one, and those
that come later. -/
theorem seenBy_cons (h : w.after happening = some next) (rest : List Happening) :
    w.seenBy (happening :: rest) row col =
      ((w.exposure? happening).toList.map (·.seenBy row col)) ++ next.seenBy rest row col := by
  rw [seenBy, exposures, h, List.map_append]
  rfl

/-- The brightness of a pixel after a history is a matter of what it has seen. -/
theorem level_live (h : w.live history = some last) :
    last.phosphor.level row col =
      (w.seenBy history row col).foldl Exposure.fade (w.phosphor.level row col) := by
  induction history generalizing w with
  | nil =>
    obtain rfl := Option.some.inj h
    rfl
  | cons first rest ih =>
    obtain ⟨next, hfirst, hrest⟩ := live_cons_eq_some_iff.1 h
    rw [ih hrest, seenBy_cons hfirst, List.foldl_append]
    obtain ⟨-, hnone, hphosphor, -⟩ | ⟨e, -, hsome, hphosphor, -⟩ | ⟨-, hnone, hphosphor, -⟩ :=
      display_cases hfirst
    · rw [hnone, hphosphor]
      rfl
    · rw [hsome, hphosphor, Phosphor.level_expose]
      rfl
    · rw [hnone, hphosphor]
      rfl

/-- As long as the window is not opened again, the frame holds for a pixel what it did, or what the
brightness of the pixel asks for if there has been an exposure. -/
theorem shownAt_live (hopens : ∀ happening ∈ history, happening.opens = false)
    (h : w.live history = some last) :
    last.shownAt row col = if w.seenBy history row col = [] then w.shownAt row col
      else some [0, 255, 0, (last.phosphor.level row col * 255).toByte] := by
  induction history generalizing w with
  | nil =>
    obtain rfl := Option.some.inj h
    rfl
  | cons first rest ih =>
    obtain ⟨next, hfirst, hrest⟩ := live_cons_eq_some_iff.1 h
    have hfirstOpens := hopens first List.mem_cons_self
    rw [ih (fun happening hmem => hopens happening (List.mem_cons_of_mem _ hmem)) hrest,
      seenBy_cons hfirst]
    obtain ⟨hopens, -⟩ | ⟨e, -, hsome, -, hframe⟩ | ⟨-, hnone, -, hframe⟩ := display_cases hfirst
    · rw [hfirstOpens] at hopens
      cases hopens
    · rw [hsome]
      refine (ite_eq_right_iff.2 fun hnone => ?_).trans (if_neg (List.cons_ne_nil _ _)).symm
      have hlevel : last.phosphor.level row col = _ := level_live hrest
      rw [hnone] at hlevel
      rw [shownAt, hframe, Option.map_some, Frame.bytesAt_frame, hlevel]
      rfl
    · rw [hnone, shownAt, hframe]
      rfl

/-- If the window is opened once at most, the frame holds zeros for a pixel until the first
exposure, and then what the brightness of the pixel asks for. -/
theorem bytesAt_live (hclosed : w.frame = none) (honce : history.countP Happening.opens ≤ 1)
    (h : w.live history = some last) {frame : Frame} (hframe : last.frame = some frame) :
    Frame.bytesAt frame row col = if w.seenBy history row col = [] then [0, 0, 0, 0]
      else [0, 255, 0, (last.phosphor.level row col * 255).toByte] := by
  induction history generalizing w with
  | nil =>
    obtain rfl := Option.some.inj h
    rw [hclosed] at hframe
    cases hframe
  | cons first rest ih =>
    obtain ⟨next, hfirst, hrest⟩ := live_cons_eq_some_iff.1 h
    rw [seenBy_cons hfirst]
    obtain ⟨hopens, hnone, -, hblank⟩ | ⟨e, -, hsome, -⟩ | ⟨hopens, hnone, -, hsame⟩ :=
      display_cases hfirst
    · rw [List.countP_cons_of_pos hopens] at honce
      have hrestOpens : ∀ happening ∈ rest, happening.opens = false := fun happening hmem =>
        Bool.eq_false_iff.2 (List.countP_eq_zero.1 (by omega) happening hmem)
      have hshown : last.shownAt row col = _ := shownAt_live hrestOpens hrest
      rw [shownAt, shownAt, hframe, hblank, Option.map_some, Option.map_some, Frame.bytesAt_blank,
        ← apply_ite] at hshown
      rw [hnone]
      exact Option.some.inj hshown
    · rw [exposure?_of_closed hclosed] at hsome
      cases hsome
    · rw [List.countP_cons_of_neg (by rw [hopens]; exact Bool.false_ne_true)] at honce
      rw [hnone]
      exact ih (hsame.trans hclosed) honce hrest

end history

/-- What showing the screen in an open window does for a pixel. -/
structure Shows (w : Window) (elapsed : Binary32) (frame : Frame) (row : Fin 32) (col : Fin 64) :
    Prop where
  /-- The bytes of the pixel are those of full green that is as opaque as the pixel is bright. -/
  bytes : Frame.bytesAt frame row col =
    [0, 255, 0, ((w.render elapsed).phosphor.level row col * 255).toByte]
  /-- A lit pixel has brightness one and is opaque. -/
  lit : w.pacer.machine.screen.pixel col row = true →
    (w.render elapsed).phosphor.level row col = 1 ∧ Frame.bytesAt frame row col = [0, 255, 0, 255]
  /-- Any other pixel loses brightness at ten units each second, but no more than it has. -/
  dark : w.pacer.machine.screen.pixel col row = false →
    (w.render elapsed).phosphor.level row col =
      (w.phosphor.level row col - 10 * elapsed).positivePart

/-- Showing the screen in an open window treats every pixel like this. -/
theorem shows_render {w : Window} {shown : Frame} (h : w.frame = some shown)
    (elapsed : Binary32) : ∃ frame, (w.render elapsed).frame = some frame ∧
      ∀ row col, w.Shows elapsed frame row col := by
  refine ⟨(w.phosphor.expose w.pacer.machine.screen elapsed).frame, ?_, fun row col => ?_⟩
  · rw [render_of_open h]
  · have hlevel : (w.render elapsed).phosphor.level row col =
        Phosphor.glow (w.pacer.machine.screen.pixel col row) (fadeRate * elapsed)
          (w.phosphor.level row col) := by
      rw [render_of_open h]
      exact w.phosphor.level_expose w.pacer.machine.screen elapsed row col
    have hbytes : Frame.bytesAt (w.phosphor.expose w.pacer.machine.screen elapsed).frame row col =
        [0, 255, 0, ((w.render elapsed).phosphor.level row col * 255).toByte] := by
      rw [render_of_open h]
      exact Frame.bytesAt_frame _ row col
    refine ⟨hbytes, fun hlit => ?_, fun hdark => ?_⟩
    · have hone : (w.render elapsed).phosphor.level row col = 1 := by
        rw [hlevel, hlit]
        rfl
      have hopaque : ((1 : Binary32) * 255).toByte = 255 := by decide +kernel
      rw [hbytes, hone, hopaque]
      exact ⟨rfl, rfl⟩
    · rw [hlevel, hdark]
      rfl

/-- Showing the screen shows every pixel by itself. In an open window each pixel gets its brightness
and its four bytes in this way; in one that is not open yet nothing changes, and the machine never
does. After two histories, of two windows with any machines and programs, a pixel has the same
brightness if it has seen the same exposures, and it has the same bytes if both windows are open and
neither was opened twice, whatever the other pixels have seen. -/
theorem pixels_shown_by_themselves :
    (∀ (w : Window) (shown : Frame) (elapsed : Binary32), w.frame = some shown →
      ∃ frame, (w.render elapsed).frame = some frame ∧
        ∀ row col, w.Shows elapsed frame row col) ∧
    (∀ (p p' : Pacer) (history history' : List Happening) (last last' : Window)
      (row : Fin 32) (col : Fin 64),
      (start p).live history = some last → (start p').live history' = some last' →
      (start p).seenBy history row col = (start p').seenBy history' row col →
      last.phosphor.level row col = last'.phosphor.level row col ∧
        (history.countP Happening.opens ≤ 1 → history'.countP Happening.opens ≤ 1 →
          ∀ frame frame', last.frame = some frame → last'.frame = some frame' →
            Frame.bytesAt frame row col = Frame.bytesAt frame' row col)) ∧
    (∀ (w : Window) (elapsed : Binary32), w.frame = none → w.render elapsed = w) ∧
    ∀ (w : Window) (elapsed : Binary32), (w.render elapsed).pacer = w.pacer := by
  refine ⟨fun w shown elapsed h => shows_render h elapsed, ?_,
    fun w elapsed h => render_of_closed h elapsed, pacer_render⟩
  intro p p' history history' last last' row col h h' hsame
  have hlevel : last.phosphor.level row col = last'.phosphor.level row col := by
    rw [level_live h, level_live h', hsame]
    rfl
  refine ⟨hlevel, fun honce honce' frame frame' hframe hframe' => ?_⟩
  rw [bytesAt_live rfl honce h hframe, bytesAt_live rfl honce' h' hframe', hsame, hlevel]

/-- A pacer whose next instruction clears the screen, of which these rows are lit. -/
def clearing (lit : Fin 32 → Bool) : Pacer :=
  ⟨{ (Machine.create .modern (.ofSeed 0)).facing 0x00E0 with
      screen := ⟨.ofFn fun row => if lit row then .allOnes 64 else 0⟩ },
    ⟨1 / 512, 0⟩, ⟨1 / 64, 0⟩⟩

/-- The fifth row is lit. -/
def fifthRow : Pacer := clearing fun row => row = Screen.rowAt 5

/-- All rows are lit. -/
def allRows : Pacer := clearing fun _ => true

/-- The window is opened, and the screen is shown, cleared, and shown again. -/
def shownTwice : List Happening :=
  [.event (.opened .done .done), .render (1 / 64), .elapse 16 (1 / 512), .render (1 / 64)]

/-- The same, with other events, with an attempt to show the screen too early, and with a redraw
that fails in the end. -/
def shownThrice : List Happening :=
  [.render 1, .key "KeyX" true, .event (.opened .done .done), .render (1 / 64),
    .event .closeRequested, .elapse 16 (1 / 512), .sound, .render (1 / 64),
    .redraw 16 (1 / 64) .done]

/-- Two screens agree in the fifth row only. In the end their pixels there have the same bytes. -/
theorem fifthRow_like_allRows : ∃ last last' frame frame',
    (start fifthRow).live shownTwice = some last ∧ (start allRows).live shownThrice = some last' ∧
    last.frame = some frame ∧ last'.frame = some frame' ∧
    Frame.bytesAt frame (Screen.rowAt 5) (Fin.last 63) =
      Frame.bytesAt frame' (Screen.rowAt 5) (Fin.last 63) := by
  have hends : (((start fifthRow).live shownTwice).bind frame).isSome = true ∧
      (((start allRows).live shownThrice).bind frame).isSome = true := by
    decide +kernel
  have hseen : (start fifthRow).seenBy shownTwice (Screen.rowAt 5) (Fin.last 63) =
      (start allRows).seenBy shownThrice (Screen.rowAt 5) (Fin.last 63) := by
    decide +kernel
  obtain ⟨frame, hframe⟩ := Option.isSome_iff_exists.1 hends.1
  obtain ⟨frame', hframe'⟩ := Option.isSome_iff_exists.1 hends.2
  obtain ⟨last, hlast, hframe⟩ := Option.bind_eq_some_iff.1 hframe
  obtain ⟨last', hlast', hframe'⟩ := Option.bind_eq_some_iff.1 hframe'
  obtain ⟨-, hbytes⟩ := pixels_shown_by_themselves.2.1 _ _ _ _ _ _ _ _ hlast hlast' hseen
  exact ⟨last, last', frame, frame', hlast, hlast', hframe, hframe',
    hbytes (by decide) (by decide) frame frame' hframe hframe'⟩

end Window

end ChipEight
