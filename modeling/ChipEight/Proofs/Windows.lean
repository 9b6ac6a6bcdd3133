import ChipEight.FrontEnd.Window
import ChipEight.Proofs.Halting
import ChipEight.Proofs.KeyWait

/-!
# What happens to a window

In front of a window one thing happens after the other: the window system reports an event or asks
for a redraw, time elapses in the machine, the screen is shown, the tone is switched. Of all this
only reports about the keyboard reach the keypad. So which keys of the machine are held is a matter
of the last report about the keyboard key that stands for each of them, and nothing in between
matters. The key that means escape is never such a report, wherever it lies; it ends the program, as
closing the window does, and the program does not think better of it.

The program also ends when something fails: when an instruction fails while a redraw lets time
elapse, or when the window system does not serve a request. What it serves is part of the history,
and `Happening.Served` says that it does what it is asked for.
-/

namespace ChipEight

/-- Something that happens to a window. -/
inductive Happening where
  /-- The window system reports an event. -/
  | event (event : WindowEvent)
  /-- The window system asks for a redraw. The clocks may each give out as many cycles as the budget
  says. -/
  | redraw (budget : Nat) (elapsed : Binary32) (surface : Service)
  /-- Time elapses in the machine without a redraw, and whoever lets it elapse takes note of the
  outcome. -/
  | elapse (budget : Nat) (elapsed : Binary32)
  /-- The screen is put into the frame without a redraw. -/
  | render (elapsed : Binary32)
  /-- The tone is switched on or off. -/
  | sound

namespace Happening

/-- A keyboard key that does not mean escape is pressed or released. -/
def key (code : String) (pressed : Bool) : Happening := .event (.keyboard code pressed false)

/-- The window is closed by the user, or the key that means escape is pressed or released. -/
def Ends (happening : Happening) : Prop :=
  happening = .event .closeRequested ∨
    ∃ code pressed, happening = .event (.keyboard code pressed true)

/-- The window system does what it is asked for. -/
def Served : Happening → Prop
  | .event (.opened window surface) => window = .done ∧ surface = .done
  | .event (.resized _ _ surface) => surface = .done
  | .redraw _ _ surface => surface = .done
  | _ => True

/-- A report about a key does not end the program. -/
theorem not_ends_key (code : String) (pressed : Bool) : ¬(key code pressed).Ends := nofun

/-- The last report about a keyboard key is that it was pressed. -/
def LastPressed (history : List Happening) (code : String) : Prop :=
  ∃ earlier later, history = earlier ++ key code true :: later ∧
    ∀ pressed, key code pressed ∉ later

/-- Nothing was pressed as long as nothing has happened. -/
theorem not_lastPressed_nil (code : String) : ¬LastPressed [] code := by
  rintro ⟨earlier, later, hhistory, -⟩
  exact List.cons_ne_nil _ _ (List.append_eq_nil_iff.1 hhistory.symm).2

/-- The last report is among those that come later, or it is the first one and there are no
others. -/
theorem lastPressed_cons_iff (first : Happening) (rest : List Happening) (code : String) :
    LastPressed (first :: rest) code ↔ LastPressed rest code ∨
      first = key code true ∧ ∀ pressed, key code pressed ∉ rest := by
  constructor
  · rintro ⟨earlier, later, hhistory, hlast⟩
    cases earlier with
    | nil =>
      obtain ⟨rfl, rfl⟩ := List.cons.inj hhistory
      exact .inr ⟨rfl, hlast⟩
    | cons other earlier =>
      obtain ⟨rfl, rfl⟩ := List.cons.inj hhistory
      exact .inl ⟨earlier, later, rfl, hlast⟩
  · rintro (⟨earlier, later, rfl, hlast⟩ | ⟨rfl, hnone⟩)
    · exact ⟨first :: earlier, later, rfl, hlast⟩
    · exact ⟨[], rest, rfl, hnone⟩

end Happening

namespace KeyMap

/-- Different keys of the machine have different keyboard keys. -/
theorem codes_inj {key other : Nibble} (h : codes.get key = codes.get other) : key = other := by
  revert key other
  decide +kernel

/-- A keyboard key stands for the key of the machine whose keyboard key it is. -/
theorem key?_eq_some_iff (code : String) (key : Nibble) :
    key? code = some key ↔ codes.get key = code := by
  constructor
  · intro h
    have hfound := List.find?_some (p := fun key => codes.get key == code) h
    exact beq_iff_eq.1 hfound
  · rintro rfl
    cases hsearch : key? (codes.get key) with
    | none =>
      have hmissing := List.find?_eq_none.1 hsearch key (List.mem_finRange key)
      exact absurd (beq_iff_eq.2 rfl) hmissing
    | some other =>
      have hfound := List.find?_some (p := fun other => codes.get other == codes.get key) hsearch
      rw [codes_inj (beq_iff_eq.1 hfound)]

end KeyMap

namespace Machine

/-- Operations of one kind that do not touch a key leave it, however many there are. -/
theorem hold_replicate {operation : Operation} {key : Nibble}
    (h : ∀ held, operation.hold key held = held) (held : Bool) (count : Nat) :
    (List.replicate count operation).foldl (Operation.hold key) held = held := by
  induction count with
  | zero => rfl
  | succ count ih => rw [List.replicate_succ, List.foldl_cons, h, ih]

end Machine

/-- No key is pressed or released while time elapses in a machine. -/
theorem Pacer.holds_of_update {p : Pacer} {budget : Nat} {elapsed : Binary32} {u : Update}
    (h : p.update budget elapsed = some u) (key : Nibble) :
    u.pacer.machine.keypad.holds key = p.machine.keypad.holds key := by
  rw [(paced_of_update h).machine, Machine.holds_performAll, List.foldl_append,
    Machine.hold_replicate fun _ => rfl, Machine.hold_replicate fun _ => rfl]

namespace Window

/-- What a happening makes of a window. Time that elapses makes nothing of it if the update does
not come to an end within its budget. -/
def after (w : Window) : Happening → Option Window
  | .event event => some (w.handle event)
  | .redraw budget elapsed surface => w.redraw budget elapsed surface
  | .elapse budget elapsed =>
    (w.pacer.update budget elapsed).map fun u => { w with pacer := u.pacer }
  | .render elapsed => some (w.render elapsed)
  | .sound => some w.updateSound

/-- What a history makes of a window, if all its updates come to an end. -/
def live (w : Window) : List Happening → Option Window
  | [] => some w
  | first :: rest => (w.after first).bind fun next => next.live rest

/-- A happening fails in the window that it finds. -/
inductive Fails (w : Window) : Happening → Failure → Prop where
  /-- There is no window to open. -/
  | window {reason : String} {surface : Service} :
    Fails w (.event (.opened (.failed reason) surface)) (.noWindow reason)
  /-- There is a window, but no surface in it. -/
  | surface {reason : String} :
    Fails w (.event (.opened .done (.failed reason))) (.noSurface reason)
  /-- The surface of an open window does not take on its size. -/
  | size {width height : Nat} {reason : String} (hopen : w.frame.isSome = true) :
    Fails w (.event (.resized width height (.failed reason))) (.notResized reason)
  /-- An instruction fails in the time that a redraw lets elapse. -/
  | fault {budget : Nat} {elapsed : Binary32} {surface : Service} {u : Update} {fault : Fault}
    (hupdate : w.pacer.update budget elapsed = some u) (hfault : u.outcome = .error fault) :
    Fails w (.redraw budget elapsed surface) (.halted fault)
  /-- No instruction fails, but the surface of an open window does not show the frame. -/
  | frame {budget : Nat} {elapsed : Binary32} {reason : String} {u : Update} {signal : Signal}
    (hupdate : w.pacer.update budget elapsed = some u) (hsignal : u.outcome = .ok signal)
    (hopen : w.frame.isSome = true) :
    Fails w (.redraw budget elapsed (.failed reason)) (.notShown reason)

/-- A happening of a history fails in the window that the history has led to. -/
def Meets (w : Window) (history : List Happening) (failure : Failure) : Prop :=
  ∃ earlier happening later found, history = earlier ++ happening :: later ∧
    w.live earlier = some found ∧ found.Fails happening failure

/-- A history goes on from what its first happening makes of the window. -/
theorem live_cons_eq_some_iff {w last : Window} {first : Happening} {rest : List Happening} :
    w.live (first :: rest) = some last ↔
      ∃ next, w.after first = some next ∧ next.live rest = some last :=
  Option.bind_eq_some_iff

/-- Nothing has failed as long as nothing has happened. -/
theorem not_meets_nil (w : Window) (failure : Failure) : ¬w.Meets [] failure := by
  rintro ⟨earlier, happening, later, -, hhistory, -⟩
  exact List.cons_ne_nil _ _ (List.append_eq_nil_iff.1 hhistory.symm).2

/-- A history meets with a failure if its first happening fails, or if the rest of it meets with the
failure. -/
theorem meets_cons_iff {w next : Window} {first : Happening} (h : w.after first = some next)
    (rest : List Happening) (failure : Failure) :
    w.Meets (first :: rest) failure ↔ w.Fails first failure ∨ next.Meets rest failure := by
  constructor
  · rintro ⟨earlier, happening, later, found, hhistory, hfound, hfails⟩
    cases earlier with
    | nil =>
      obtain ⟨rfl, rfl⟩ := List.cons.inj hhistory
      obtain rfl := Option.some.inj hfound
      exact .inl hfails
    | cons other earlier =>
      obtain ⟨rfl, rfl⟩ := List.cons.inj hhistory
      obtain ⟨between, hbetween, hfound⟩ := live_cons_eq_some_iff.1 hfound
      obtain rfl := Option.some.inj (h.symm.trans hbetween)
      exact .inr ⟨earlier, happening, later, found, rfl, hfound, hfails⟩
  · rintro (hfails | ⟨earlier, happening, later, found, rfl, hfound, hfails⟩)
    · exact ⟨[], first, rest, w, rfl, rfl, hfails⟩
    · exact ⟨first :: earlier, happening, later, found, rfl,
        live_cons_eq_some_iff.2 ⟨next, h, hfound⟩, hfails⟩

/-- Asking something of the surface fails if it is not served in an open window. -/
theorem ask_cases (w : Window) (failure : String → Failure) (service : Service) :
    (∃ reason, service = .failed reason ∧ w.frame.isSome = true ∧
      w.ask failure service = w.fail (failure reason)) ∨
    ((∀ reason, service = .failed reason → w.frame.isSome = false) ∧
      w.ask failure service = w) := by
  cases service with
  | done => exact .inr ⟨nofun, rfl⟩
  | failed reason =>
    cases hframe : w.frame.isSome with
    | true => exact .inl ⟨reason, rfl, rfl, if_pos hframe⟩
    | false => exact .inr ⟨fun _ _ => rfl, if_neg (by rw [hframe]; exact Bool.false_ne_true)⟩

/-- Asking something of the surface changes neither the machine nor its clocks. -/
theorem pacer_ask (w : Window) (failure : String → Failure) (service : Service) :
    (w.ask failure service).pacer = w.pacer := by
  obtain ⟨reason, -, -, hask⟩ | ⟨-, hask⟩ := w.ask_cases failure service
  · rw [hask]
    rfl
  · rw [hask]

/-- Showing the screen changes neither the machine nor its clocks. -/
theorem pacer_render (w : Window) (elapsed : Binary32) :
    (w.render elapsed).pacer = w.pacer := by
  unfold render
  split
  · rfl
  · rfl

/-- Showing the screen does not open the window. -/
theorem isSome_frame_render (w : Window) (elapsed : Binary32) :
    (w.render elapsed).frame.isSome = w.frame.isSome := by
  unfold render
  split
  · rfl
  · next hframe => simp only [hframe, Option.isSome_some]

/-- Showing the screen does not end the program. -/
theorem exit_render (w : Window) (elapsed : Binary32) :
    (w.render elapsed).exiting = w.exiting ∧ (w.render elapsed).failure = w.failure := by
  unfold render
  split
  · exact ⟨rfl, rfl⟩
  · exact ⟨rfl, rfl⟩

/-- Pressing or releasing a key does not end the program. -/
theorem exit_pressKey (w : Window) (code : String) (pressed : Bool) :
    (w.pressKey code pressed).exiting = w.exiting ∧
      (w.pressKey code pressed).failure = w.failure := by
  unfold pressKey
  split
  · exact ⟨rfl, rfl⟩
  · exact ⟨rfl, rfl⟩

/-- What an event makes of a window: it is a report about a key, or it ends the program, or it
fails, or it opens the window, or it is none of these and changes nothing. -/
theorem handle_cases (w : Window) (event : WindowEvent) :
    (∃ code pressed, event = .keyboard code pressed false ∧
      w.handle event = w.pressKey code pressed) ∨
    ((Happening.event event).Ends ∧ w.handle event = { w with exiting := true }) ∨
    (∃ failure, w.Fails (.event event) failure ∧ w.handle event = w.fail failure) ∨
    (event = .opened .done .done ∧ w.handle event = { w with frame := some .blank }) ∨
    ((∀ code pressed, .key code pressed ≠ Happening.event event) ∧
      ¬(Happening.event event).Ends ∧ (∀ failure, ¬w.Fails (.event event) failure) ∧
      event ≠ .opened .done .done ∧ w.handle event = w) := by
  cases event with
  | opened window surface =>
    cases window with
    | failed reason => exact .inr (.inr (.inl ⟨.noWindow reason, .window, rfl⟩))
    | done =>
      cases surface with
      | failed reason => exact .inr (.inr (.inl ⟨.noSurface reason, .surface, rfl⟩))
      | done => exact .inr (.inr (.inr (.inl ⟨rfl, rfl⟩)))
  | keyboard code pressed escape =>
    cases escape with
    | true => exact .inr (.inl ⟨.inr ⟨code, pressed, rfl⟩, rfl⟩)
    | false => exact .inl ⟨code, pressed, rfl, rfl⟩
  | closeRequested => exact .inr (.inl ⟨.inl rfl, rfl⟩)
  | resized width height surface =>
    obtain ⟨reason, rfl, hframe, hask⟩ | ⟨hserved, hask⟩ := w.ask_cases .notResized surface
    · exact .inr (.inr (.inl ⟨.notResized reason, .size hframe, hask⟩))
    · refine .inr (.inr (.inr (.inr ⟨nofun, nofun, fun failure hfails => ?_, nofun, hask⟩)))
      cases hfails with
      | size hframe =>
        rw [hserved _ rfl] at hframe
        cases hframe
  | other => exact .inr (.inr (.inr (.inr ⟨nofun, nofun, nofun, nofun, rfl⟩)))

/-- An event leaves the clocks and all of the machine but its keypad. -/
theorem pacer_handle (w : Window) (event : WindowEvent) : ∃ keypad,
    (w.handle event).pacer = { w.pacer with machine := { w.pacer.machine with keypad } } := by
  obtain ⟨code, pressed, -, hnext⟩ | ⟨-, hnext⟩ | ⟨failure, -, hnext⟩ | ⟨-, hnext⟩ |
    ⟨-, -, -, -, hnext⟩ := w.handle_cases event
  · rw [hnext]
    unfold pressKey
    split
    · next key _ => exact ⟨w.pacer.machine.keypad.set key pressed, rfl⟩
    · exact ⟨w.pacer.machine.keypad, rfl⟩
  all_goals
    rw [hnext]
    exact ⟨w.pacer.machine.keypad, rfl⟩

section happening

variable {w next last : Window} {happening : Happening} {history : List Happening}

/-- What a redraw makes of a window: it fails in the time that it lets elapse, or it switches the
tone, puts the screen into the frame and asks the surface to show that. -/
theorem redraw_cases {budget : Nat} {elapsed : Binary32} {surface : Service}
    (h : w.redraw budget elapsed surface = some next) :
    ∃ u, w.pacer.update budget elapsed = some u ∧
      ((∃ fault, u.outcome = .error fault ∧
        next = { w with pacer := u.pacer }.fail (.halted fault)) ∨
      ∃ signal, u.outcome = .ok signal ∧
        next = ({ w with pacer := u.pacer }.updateSound.render elapsed).ask .notShown surface) := by
  obtain ⟨u, hupdate, rfl⟩ := Option.map_eq_some_iff.1 h
  refine ⟨u, hupdate, ?_⟩
  cases u.outcome with
  | error fault => exact .inl ⟨fault, rfl, rfl⟩
  | ok signal => exact .inr ⟨signal, rfl, rfl⟩

/-- A redraw lets the time elapse in the machine and changes nothing else of it. -/
theorem pacer_redraw {budget : Nat} {elapsed : Binary32} {surface : Service}
    (h : w.redraw budget elapsed surface = some next) :
    ∃ u, w.pacer.update budget elapsed = some u ∧ next.pacer = u.pacer := by
  obtain ⟨u, hupdate, ⟨fault, -, rfl⟩ | ⟨signal, -, rfl⟩⟩ := redraw_cases h
  · exact ⟨u, hupdate, rfl⟩
  · exact ⟨u, hupdate, (pacer_ask _ _ _).trans (pacer_render _ elapsed)⟩

/-- Whether a key of the machine is held after a keyboard key was pressed or released. -/
theorem holds_pressKey (w : Window) (code : String) (pressed : Bool) (key : Nibble) :
    (w.pressKey code pressed).pacer.machine.keypad.holds key =
      if KeyMap.codes.get key = code then pressed else w.pacer.machine.keypad.holds key := by
  unfold pressKey
  split
  · next other hother =>
    have hcode := (KeyMap.key?_eq_some_iff code other).1 hother
    have hset : (w.pacer.machine.setKey other pressed).keypad.holds key =
        if other = key then pressed else w.pacer.machine.keypad.holds key :=
      w.pacer.machine.keypad.holds_set other key pressed
    refine hset.trans (if_congr ⟨fun h => ?_, fun h => ?_⟩ rfl rfl)
    · rw [← h]
      exact hcode
    · exact KeyMap.codes_inj (hcode.trans h.symm)
  · next hnone =>
    refine (if_neg fun hcode => ?_).symm
    rw [(KeyMap.key?_eq_some_iff code key).2 hcode] at hnone
    cases hnone

/-- A happening is a report about a key, or it neither presses nor releases a key of the machine. -/
theorem key_cases (h : w.after happening = some next) :
    (∃ code pressed, happening = .key code pressed ∧ next = w.pressKey code pressed) ∨
    ((∀ code pressed, .key code pressed ≠ happening) ∧
      ∀ key, next.pacer.machine.keypad.holds key = w.pacer.machine.keypad.holds key) := by
  cases happening with
  | redraw budget elapsed surface =>
    obtain ⟨u, hupdate, hpacer⟩ := pacer_redraw h
    refine .inr ⟨nofun, fun key => ?_⟩
    rw [hpacer, Pacer.holds_of_update hupdate]
  | elapse budget elapsed =>
    obtain ⟨u, hupdate, rfl⟩ := Option.map_eq_some_iff.1 h
    exact .inr ⟨nofun, Pacer.holds_of_update hupdate⟩
  | render elapsed =>
    obtain rfl := Option.some.inj h
    refine .inr ⟨nofun, fun key => ?_⟩
    rw [pacer_render]
  | sound =>
    obtain rfl := Option.some.inj h
    exact .inr ⟨nofun, fun _ => rfl⟩
  | event event =>
    obtain rfl := Option.some.inj h
    obtain ⟨code, pressed, rfl, hnext⟩ | ⟨hends, hnext⟩ | ⟨failure, hfails, hnext⟩ | ⟨rfl, hnext⟩ |
      ⟨hnone, -, -, -, hnext⟩ := w.handle_cases event
    · exact .inl ⟨code, pressed, rfl, hnext⟩
    all_goals rw [hnext]
    · exact .inr ⟨fun code pressed hkey => Happening.not_ends_key code pressed (hkey ▸ hends),
        fun _ => rfl⟩
    · refine .inr ⟨fun code pressed hkey => ?_, fun _ => rfl⟩
      rw [← hkey] at hfails
      cases hfails
    · exact .inr ⟨nofun, fun _ => rfl⟩
    · exact .inr ⟨hnone, fun _ => rfl⟩

/-- A key is held after a happening if that was its press, or if it was held before and the
happening was no report about it. -/
theorem holds_after (h : w.after happening = some next) (key : Nibble) :
    next.pacer.machine.keypad.holds key = true ↔
      happening = .key (KeyMap.codes.get key) true ∨ w.pacer.machine.keypad.holds key = true ∧
        ∀ pressed, .key (KeyMap.codes.get key) pressed ≠ happening := by
  obtain ⟨code, pressed, rfl, rfl⟩ | ⟨hnone, hsame⟩ := key_cases h
  · rw [holds_pressKey]
    by_cases hcode : KeyMap.codes.get key = code
    · subst hcode
      rw [if_pos rfl]
      constructor
      · rintro rfl
        exact .inl rfl
      · rintro (hpress | ⟨-, hnone⟩)
        · cases hpress
          rfl
        · exact absurd rfl (hnone pressed)
    · rw [if_neg hcode]
      constructor
      · refine fun hheld => .inr ⟨hheld, fun other hsame => ?_⟩
        cases hsame
        exact hcode rfl
      · rintro (hpress | ⟨hheld, -⟩)
        · cases hpress
          exact absurd rfl hcode
        · exact hheld
  · rw [hsame]
    constructor
    · exact fun hheld => .inr ⟨hheld, hnone _⟩
    · rintro (hpress | ⟨hheld, -⟩)
      · exact absurd hpress.symm (hnone _ true)
      · exact hheld

/-- A key is held after a history if the last report about its keyboard key is a press, or if it
was held before and there is no report. -/
theorem holds_live (h : w.live history = some last) (key : Nibble) :
    last.pacer.machine.keypad.holds key = true ↔
      Happening.LastPressed history (KeyMap.codes.get key) ∨
        w.pacer.machine.keypad.holds key = true ∧
          ∀ pressed, .key (KeyMap.codes.get key) pressed ∉ history := by
  induction history generalizing w with
  | nil =>
    obtain rfl := Option.some.inj h
    constructor
    · exact fun hheld => .inr ⟨hheld, fun _ => List.not_mem_nil⟩
    · rintro (hpress | ⟨hheld, -⟩)
      · exact absurd hpress (Happening.not_lastPressed_nil _)
      · exact hheld
  | cons first rest ih =>
    obtain ⟨next, hfirst, hrest⟩ := live_cons_eq_some_iff.1 h
    rw [ih hrest, holds_after hfirst, Happening.lastPressed_cons_iff]
    simp only [List.mem_cons, not_or, forall_and]
    rw [or_and_right, ← or_assoc, and_assoc]

/-- A redraw fails, or it does not end the program. -/
theorem exit_redraw {budget : Nat} {elapsed : Binary32} {surface : Service}
    (h : w.redraw budget elapsed surface = some next) :
    (∃ failure, w.Fails (.redraw budget elapsed surface) failure ∧ next.exiting = true ∧
      next.failure = some failure) ∨
    ((∀ failure, ¬w.Fails (.redraw budget elapsed surface) failure) ∧
      next.exiting = w.exiting ∧ next.failure = w.failure) := by
  obtain ⟨u, hupdate, ⟨fault, hfault, rfl⟩ | ⟨signal, hsignal, rfl⟩⟩ := redraw_cases h
  · exact .inl ⟨.halted fault, .fault hupdate hfault, rfl, rfl⟩
  · have hopen : ({ w with pacer := u.pacer }.updateSound.render elapsed).frame.isSome =
        w.frame.isSome := isSome_frame_render _ elapsed
    obtain ⟨reason, rfl, hframe, hask⟩ | ⟨hserved, hask⟩ :=
      ask_cases ({ w with pacer := u.pacer }.updateSound.render elapsed) .notShown surface
    · rw [hask]
      exact .inl ⟨.notShown reason, .frame hupdate hsignal (hopen ▸ hframe), rfl, rfl⟩
    · rw [hask]
      refine .inr ⟨fun failure hfails => ?_, exit_render _ elapsed⟩
      cases hfails with
      | fault hother hfault =>
        obtain rfl := Option.some.inj (hupdate.symm.trans hother)
        rw [hsignal] at hfault
        cases hfault
      | frame hother hsignal hframe =>
        rw [← hopen, hserved _ rfl] at hframe
        cases hframe

/-- A happening ends the program because the user wants it to or because something fails, or it does
not end it. -/
theorem exit_cases (h : w.after happening = some next) :
    (happening.Ends ∧ (∀ failure, ¬w.Fails happening failure) ∧ next.exiting = true ∧
      next.failure = w.failure) ∨
    (∃ failure, w.Fails happening failure ∧ next.exiting = true ∧ next.failure = some failure) ∨
    (¬happening.Ends ∧ (∀ failure, ¬w.Fails happening failure) ∧ next.exiting = w.exiting ∧
      next.failure = w.failure) := by
  cases happening with
  | redraw budget elapsed surface =>
    obtain hfails | ⟨hgoes, hsame⟩ := exit_redraw h
    · exact .inr (.inl hfails)
    · exact .inr (.inr ⟨nofun, hgoes, hsame⟩)
  | elapse budget elapsed =>
    obtain ⟨u, -, rfl⟩ := Option.map_eq_some_iff.1 h
    exact .inr (.inr ⟨nofun, nofun, rfl, rfl⟩)
  | render elapsed =>
    obtain rfl := Option.some.inj h
    exact .inr (.inr ⟨nofun, nofun, w.exit_render elapsed⟩)
  | sound =>
    obtain rfl := Option.some.inj h
    exact .inr (.inr ⟨nofun, nofun, rfl, rfl⟩)
  | event event =>
    obtain rfl := Option.some.inj h
    obtain ⟨code, pressed, rfl, hnext⟩ | ⟨hends, hnext⟩ | ⟨failure, hfails, hnext⟩ | ⟨rfl, hnext⟩ |
      ⟨-, hgoes, hnone, -, hnext⟩ := w.handle_cases event
    all_goals rw [hnext]
    · exact .inr (.inr ⟨nofun, nofun, w.exit_pressKey code pressed⟩)
    · refine .inl ⟨hends, fun failure hfails => ?_, rfl, rfl⟩
      obtain hclose | ⟨code, pressed, hescape⟩ := hends
      · rw [hclose] at hfails
        cases hfails
      · rw [hescape] at hfails
        cases hfails
    · exact .inr (.inl ⟨failure, hfails, rfl, rfl⟩)
    · exact .inr (.inr ⟨nofun, nofun, rfl, rfl⟩)
    · exact .inr (.inr ⟨hgoes, hnone, rfl, rfl⟩)

/-- The program is about to end after a happening if this ends it or fails, or if it was before. -/
theorem exiting_after (h : w.after happening = some next) :
    next.exiting = true ↔
      happening.Ends ∨ (∃ failure, w.Fails happening failure) ∨ w.exiting = true := by
  obtain ⟨hends, -, hexiting, -⟩ | ⟨failure, hfails, hexiting, -⟩ | ⟨hgoes, hnone, hsame, -⟩ :=
    exit_cases h
  · exact iff_of_true hexiting (.inl hends)
  · exact iff_of_true hexiting (.inr (.inl ⟨failure, hfails⟩))
  · rw [hsame, or_iff_right hgoes, or_iff_right fun ⟨failure, hfails⟩ => hnone failure hfails]

/-- The program is about to end after a history if it was before, if something has ended it or if
something has failed. -/
theorem exiting_live (h : w.live history = some last) :
    last.exiting = true ↔ (∃ happening ∈ history, happening.Ends) ∨
      (∃ failure, w.Meets history failure) ∨ w.exiting = true := by
  induction history generalizing w with
  | nil =>
    obtain rfl := Option.some.inj h
    simp only [List.not_mem_nil, false_and, exists_false, false_or, not_meets_nil]
  | cons first rest ih =>
    obtain ⟨next, hfirst, hrest⟩ := live_cons_eq_some_iff.1 h
    rw [ih hrest, exiting_after hfirst]
    simp only [meets_cons_iff hfirst, List.mem_cons, exists_eq_or_imp, exists_or]
    simp only [or_assoc, or_left_comm]

/-- A happening that fails leaves its failure as the error to end with, and any other one leaves the
error that there was. -/
theorem failure_after (h : w.after happening = some next) :
    (∃ failure, w.Fails happening failure ∧ next.failure = some failure) ∨
    ((∀ failure, ¬w.Fails happening failure) ∧ next.failure = w.failure) := by
  obtain ⟨-, hnone, -, hsame⟩ | ⟨failure, hfails, -, hleft⟩ | ⟨-, hnone, -, hsame⟩ := exit_cases h
  · exact .inr ⟨hnone, hsame⟩
  · exact .inl ⟨failure, hfails, hleft⟩
  · exact .inr ⟨hnone, hsame⟩

/-- The program ends with an error just if something has failed, unless there was one before, and
the error is one of the failures that the history has met with. -/
theorem failure_live (h : w.live history = some last) :
    (last.failure.isSome = true ↔
      (∃ failure, w.Meets history failure) ∨ w.failure.isSome = true) ∧
    ∀ failure, last.failure = some failure →
      w.Meets history failure ∨ w.failure = some failure := by
  induction history generalizing w with
  | nil =>
    obtain rfl := Option.some.inj h
    exact ⟨by simp only [not_meets_nil, exists_false, false_or], fun failure => .inr⟩
  | cons first rest ih =>
    obtain ⟨next, hfirst, hrest⟩ := live_cons_eq_some_iff.1 h
    obtain ⟨hsome, hmet⟩ := ih hrest
    obtain ⟨failure, hfails, hleft⟩ | ⟨hnone, hsame⟩ := failure_after hfirst
    · have hmeets : w.Meets (first :: rest) failure :=
        (meets_cons_iff hfirst rest failure).2 (.inl hfails)
      refine ⟨iff_of_true (hsome.2 (.inr (by rw [hleft]; rfl))) (.inl ⟨failure, hmeets⟩), ?_⟩
      intro other hother
      obtain hlater | hfirstLeft := hmet other hother
      · exact .inl ((meets_cons_iff hfirst rest other).2 (.inr hlater))
      · obtain rfl := Option.some.inj (hleft.symm.trans hfirstLeft)
        exact .inl hmeets
    · simp only [meets_cons_iff hfirst, hnone, false_or, ← hsame]
      exact ⟨hsome, hmet⟩

end happening

/-- A window system that serves every request leaves a history no failure but a fault. -/
theorem Meets.exists_fault {w : Window} {history : List Happening} {failure : Failure}
    (h : w.Meets history failure) (hserved : ∀ happening ∈ history, happening.Served) :
    ∃ fault, failure = .halted fault := by
  obtain ⟨earlier, happening, later, found, rfl, -, hfails⟩ := h
  have hdone := hserved happening (List.mem_append_right _ List.mem_cons_self)
  cases hfails with
  | window => cases hdone.1
  | surface => cases hdone.2
  | size => cases hdone
  | frame => cases hdone
  | @fault _ _ _ _ fault _ _ => exact ⟨fault, rfl⟩

/-- A front end is started for a machine none of whose keys is held. Whatever happens from then on,
a key of the machine is held just if the last report about its keyboard key is a press. The program
is about to end just if the user has asked to close the window, if the escape key was reported, or
if something has failed; and if the window system serves every request, this can only be an
instruction in the time that a redraw lets elapse. No event, in any window, changes anything of the
machine but its keypad, and a redraw makes of the machine what the update does. -/
theorem keys_follow_last_reports {p : Pacer}
    (hfree : ∀ key, p.machine.keypad.holds key = false) {history : List Happening} {last : Window}
    (h : (start p).live history = some last) :
    (∀ key, last.pacer.machine.keypad.holds key = true ↔
      Happening.LastPressed history (KeyMap.codes.get key)) ∧
    (last.exiting = true ↔
      (∃ happening ∈ history, happening.Ends) ∨ ∃ failure, (start p).Meets history failure) ∧
    ((∀ happening ∈ history, happening.Served) →
      (last.exiting = true ↔ (∃ happening ∈ history, happening.Ends) ∨
        ∃ fault, (start p).Meets history (.halted fault))) ∧
    (∀ (w : Window) (event : WindowEvent), ∃ keypad,
      (w.handle event).pacer = { w.pacer with machine := { w.pacer.machine with keypad } }) ∧
    ∀ (w next : Window) (budget : Nat) (elapsed : Binary32) (surface : Service),
      w.redraw budget elapsed surface = some next →
        ∃ u, w.pacer.update budget elapsed = some u ∧ next.pacer = u.pacer := by
  have hexiting : last.exiting = true ↔
      (∃ happening ∈ history, happening.Ends) ∨ ∃ failure, (start p).Meets history failure := by
    have hstart : (start p).exiting = false := rfl
    rw [exiting_live h, hstart, or_iff_left (show ¬(false = true) from Bool.false_ne_true)]
  refine ⟨fun key => ?_, hexiting, fun hserved => hexiting.trans (or_congr_right ?_),
    pacer_handle, fun w next budget elapsed surface => pacer_redraw⟩
  · have hstart : (start p).pacer.machine.keypad.holds key = false := hfree key
    rw [holds_live h, hstart]
    simp only [Bool.false_eq_true, false_and, or_false]
  · constructor
    · rintro ⟨failure, hmeets⟩
      obtain ⟨fault, rfl⟩ := hmeets.exists_fault hserved
      exact ⟨fault, hmeets⟩
    · rintro ⟨fault, hmeets⟩
      exact ⟨_, hmeets⟩

/-- Two keys of the machine and another key are pressed, and time elapses. Then one of the two is
released, and so is the other, but as the escape key. -/
def typing : List Happening :=
  [.event (.opened .done .done), .key "KeyX" true, .key "KeyV" true, .redraw 16 (1 / 4) .done,
    .key "KeyP" true, .key "KeyX" false, .render 1, .event (.keyboard "KeyV" false true)]

/-- Key 15 is still held, key 0 is not, and the program is about to end. -/
theorem fifteen_held_after_typing : ∃ last, (start Pacer.atKeyWait).live typing = some last ∧
    last.pacer.machine.keypad.holds (.ofNat 15) = true ∧
    last.pacer.machine.keypad.holds (.ofNat 0) = false ∧ last.exiting = true := by
  have hfree : ∀ key, Pacer.atKeyWait.machine.keypad.holds key = false := by decide
  have hends : ((start Pacer.atKeyWait).live typing).isSome = true := by decide +kernel
  obtain ⟨last, hlast⟩ := Option.isSome_iff_exists.1 hends
  obtain ⟨hkeys, hexiting, -⟩ := keys_follow_last_reports hfree hlast
  have hfifteen : Happening.LastPressed typing "KeyV" :=
    ⟨[.event (.opened .done .done), .key "KeyX" true], [.redraw 16 (1 / 4) .done, .key "KeyP" true,
      .key "KeyX" false, .render 1, .event (.keyboard "KeyV" false true)], rfl,
      by simp [Happening.key]⟩
  have hzero : ¬Happening.LastPressed typing "KeyX" := by
    simp [typing, Happening.lastPressed_cons_iff, Happening.not_lastPressed_nil, Happening.key]
  refine ⟨last, hlast, (hkeys _).2 hfifteen, ?_, hexiting.2 (.inl ?_)⟩
  · exact Bool.eq_false_iff.2 fun hheld => hzero ((hkeys _).1 hheld)
  · exact ⟨.event (.keyboard "KeyV" false true), by simp [typing], .inr ⟨"KeyV", false, rfl⟩⟩

/-- The window is opened and redrawn. -/
def redrawn : List Happening := [.event (.opened .done .done), .redraw 16 (1 / 64) .done]

/-- The window is opened, and then its surface does not take on a size. -/
def squeezed : List Happening :=
  [.event (.opened .done .done), .event (.resized 0 0 (.failed "no room"))]

/-- A pacer whose timers are to tick `2 ^ 30` times each second. -/
def hasty : Pacer := (Pacer.start Pacer.idle { timerRate := 1073741824 }).1

/-- A program may end although the user never asked for it: an instruction fails during a redraw, or
the surface does not take on a size. A redraw also moves the program counter on. And behind an
update that never comes to an end the user asks in vain. -/
theorem ends_unasked :
    (∀ happening ∈ redrawn ++ squeezed, ¬happening.Ends) ∧
    (∃ last, (start Pacer.atNothing).live redrawn = some last ∧ last.exiting = true ∧
      last.failure = some (.halted (.unassigned 0xFFFF 0x200))) ∧
    (∃ last, (start Pacer.atKeyWait).live squeezed = some last ∧ last.exiting = true ∧
      last.failure = some (.notResized "no room")) ∧
    (∃ last, (start Pacer.atKeyWait).live redrawn = some last ∧
      last.pacer.machine.pc ≠ Pacer.atKeyWait.machine.pc) ∧
    ∀ budget, (start hasty).live [.elapse budget 1, .event .closeRequested] = none := by
  have hends :
      ((start Pacer.atNothing).live redrawn).map (fun last => (last.exiting, last.failure)) =
        some (true, some (.halted (.unassigned 0xFFFF 0x200))) := by
    decide +kernel
  have hmoves : ((start Pacer.atKeyWait).live redrawn).map (fun last => last.pacer.machine.pc) =
      some (.ofWord 0x202) := by
    decide +kernel
  have hstalls : ¬hasty.Returns 1 :=
    Pacer.not_returns_of_stalls (Clock.stalls_of_same (by decide +kernel) (by decide +kernel))
  refine ⟨?_, ?_, ⟨_, rfl, rfl, rfl⟩, ?_, fun budget => ?_⟩
  · rintro happening hmem (rfl | ⟨code, pressed, rfl⟩)
    · simp [redrawn, squeezed] at hmem
    · simp [redrawn, squeezed] at hmem
  · obtain ⟨last, hlast, hleft⟩ := Option.map_eq_some_iff.1 hends
    obtain ⟨hexiting, hfailure⟩ := Prod.mk.inj hleft
    exact ⟨last, hlast, hexiting, hfailure⟩
  · obtain ⟨last, hlast, hpc⟩ := Option.map_eq_some_iff.1 hmoves
    refine ⟨last, hlast, ?_⟩
    rw [hpc]
    decide +kernel
  · have hnone : (start hasty).pacer.update budget 1 = none :=
      Option.eq_none_iff_forall_ne_some.2 fun u hupdate => hstalls ⟨budget, u, hupdate⟩
    rw [live, after, hnone]
    rfl

end Window

end ChipEight
