import ChipEight.Proofs.Exposure
import ChipEight.Proofs.Stalling

/-!
# Pixels only fade

Between two renders the machine of an open window may become any other one, and any time that is not
negative may pass, even an infinite one. What is taken away from the brightness of a pixel is
rounded, and the time may be too short to be noticed or too long for a finite loss. All the same, no
brightness leaves the range from zero to one. A pixel that is shown lit has brightness one, and as
long as it is not shown lit again it gets neither brighter nor more opaque. So a pixel that was
never shown lit has no brightness and cannot be seen.
-/

namespace ChipEight

namespace Binary32

/-- Without a sign, numbers are ordered as their places. -/
theorem magnitude_le_iff {p q : Magnitude} : number false p ≤ number false q ↔ p ≤ q := by
  constructor
  · intro h
    have hplaces : (p.val : Int) ≤ q.val := of_decide_eq_true h
    exact Int.ofNat_le.1 hplaces
  · intro h
    have hplaces : (p.val : Int) ≤ q.val := Int.ofNat_le.2 h
    exact decide_eq_true hplaces

/-- What is not below zero has no sign, or it is zero. -/
theorem exists_of_nonneg {x : Binary32} (h : 0 ≤ x) :
    ∃ negative p, x = number negative p ∧ (negative = true → p = .zero) := by
  rw [zero_eq] at h
  cases x with
  | nan => cases h
  | number negative p =>
    refine ⟨negative, p, rfl, ?_⟩
    rintro rfl
    have hplace : (0 : Int) ≤ -(p.val : Int) := of_decide_eq_true h
    exact Fin.ext (by change p.val = 0; omega)

/-- The positive part of a number is zero if the number has a sign, and else the number. -/
theorem positivePart_number (negative : Bool) (p : Magnitude) :
    (number negative p).positivePart = if negative = true then zero else number false p := by
  cases negative with
  | true =>
    refine if_neg fun hpositive => ?_
    have hplace : (0 : Int) < -(p.val : Int) := of_decide_eq_true hpositive
    omega
  | false =>
    by_cases hzero : p = .zero
    · subst hzero
      rfl
    · refine if_pos (decide_eq_true (show (0 : Int) < p.val from ?_))
      have hne : p.val ≠ 0 := fun h => hzero (Fin.ext h)
      omega

/-- What is left of a magnitude when something is taken away that is not below zero, but no more
than there is. -/
theorem exists_positivePart_sub {p : Magnitude} (hfinite : p < .infinity) {loss : Binary32}
    (h : 0 ≤ loss) : ∃ q ≤ p, (number false p - loss).positivePart = number false q := by
  obtain ⟨negative, r, rfl, hsign⟩ := exists_of_nonneg h
  have hp : p ≠ .infinity := Fin.ne_of_lt hfinite
  change ∃ q ≤ p, (add (number false p) (number (!negative) r)).positivePart = number false q
  by_cases hr : r = .infinity
  · have hnegative : negative = false := by
      by_contra hne
      have hzero := hsign (by simpa using hne)
      rw [hr] at hzero
      cases hzero
    refine ⟨.zero, Nat.zero_le _, ?_⟩
    rw [add, if_neg hp, if_pos hr, hnegative, infinite, positivePart_number]
    rfl
  · have hsum : signedUnits (number false p) + signedUnits (number (!negative) r) =
        (Magnitude.units p : Int) - Magnitude.units r := by
      cases negative with
      | false => rfl
      | true =>
        rw [hsign rfl]
        rfl
    simp only [add, if_neg hp, if_neg hr, hsum]
    split
    · refine ⟨.zero, Nat.zero_le _, ?_⟩
      rw [Bool.false_and, positivePart_number]
      rfl
    · rw [rounded, positivePart_number]
      split
      · exact ⟨.zero, Nat.zero_le _, rfl⟩
      · next hnonneg =>
        refine ⟨_, Magnitude.round_le ?_, rfl⟩
        simp only [decide_eq_true_eq] at hnonneg
        omega

/-- A magnitude is not below zero. -/
theorem magnitude_nonneg (p : Magnitude) : 0 ≤ number false p := by
  rw [zero_eq]
  exact magnitude_le_iff.2 (Nat.zero_le _)

/-- A positive finite magnitude times something that is not below zero is not below zero. -/
theorem mul_nonneg {p : Magnitude} (hfinite : p ≠ .infinity) (hpositive : p ≠ .zero) {x : Binary32}
    (h : 0 ≤ x) : 0 ≤ number false p * x := by
  obtain ⟨negative, r, rfl, hsign⟩ := exists_of_nonneg h
  change 0 ≤ mul (number false p) (number negative r)
  cases negative with
  | false =>
    by_cases hr : r = .infinity
    · have hnone : ¬(p = .zero ∨ r = .zero) := not_or.2 ⟨hpositive, by rw [hr]; decide⟩
      rw [mul, if_pos (.inr hr), if_neg hnone]
      exact magnitude_nonneg _
    · rw [mul, if_neg (not_or.2 ⟨hfinite, hr⟩)]
      exact magnitude_nonneg _
  | true =>
    have hzero : Magnitude.units r = 0 := by
      rw [hsign rfl]
      rfl
    have hr : r ≠ .infinity := by
      rw [hsign rfl]
      decide
    rw [mul, if_neg (not_or.2 ⟨hfinite, hr⟩), hzero, Nat.mul_zero]
    decide

/-- A larger magnitude has no smaller whole part. -/
theorem toByte_mono {a b : Magnitude} (h : a ≤ b) :
    (number false a).toByte ≤ (number false b).toByte := by
  have hparts := Nat.div_le_div_right (c := Magnitude.unitsPerOne) (Magnitude.units_le_iff.2 h)
  change UInt8.ofNat (min (Magnitude.units a / Magnitude.unitsPerOne) 255) ≤
    UInt8.ofNat (min (Magnitude.units b / Magnitude.unitsPerOne) 255)
  generalize Magnitude.units a / Magnitude.unitsPerOne = whole at hparts ⊢
  generalize Magnitude.units b / Magnitude.unitsPerOne = other at hparts ⊢
  rw [UInt8.le_iff_toNat_le, UInt8.toNat_ofNat', UInt8.toNat_ofNat']
  omega

/-- The product of two finite magnitudes. -/
theorem mul_magnitude {p r : Magnitude} (hp : p ≠ .infinity) (hr : r ≠ .infinity) :
    number false p * number false r = number false
      (.round (Magnitude.units p * Magnitude.units r) Magnitude.unitsPerOne) :=
  if_neg (not_or.2 ⟨hp, hr⟩)

/-- Of two finite magnitudes the larger one has no smaller whole part when both are scaled. -/
theorem toByte_mul_mono {p q r : Magnitude} (h : p ≤ q) (hq : q < .infinity)
    (hr : r ≠ .infinity) :
    (number false p * number false r).toByte ≤ (number false q * number false r).toByte := by
  have hp : p < .infinity := Nat.lt_of_le_of_lt h hq
  rw [mul_magnitude (Fin.ne_of_lt hp) hr, mul_magnitude (Fin.ne_of_lt hq) hr]
  refine toByte_mono (Magnitude.round_mono (by decide) ?_)
  exact Nat.mul_le_mul_right _ (Magnitude.units_le_iff.2 h)

end Binary32

/-- The magnitude of one. -/
def Magnitude.one : Magnitude := .round (1 * unitsPerOne) 1

/-- It is finite. -/
theorem Magnitude.one_lt_infinity : one < infinity := by decide +kernel

/-- A pixel that is lit has brightness one, and any other one is no brighter than before. -/
theorem Phosphor.exists_glow {p : Magnitude} (hp : p ≤ .one) (lit : Bool) {elapsed : Binary32}
    (h : 0 ≤ elapsed) : ∃ q ≤ Magnitude.one,
      glow lit (fadeRate * elapsed) (.number false p) = .number false q ∧
        (lit = true → q = .one) ∧ (lit = false → q ≤ p) := by
  cases lit with
  | true => exact ⟨.one, Nat.le_refl _, rfl, fun _ => rfl, nofun⟩
  | false =>
    have hfinite : p < .infinity := Nat.lt_of_le_of_lt hp Magnitude.one_lt_infinity
    have hloss : 0 ≤ fadeRate * elapsed :=
      Binary32.mul_nonneg (p := .round (10 * Magnitude.unitsPerOne) 1) (by decide +kernel)
        (by decide +kernel) h
    obtain ⟨q, hq, hglow⟩ := Binary32.exists_positivePart_sub hfinite hloss
    exact ⟨q, Nat.le_trans hq hp, hglow, nofun, fun _ => hq⟩

/-- In a frame that shows some brightness, a pixel is as opaque as it is bright. -/
theorem Phosphor.alpha_frame (p : Phosphor) (row : Fin 32) (col : Fin 64) :
    (p.frame.get (pixelNumber row col)).alpha = (p.level row col * 255).toByte := by
  have hcolour : p.frame.get (pixelNumber row col) = .ofBrightness (p.level row col) :=
    Vector.getElem_map Colour.ofBrightness (pixelNumber row col).isLt
  rw [hcolour, Colour.ofBrightness]

/-- Something that is done to an open window. -/
inductive Deed where
  /-- The machine and its clocks become others, in whatever way. -/
  | change (pacer : Pacer)
  /-- The screen is shown. -/
  | render (elapsed : Binary32)

namespace Window

/-- A window that was just opened. -/
def opened (p : Pacer) : Window := (start p).handle (.opened .done .done)

/-- What a deed makes of a window. -/
def does (w : Window) : Deed → Window
  | .change pacer => { w with pacer }
  | .render elapsed => w.render elapsed

/-- The window that deed number `i` finds, counting from zero. -/
def beforeDeed (w : Window) (deeds : List Deed) (i : Nat) : Window := (deeds.take i).foldl does w

/-- The opacity that a pixel has in the frame, once there is a frame. -/
def opacity (w : Window) (row : Fin 32) (col : Fin 64) : Option UInt8 :=
  w.frame.map fun frame => (frame.get (pixelNumber row col)).alpha

/-- A deed shows a pixel that is lit. -/
def ShowsLit (w : Window) (row : Fin 32) (col : Fin 64) (deed : Deed) : Prop :=
  (∃ elapsed, deed = .render elapsed) ∧ w.pacer.machine.screen.pixel col row = true

/-- No deed from number `first` up to, not including, number `last` shows a pixel lit. -/
def StaysUnlit (w : Window) (deeds : List Deed) (row : Fin 32) (col : Fin 64)
    (first last : Nat) : Prop :=
  ∀ i deed, first ≤ i → i < last → deeds[i]? = some deed →
    ¬(w.beforeDeed deeds i).ShowsLit row col deed

/-- A pixel of an open window has this brightness, and in the frame it is as opaque as it is
bright. -/
structure Glows (w : Window) (row : Fin 32) (col : Fin 64) (p : Magnitude) : Prop where
  /-- The brightness is at most one. -/
  le_one : p ≤ .one
  /-- The brightness of the pixel. -/
  level : w.phosphor.level row col = .number false p
  /-- The opacity of the pixel. -/
  shown : w.opacity row col = some (w.phosphor.level row col * 255).toByte

section deeds

variable {w : Window} {deeds : List Deed} {row : Fin 32} {col : Fin 64} {p : Magnitude}

/-- Each deed finds what the one before it left. -/
theorem beforeDeed_succ (w : Window) {i : Nat} {deed : Deed} (h : deeds[i]? = some deed) :
    w.beforeDeed deeds (i + 1) = (w.beforeDeed deeds i).does deed := by
  rw [beforeDeed, List.take_add_one, h, List.foldl_append]
  rfl

/-- Behind the last deed nothing is done any more. -/
theorem beforeDeed_succ_of_none (w : Window) {i : Nat} (h : deeds[i]? = none) :
    w.beforeDeed deeds (i + 1) = w.beforeDeed deeds i := by
  rw [beforeDeed, List.take_add_one, h, Option.toList_none, List.append_nil, beforeDeed]

/-- When a window is opened, no pixel glows. -/
theorem glows_opened (pacer : Pacer) (row : Fin 32) (col : Fin 64) :
    (opened pacer).Glows row col .zero := by
  have hlevel : (opened pacer).phosphor.level row col = 0 :=
    Vector.getElem_replicate (pixelNumber row col).isLt
  have hcolour : Frame.blank.get (pixelNumber row col) = ⟨0, 0, 0, 0⟩ :=
    Vector.getElem_replicate (pixelNumber row col).isLt
  refine ⟨Nat.zero_le _, hlevel, ?_⟩
  change some (Frame.blank.get (pixelNumber row col)).alpha = _
  rw [hlevel, hcolour]
  decide +kernel

/-- A deed that shows a pixel lit gives it brightness one, and no other deed makes it brighter. -/
theorem Glows.does (h : w.Glows row col p) {deed : Deed}
    (helapsed : ∀ elapsed, deed = .render elapsed → 0 ≤ elapsed) :
    ∃ q, (w.does deed).Glows row col q ∧ (w.ShowsLit row col deed → q = .one) ∧
      (¬w.ShowsLit row col deed → q ≤ p) := by
  cases deed with
  | change pacer =>
    refine ⟨p, ⟨h.le_one, h.level, h.shown⟩, ?_, fun _ => Nat.le_refl _⟩
    rintro ⟨⟨elapsed, hrender⟩, -⟩
    cases hrender
  | render elapsed =>
    have hframe : w.frame.isSome = true := by
      have hshown := congrArg Option.isSome h.shown
      rwa [opacity, Option.isSome_map] at hshown
    obtain ⟨frame, hframe⟩ := Option.isSome_iff_exists.1 hframe
    obtain ⟨q, hq, hglow, hlit, hunlit⟩ := Phosphor.exists_glow h.le_one
      (w.pacer.machine.screen.pixel col row) (helapsed elapsed rfl)
    have hrender : w.does (.render elapsed) = _ := render_of_open hframe elapsed
    have hlevel : (w.does (.render elapsed)).phosphor.level row col = .number false q := by
      rw [← hglow, ← h.level, hrender]
      exact w.phosphor.level_expose w.pacer.machine.screen elapsed row col
    refine ⟨q, ⟨hq, hlevel, ?_⟩, fun hshows => hlit hshows.2, fun hnot => hunlit ?_⟩
    · rw [hrender, opacity, Option.map_some, Phosphor.alpha_frame]
    · exact Bool.eq_false_iff.2 fun hpixel => hnot ⟨⟨elapsed, rfl⟩, hpixel⟩

/-- What one deed makes of the brightness of a pixel, within a list of deeds. -/
theorem Glows.step {i : Nat} (h : (w.beforeDeed deeds i).Glows row col p)
    (helapsed : ∀ elapsed, .render elapsed ∈ deeds → 0 ≤ elapsed) :
    ∃ q, (w.beforeDeed deeds (i + 1)).Glows row col q ∧
      (∀ deed, deeds[i]? = some deed → (w.beforeDeed deeds i).ShowsLit row col deed → q = .one) ∧
      ((∀ deed, deeds[i]? = some deed → ¬(w.beforeDeed deeds i).ShowsLit row col deed) →
        q ≤ p) := by
  cases hdeed : deeds[i]? with
  | none =>
    rw [beforeDeed_succ_of_none w hdeed]
    refine ⟨p, h, fun deed hsome => ?_, fun _ => Nat.le_refl _⟩
    cases hsome
  | some deed =>
    have hrender : ∀ elapsed, deed = .render elapsed → 0 ≤ elapsed := fun elapsed heq =>
      helapsed elapsed (heq ▸ List.mem_of_getElem? hdeed)
    obtain ⟨q, hq, hlit, hunlit⟩ := h.does hrender
    rw [beforeDeed_succ w hdeed]
    refine ⟨q, hq, ?_, fun hnot => hunlit (hnot deed rfl)⟩
    rintro _ ⟨rfl⟩ hshows
    exact hlit hshows

/-- At any time every pixel of an open window has a brightness from zero to one, and is as opaque
as it is bright. -/
theorem exists_glows (h : w.Glows row col p)
    (helapsed : ∀ elapsed, .render elapsed ∈ deeds → 0 ≤ elapsed) (i : Nat) :
    ∃ q, (w.beforeDeed deeds i).Glows row col q := by
  induction i with
  | zero => exact ⟨p, h⟩
  | succ i ih =>
    obtain ⟨q, hq⟩ := ih
    obtain ⟨r, hr, -⟩ := hq.step helapsed
    exact ⟨r, hr⟩

/-- As long as it is not shown lit, a pixel becomes no brighter. -/
theorem Glows.fades {i k : Nat} (h : (w.beforeDeed deeds i).Glows row col p)
    (helapsed : ∀ elapsed, .render elapsed ∈ deeds → 0 ≤ elapsed) (hik : i ≤ k)
    (hunlit : w.StaysUnlit deeds row col i k) :
    ∃ q ≤ p, (w.beforeDeed deeds k).Glows row col q := by
  induction k, hik using Nat.le_induction with
  | base => exact ⟨p, Nat.le_refl _, h⟩
  | succ k hik ih =>
    have hbefore : w.StaysUnlit deeds row col i k := fun j deed hij hjk =>
      hunlit j deed hij (Nat.lt_succ_of_lt hjk)
    obtain ⟨q, hqp, hq⟩ := ih hbefore
    obtain ⟨r, hr, -, hfades⟩ := hq.step helapsed
    exact ⟨r, Nat.le_trans (hfades fun deed => hunlit k deed hik (Nat.lt_succ_self k)) hqp, hr⟩

/-- Of two brightnesses of pixels, the larger one is shown no less opaque. -/
theorem Glows.opacity_le {later : Window} {q : Magnitude} (h : w.Glows row col p)
    (hlater : later.Glows row col q) (hqp : q ≤ p) :
    ∃ alpha, w.opacity row col = some alpha ∧
      ∃ beta, later.opacity row col = some beta ∧ beta ≤ alpha := by
  refine ⟨_, h.shown, _, hlater.shown, ?_⟩
  have hfinite : p < .infinity := Nat.lt_of_le_of_lt h.le_one Magnitude.one_lt_infinity
  have hopaque : (255 : Binary32) = .number false (.round (255 * Magnitude.unitsPerOne) 1) := rfl
  have hne : Magnitude.round (255 * Magnitude.unitsPerOne) 1 ≠ .infinity := by decide +kernel
  rw [h.level, hlater.level, hopaque]
  exact Binary32.toByte_mul_mono hqp hfinite hne

end deeds

/-- In a window with which all this is done, a pixel only fades unless it is shown lit. -/
structure Fades (w : Window) (deeds : List Deed) (row : Fin 32) (col : Fin 64) : Prop where
  /-- Its brightness is always between zero and one. -/
  between : ∀ i, 0 ≤ (w.beforeDeed deeds i).phosphor.level row col ∧
    (w.beforeDeed deeds i).phosphor.level row col ≤ 1
  /-- When it is shown lit, its brightness is one. -/
  lit : ∀ i deed, deeds[i]? = some deed → (w.beforeDeed deeds i).ShowsLit row col deed →
    (w.beforeDeed deeds (i + 1)).phosphor.level row col = 1
  /-- As long as it is not shown lit, it becomes no brighter. -/
  unlit : ∀ i k, i ≤ k → w.StaysUnlit deeds row col i k →
    (w.beforeDeed deeds k).phosphor.level row col ≤ (w.beforeDeed deeds i).phosphor.level row col
  /-- As long as it is not shown lit, it becomes no more opaque. -/
  opacity : ∀ i k, i ≤ k → w.StaysUnlit deeds row col i k →
    ∃ alpha, (w.beforeDeed deeds i).opacity row col = some alpha ∧
      ∃ beta, (w.beforeDeed deeds k).opacity row col = some beta ∧ beta ≤ alpha
  /-- As long as it was never shown lit, it has no brightness, and cannot be seen. -/
  dark : ∀ k, w.StaysUnlit deeds row col 0 k →
    (w.beforeDeed deeds k).phosphor.level row col = 0 ∧
      (w.beforeDeed deeds k).opacity row col = some 0

/-- Whatever becomes of the machine between the renders, and however much time passes, every pixel
only fades unless it is shown lit. -/
theorem pixels_only_fade (pacer : Pacer) {deeds : List Deed}
    (helapsed : ∀ elapsed, .render elapsed ∈ deeds → 0 ≤ elapsed) (row : Fin 32) (col : Fin 64) :
    (opened pacer).Fades deeds row col := by
  have hopened := glows_opened pacer row col
  have hglows := exists_glows hopened helapsed
  constructor
  case between =>
    intro i
    obtain ⟨p, hp⟩ := hglows i
    rw [hp.level]
    exact ⟨Binary32.magnitude_nonneg p, Binary32.magnitude_le_iff.2 hp.le_one⟩
  case lit =>
    intro i deed hdeed hshows
    obtain ⟨p, hp⟩ := hglows i
    obtain ⟨q, hq, hlit, -⟩ := hp.step helapsed
    rw [hq.level, hlit deed hdeed hshows]
    rfl
  case unlit =>
    intro i k hik hunlit
    obtain ⟨p, hp⟩ := hglows i
    obtain ⟨q, hqp, hq⟩ := hp.fades helapsed hik hunlit
    rw [hp.level, hq.level]
    exact Binary32.magnitude_le_iff.2 hqp
  case opacity =>
    intro i k hik hunlit
    obtain ⟨p, hp⟩ := hglows i
    obtain ⟨q, hqp, hq⟩ := hp.fades helapsed hik hunlit
    exact hp.opacity_le hq hqp
  case dark =>
    intro k hunlit
    have hstart : ((opened pacer).beforeDeed deeds 0).Glows row col .zero := hopened
    obtain ⟨q, hqzero, hq⟩ := hstart.fades helapsed (Nat.zero_le k) hunlit
    obtain rfl : q = .zero := Fin.ext (Nat.le_zero.1 hqzero)
    refine ⟨hq.level, ?_⟩
    rw [hq.shown, hq.level]
    decide +kernel

/-- The fifth row is shown lit; then the screen is cleared and shown again, and once more after an
infinite time. -/
def shownThenCleared : List Deed :=
  [.render (1 / 64), .change (clearing fun _ => false), .render (1 / 64),
    .render (.infinite false)]

/-- A pixel of the fifth row is bright at first and then fades, and one of the sixth row is never
to be seen. -/
theorem fifthRow_fades :
    ((opened fifthRow).beforeDeed shownThenCleared 1).phosphor.level (Screen.rowAt 5) 63 = 1 ∧
    ((opened fifthRow).beforeDeed shownThenCleared 4).phosphor.level (Screen.rowAt 5) 63 ≤
      ((opened fifthRow).beforeDeed shownThenCleared 1).phosphor.level (Screen.rowAt 5) 63 ∧
    ((opened fifthRow).beforeDeed shownThenCleared 4).opacity (Screen.rowAt 6) 63 = some 0 := by
  have helapsed : ∀ elapsed, .render elapsed ∈ shownThenCleared → 0 ≤ elapsed := by
    intro elapsed hmem
    simp only [shownThenCleared, List.mem_cons, Deed.render.injEq, List.not_mem_nil, reduceCtorEq,
      false_or, or_false] at hmem
    rcases hmem with rfl | rfl | rfl
    all_goals decide +kernel
  have hlit : ((opened fifthRow).beforeDeed shownThenCleared 0).ShowsLit (Screen.rowAt 5) 63
      (.render (1 / 64)) := ⟨⟨_, rfl⟩, by decide +kernel⟩
  have hunlit : (opened fifthRow).StaysUnlit shownThenCleared (Screen.rowAt 5) 63 1 4 := by
    rintro i deed hfirst hlast hdeed ⟨⟨elapsed, rfl⟩, hpixel⟩
    -- The first of these deeds, the change, is not a render.
    rcases Nat.eq_or_lt_of_le hfirst with rfl | hsecond
    · cases hdeed
    · have hcleared : ∀ j < 4, 1 < j → ((opened fifthRow).beforeDeed
          shownThenCleared j).pacer.machine.screen.pixel 63 5 ≠ true := by decide +kernel
      exact hcleared i hlast hsecond hpixel
  have hdark : (opened fifthRow).StaysUnlit shownThenCleared (Screen.rowAt 6) 63 0 4 := by
    have hpixels : ∀ j < 4, ((opened fifthRow).beforeDeed
        shownThenCleared j).pacer.machine.screen.pixel 63 6 ≠ true := by decide +kernel
    exact fun i deed _ hlast _ hshows => hpixels i hlast hshows.2
  have hfifth := pixels_only_fade fifthRow helapsed (Screen.rowAt 5) 63
  have hsixth := pixels_only_fade fifthRow helapsed (Screen.rowAt 6) 63
  exact ⟨hfifth.lit 0 _ rfl hlit, hfifth.unlit 1 4 (by omega) hunlit, (hsixth.dark 4 hdark).2⟩

end Window

end ChipEight
