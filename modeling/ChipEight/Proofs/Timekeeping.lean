import ChipEight.Proofs.Pacing

/-!
# Timekeeping

How often the timers tick is a matter of the timer clock, and this clock hears of nothing but
elapsed time. So two pacers at the same timer rate tick alike in every update, whatever their
machines, programs, dialects, seeds and rates of instructions are, whatever their steps answer and
whatever their hosts do to the machines in between. Whether an update comes to an end can depend on
all of these; the statement is about updates that do.
-/

namespace ChipEight

namespace Clock

/-- A clock is drained after one number of payments only: at the smaller of two it is not due any
more, before the larger it is. -/
theorem Drains.unique {c : Clock} {count other : Nat} (h : c.Drains count)
    (h' : c.Drains other) : count = other := by
  have hle : ∀ {first second : Nat}, c.Drains first → c.Drains second → second ≤ first := by
    intro first second hfirst hsecond
    by_contra hlt
    have hdue : (c.after first).due = true := hsecond.due first (by omega)
    rw [hfirst.rest] at hdue
    cases hdue
  exact Nat.le_antisymm (hle h' h) (hle h h')

/-- A clock is given stretches of elapsed time, one after the other, and is drained in each: the
number of payments and the clock that is left are kept for each stretch. -/
inductive Keeps : Clock → List Binary32 → List (Nat × Clock) → Clock → Prop where
  /-- No time elapses. -/
  | rests (c : Clock) : Keeps c [] [] c
  /-- Time elapses, and the clock pays for all that is due. -/
  | drains {c last : Clock} {elapsed : Binary32} {later : List Binary32} {count : Nat}
    {entries : List (Nat × Clock)} (drained : (c.save elapsed).Drains count)
    (others : Keeps ((c.save elapsed).after count) later entries last) :
    Keeps c (elapsed :: later) ((count, (c.save elapsed).after count) :: entries) last

/-- What a clock keeps depends on nothing but the time that elapses. -/
theorem Keeps.unique {c last last' : Clock} {stretches : List Binary32}
    {entries entries' : List (Nat × Clock)} (h : c.Keeps stretches entries last)
    (h' : c.Keeps stretches entries' last') : entries = entries' ∧ last = last' := by
  induction h generalizing entries' with
  | rests =>
    cases h'
    exact ⟨rfl, rfl⟩
  | @drains c last elapsed later count entries drained others ih =>
    cases h' with
    | @drains _ _ _ _ count' entries' drained' others' =>
      obtain rfl : count = count' := drained.unique drained'
      obtain ⟨hentries, hlast⟩ := ih others'
      exact ⟨congrArg _ hentries, hlast⟩

end Clock

namespace Pacer

/-- A pacer is kept running: time elapses in stretches, one after the other, and every update comes
to an end; in between the host does to the machine what it likes. The updates are kept in
order. -/
inductive Elapses : Pacer → List Binary32 → List Update → Pacer → Prop where
  /-- Nothing happens. -/
  | rests (p : Pacer) : Elapses p [] [] p
  /-- Time elapses. -/
  | update {p last : Pacer} {budget : Nat} {elapsed : Binary32} {u : Update}
    {later : List Binary32} {updates : List Update} (answer : p.update budget elapsed = some u)
    (others : Elapses u.pacer later updates last) :
    Elapses p (elapsed :: later) (u :: updates) last
  /-- The host performs an operation on the machine. -/
  | perform {p last : Pacer} {later : List Binary32} {updates : List Update}
    (operation : Operation) (others : Elapses (p.perform operation).1 later updates last) :
    Elapses p later updates last
  /-- The host puts another machine in the place of this one. -/
  | replace {p last : Pacer} {later : List Binary32} {updates : List Update} (other : Machine)
    (others : Elapses { p with machine := other } later updates last) :
    Elapses p later updates last

/-- The timer clock of a pacer that is kept running keeps the number of ticks of each update, and
hears of nothing but the time that elapses. -/
theorem Elapses.keeps {p last : Pacer} {stretches : List Binary32} {updates : List Update}
    (h : p.Elapses stretches updates last) :
    p.timer.Keeps stretches (updates.map fun u => (u.ticks, u.pacer.timer)) last.timer := by
  induction h with
  | rests p => exact .rests p.timer
  | update answer others ih =>
    obtain ⟨hdrains, htimer, -⟩ := parts_of_update answer
    rw [htimer] at ih
    rw [List.map_cons, htimer]
    exact .drains hdrains ih
  | perform operation others ih => exact ih
  | replace other others ih => exact ih

/-- The timer clock does not depend on the program. Two pacers are made at the same timer rate, for
any two machines, and with other settings that need not agree. The same stretches of time elapse for
both, while their hosts do to the machines what they like. If all updates come to an end, each one
ticks as often as its counterpart, whatever the steps answer, and leaves the timer clock as its
counterpart does. -/
theorem ticks_independent_of_program {settings settings' : Settings}
    (hrate : settings.timerRate = settings'.timerRate) {m m' : Machine}
    {stretches : List Binary32} {updates updates' : List Update} {last last' : Pacer}
    (h : (start m settings).1.Elapses stretches updates last)
    (h' : (start m' settings').1.Elapses stretches updates' last') :
    updates.map (·.ticks) = updates'.map (·.ticks) ∧
      updates.map (·.pacer.timer) = updates'.map (·.pacer.timer) ∧
      last.timer = last'.timer := by
  have hstart : (start m settings).1.timer = (start m' settings').1.timer := by
    change (Clock.start .timer settings.timerRate defaultTimerRate).1 = _
    rw [hrate]
    rfl
  have hkeeps := h.keeps
  rw [hstart] at hkeeps
  obtain ⟨hentries, hlast⟩ := hkeeps.unique h'.keeps
  have hticks := congrArg (List.map Prod.fst) hentries
  have htimers := congrArg (List.map Prod.snd) hentries
  rw [List.map_map, List.map_map] at hticks htimers
  exact ⟨hticks, htimers, hlast⟩

/-- Settings for 512 instructions and 64 ticks each second. -/
def fast : Settings := { cpuRate := 512, timerRate := 64 }

/-- Settings for fewer instructions and as many ticks. -/
def slow : Settings := { dialect := .cosmacVip, cpuRate := 100, timerRate := 64, seed := some 7 }

/-- A machine that fails at once. -/
def failing : Machine := (Machine.create .modern (.ofSeed 0)).facing 0xFFFF

/-- A machine that waits for a key at once. -/
def waiting : Machine := (Machine.create .cosmacVip (.ofSeed 7)).facing 0xF10A

/-- A quarter of a second and then half a second make both tick alike, although one fails and the
other waits and has a key pressed in between. -/
theorem waiting_ticks_like_failing : ∃ updates updates' last last',
    (start failing fast).1.Elapses [1 / 4, 1 / 2] updates last ∧
    (start waiting slow).1.Elapses [1 / 4, 1 / 2] updates' last' ∧
    updates.map (·.outcome.isOk) = [false, false] ∧
    updates'.map (·.outcome.isOk) = [true, true] ∧
    updates'.map (·.ticks) = [16, 32] := by
  have hfailing : ((start failing fast).1.update 32 (1 / 4)).bind (fun u =>
      (u.pacer.update 32 (1 / 2)).map fun w =>
        ([u.outcome.isOk, w.outcome.isOk], [u.ticks, w.ticks])) =
      some ([false, false], [16, 32]) := by
    decide +kernel
  have hwaiting : ((start waiting slow).1.update 32 (1 / 4)).bind (fun u =>
      ((u.pacer.perform (.setKey (.ofNat 5) true)).1.update 32 (1 / 2)).map fun w =>
        [u.outcome.isOk, w.outcome.isOk]) = some [true, true] := by
    decide +kernel
  obtain ⟨u, hu, hlater⟩ := Option.bind_eq_some_iff.1 hfailing
  obtain ⟨w, hw, hfacts⟩ := Option.map_eq_some_iff.1 hlater
  obtain ⟨hout, hticks⟩ := Prod.mk.inj hfacts
  obtain ⟨u', hu', hlater'⟩ := Option.bind_eq_some_iff.1 hwaiting
  obtain ⟨w', hw', hout'⟩ := Option.map_eq_some_iff.1 hlater'
  have hfirst : (start failing fast).1.Elapses [1 / 4, 1 / 2] [u, w] w.pacer :=
    .update hu (.update hw (.rests w.pacer))
  have hsecond : (start waiting slow).1.Elapses [1 / 4, 1 / 2] [u', w'] w'.pacer :=
    .update hu' (.perform (.setKey (.ofNat 5) true) (.update hw' (.rests w'.pacer)))
  have hrate : fast.timerRate = slow.timerRate := rfl
  have halike := (ticks_independent_of_program hrate hfirst hsecond).1
  exact ⟨[u, w], [u', w'], w.pacer, w'.pacer, hfirst, hsecond, hout, hout',
    halike.symm.trans hticks⟩

end Pacer

end ChipEight
