import ChipEight.Proofs.Footprint
import Mathlib.Data.Nat.Find

/-!
# Waiting for a key

A program waits for a key from the step that carries out `FX0A` on. Every step of the
session that follows polls the keypad: the first one that finds a key held latches the
lowest-numbered of them, and the first one after it that finds this key released delivers
it. In between the host may tick the timers and press or release keys as it likes. The
machine stays suspended until the delivery, and the delivery does nothing but store the
key.
-/

namespace ChipEight

namespace Operation

/-- Whether an operation is one of those with which a host plays a program: steps, ticks and
key changes. -/
def plays : Operation → Bool
  | step | tick | setKey _ _ => true
  | _ => false

/-- Whether an operation ticks the timers. -/
def ticks : Operation → Bool
  | tick => true
  | _ => false

/-- Whether an operation is anything but a press or release of a key other than `key`. -/
def concerns (key : Nibble) : Operation → Bool
  | setKey other _ => decide (other = key)
  | _ => true

/-- Whether a key is held after an operation, given whether it was held before. -/
def hold (key : Nibble) (held : Bool) : Operation → Bool
  | setKey other pressed => if other = key then pressed else held
  | _ => held

end Operation

/-- The operation number `i` of a session is a step, which polls a pending wait. -/
def Polls (session : List Operation) (i : Nat) : Prop := session[i]? = some .step

namespace Machine

/-- Poll number `a` of a session is the first that finds a key held, and `key` is the
lowest-numbered key held then. -/
structure Latches (m : Machine) (session : List Operation) (a : Nat) (key : Nibble) : Prop where
  /-- It is a poll. -/
  polls : Polls session a
  /-- The key is held. -/
  held : (m.before session a).keypad.holds key = true
  /-- No key with a lower number is held. -/
  lowest : ∀ other < key, (m.before session a).keypad.holds other = false
  /-- No poll before it finds a key held. -/
  first : ∀ i < a, Polls session i → ∀ other, (m.before session i).keypad.holds other = false

/-- After the key was latched by poll number `a`, poll number `b` is the first that finds it
released. -/
structure Delivers (m : Machine) (session : List Operation) (a b : Nat) (key : Nibble) :
    Prop where
  /-- The key was latched. -/
  latches : m.Latches session a key
  /-- The delivery comes later. -/
  later : a < b
  /-- It is a poll. -/
  polls : Polls session b
  /-- The key is released. -/
  released : (m.before session b).keypad.holds key = false
  /-- All polls in between find the key held. -/
  held : ∀ i, a < i → i < b → Polls session i → (m.before session i).keypad.holds key = true

/-- Only one poll latches a key, and only one key is latched. -/
theorem Latches.unique {m : Machine} {session : List Operation} {a a' : Nat} {key key' : Nibble}
    (h : m.Latches session a key) (h' : m.Latches session a' key') : a = a' ∧ key = key' := by
  have ha : ¬a < a' := by
    intro hlt
    have hfree := h'.first a hlt h.polls key
    rw [h.held] at hfree
    cases hfree
  have ha' : ¬a' < a := by
    intro hlt
    have hfree := h.first a' hlt h'.polls key'
    rw [h'.held] at hfree
    cases hfree
  obtain rfl : a = a' := by omega
  refine ⟨rfl, ?_⟩
  have hkey : ¬key < key' := by
    intro hlt
    have hfree := h'.lowest key hlt
    rw [h.held] at hfree
    cases hfree
  have hkey' : ¬key' < key := by
    intro hlt
    have hfree := h.lowest key' hlt
    rw [h'.held] at hfree
    cases hfree
  exact Fin.le_antisymm (Fin.not_lt.1 hkey') (Fin.not_lt.1 hkey)

/-- The machine `now` is `m` suspended at its instruction, with a pending wait and after
some ticks; only the keypad is free. -/
def SuspendedIn (m : Machine) (wait : KeyWait) (ticks : Nat) (now : Machine) : Prop :=
  now = { m.advance with
    timers := Nat.repeat Timers.tick ticks m.timers, keypad := now.keypad, keyWait := some wait }

/-- Ticks and key changes keep the machine suspended. -/
theorem SuspendedIn.perform {m now : Machine} {wait : KeyWait} {ticks : Nat}
    {operation : Operation} (h : m.SuspendedIn wait ticks now) (hplays : operation.plays = true)
    (hstep : operation ≠ .step) :
    m.SuspendedIn wait (ticks + if operation.ticks then 1 else 0)
      (now.perform operation).machine := by
  unfold SuspendedIn at h ⊢
  cases operation with
  | step => exact absurd rfl hstep
  | tick =>
    rw [h]
    rfl
  | setKey key pressed =>
    rw [h]
    rfl
  | _ => cases hplays

/-- The wait of a suspended machine. -/
theorem SuspendedIn.keyWait {m now : Machine} {wait : KeyWait} {ticks : Nat}
    (h : m.SuspendedIn wait ticks now) : now.keyWait = some wait := by
  rw [h]

/-- A poll with no key latched latches the lowest-numbered key, if one is held. -/
theorem step_of_unlatched {m : Machine} {x : Nibble} (h : m.keyWait = some ⟨x, none⟩) :
    m.step = ⟨{ m with keyWait := some ⟨x, m.keypad.lowest?⟩ }, .ok .awaitingKey, []⟩ := by
  rw [step_of_keyWait h]
  rfl

/-- A poll that finds the latched key held changes nothing. -/
theorem step_of_held {m : Machine} {x key : Nibble} (h : m.keyWait = some ⟨x, some key⟩)
    (hheld : m.keypad.holds key = true) : m.step = ⟨m, .ok .awaitingKey, []⟩ := by
  rw [step_of_keyWait h]
  simp only [poll, hheld, if_true]

/-- A poll that finds the latched key released delivers it. -/
theorem step_of_released {m : Machine} {x key : Nibble} (h : m.keyWait = some ⟨x, some key⟩)
    (hreleased : m.keypad.holds key = false) :
    m.step = ⟨{ m with keyWait := none }.setV x key.toByte, .ok .proceed, []⟩ := by
  rw [step_of_keyWait h]
  simp only [poll, hreleased, Bool.false_eq_true, if_false]

/-- The step that carries out `FX0A` polls at once. -/
theorem step_of_awaitKey {m : Machine} {x : Nibble} (hwait : m.keyWait = none)
    (h : m.instruction = .awaitKey x) :
    m.step = ⟨{ m.advance with keyWait := some ⟨x, m.keypad.lowest?⟩ }, .ok .awaitingKey,
      [.fetched m.pc m.fetch]⟩ := by
  have hexecution : m.execution =
      ⟨{ m.advance with keyWait := some ⟨x, m.keypad.lowest?⟩ }, .ok .awaitingKey⟩ := by
    rw [execution, h]
    rfl
  have hout : m.execution.outcome = .ok .awaitingKey := by rw [hexecution]
  rw [step_of_execution_ok hwait hout, hexecution]

/-- How far the wait has come before operation number `i` of a session. -/
inductive Phase (m : Machine) (x : Nibble) (session : List Operation) (i : Nat) : Prop where
  /-- No poll so far found a key held. -/
  | unlatched
    (free : ∀ j < i, Polls session j → ∀ key, (m.before session j).keypad.holds key = false)
    (suspended : m.SuspendedIn ⟨x, none⟩ ((session.take i).countP Operation.ticks)
      (m.before session i))
  /-- A key was latched, and every poll since then found it held. -/
  | latched (a : Nat) (key : Nibble) (later : a < i) (latches : m.Latches session a key)
    (held : ∀ j < i, Polls session j → a < j → (m.before session j).keypad.holds key = true)
    (suspended : m.SuspendedIn ⟨x, some key⟩ ((session.take i).countP Operation.ticks)
      (m.before session i))
  /-- The key was delivered. -/
  | finished (a b : Nat) (key : Nibble) (later : b < i) (delivers : m.Delivers session a b key)

/-- One more operation adds its tick, if it is one. -/
theorem ticks_take_succ {session : List Operation} {i : Nat} {operation : Operation}
    (h : session[i]? = some operation) :
    (session.take (i + 1)).countP Operation.ticks =
      (session.take i).countP Operation.ticks + if operation.ticks then 1 else 0 := by
  rw [List.take_add_one, h, List.countP_append]
  cases operation <;> rfl

/-- What holds of all polls before `i`, and of poll `i` if it is one, holds of all polls up
to `i`. -/
theorem polls_below_succ {session : List Operation} {i : Nat} {p : Nat → Prop}
    (hbelow : ∀ j < i, Polls session j → p j) (hlast : Polls session i → p i) :
    ∀ j < i + 1, Polls session j → p j := by
  intro j hj hpoll
  rcases Nat.lt_succ_iff_lt_or_eq.1 hj with hlt | rfl
  · exact hbelow j hlt hpoll
  · exact hlast hpoll

/-- A poll with no key latched decides by the keypad which phase comes next. -/
theorem phase_of_unlatched_poll {m : Machine} {x : Nibble} {session : List Operation} {i : Nat}
    (hpoll : Polls session i)
    (hfree : ∀ j < i, Polls session j → ∀ key, (m.before session j).keypad.holds key = false)
    (hsuspended : m.SuspendedIn ⟨x, (m.before session i).keypad.lowest?⟩
      ((session.take (i + 1)).countP Operation.ticks) (m.before session (i + 1))) :
    m.Phase x session (i + 1) := by
  cases hlowest : (m.before session i).keypad.lowest? with
  | none =>
    rw [hlowest] at hsuspended
    exact .unlatched
      (polls_below_succ hfree fun _ => (Keypad.lowest?_eq_none_iff _).1 hlowest) hsuspended
  | some key =>
    rw [hlowest] at hsuspended
    obtain ⟨hheld, hbelow⟩ := (Keypad.lowest?_eq_some_iff _ _).1 hlowest
    exact .latched i key (Nat.lt_succ_self i) ⟨hpoll, hheld, hbelow, hfree⟩
      (fun j hle _ hlt => absurd hle (by omega)) hsuspended

/-- A poll in a session leads to the machine that a step makes of the machine it finds. -/
theorem before_succ_of_polls {session : List Operation} {i : Nat} (m : Machine)
    (h : Polls session i) : m.before session (i + 1) = (m.before session i).step.machine :=
  m.before_succ h

/-- A poll takes the wait from one phase to the next. -/
theorem Phase.next_of_polls {m : Machine} {x : Nibble} {session : List Operation} {i : Nat}
    (hpoll : Polls session i) (h : m.Phase x session i) : m.Phase x session (i + 1) := by
  have hticks : (session.take (i + 1)).countP Operation.ticks =
      (session.take i).countP Operation.ticks := ticks_take_succ hpoll
  cases h with
  | unlatched hfree hsuspended =>
    refine phase_of_unlatched_poll hpoll hfree ?_
    rw [before_succ_of_polls m hpoll, step_of_unlatched hsuspended.keyWait, hticks]
    unfold SuspendedIn at hsuspended ⊢
    dsimp only
    rw [hsuspended]
  | latched a key hlater hlatches hheld hsuspended =>
    cases hkey : (m.before session i).keypad.holds key with
    | true =>
      refine .latched a key (by omega) hlatches
        (polls_below_succ hheld fun _ _ => hkey) ?_
      rw [before_succ_of_polls m hpoll, step_of_held hsuspended.keyWait hkey, hticks]
      exact hsuspended
    | false =>
      exact .finished a i key (by omega)
        ⟨hlatches, hlater, hpoll, hkey, fun j hlt hj hpoll => hheld j hj hpoll hlt⟩
  | finished a b key hlater hdelivers => exact .finished a b key (by omega) hdelivers

/-- Ticks and key changes do not end a phase. -/
theorem Phase.next_of_not_polls {m : Machine} {x : Nibble} {session : List Operation} {i : Nat}
    {operation : Operation} (hoperation : session[i]? = some operation)
    (hplays : operation.plays = true) (hstep : operation ≠ .step) (h : m.Phase x session i) :
    m.Phase x session (i + 1) := by
  have hpoll : ¬Polls session i := by
    intro hpoll
    exact hstep (Option.some.inj (hoperation.symm.trans hpoll))
  cases h with
  | unlatched hfree hsuspended =>
    refine .unlatched (polls_below_succ hfree fun hp => absurd hp hpoll) ?_
    rw [m.before_succ hoperation, ticks_take_succ hoperation]
    exact hsuspended.perform hplays hstep
  | latched a key hlater hlatches hheld hsuspended =>
    refine .latched a key (by omega) hlatches
      (polls_below_succ hheld fun hp => absurd hp hpoll) ?_
    rw [m.before_succ hoperation, ticks_take_succ hoperation]
    exact hsuspended.perform hplays hstep
  | finished a b key hlater hdelivers => exact .finished a b key (by omega) hdelivers

/-- From the step that carries out `FX0A` on, every operation finds the wait in some phase. -/
theorem phase_of_session {m : Machine} {x : Nibble} {session : List Operation}
    (hwait : m.keyWait = none) (hinstruction : m.instruction = .awaitKey x)
    (hfirst : Polls session 0) (hplays : ∀ operation ∈ session, operation.plays = true) :
    ∀ i < session.length, m.Phase x session (i + 1) := by
  intro i hi
  induction i with
  | zero =>
    refine phase_of_unlatched_poll hfirst (fun j hj => absurd hj (Nat.not_lt_zero j)) ?_
    rw [ticks_take_succ hfirst, before_succ_of_polls m hfirst]
    change m.SuspendedIn _ 0 m.step.machine
    rw [step_of_awaitKey hwait hinstruction]
    rfl
  | succ i ih =>
    have hphase := ih (by omega)
    obtain ⟨operation, hoperation⟩ : ∃ operation, session[i + 1]? = some operation :=
      ⟨_, List.getElem?_eq_getElem hi⟩
    by_cases hstep : operation = .step
    · exact hphase.next_of_polls (hoperation.trans (congrArg some hstep))
    · exact hphase.next_of_not_polls hoperation
        (hplays operation (List.mem_of_getElem? hoperation)) hstep

/-- A poll before the delivery asks to wait for a key and changes nothing but the wait. -/
theorem poll_before_delivery {m : Machine} {x : Nibble} {session : List Operation} {i : Nat}
    (hpoll : Polls session i) (hphase : m.Phase x session i)
    (hbefore : ∀ a b key, m.Delivers session a b key → i < b) :
    (m.before session i).step.outcome = .ok .awaitingKey ∧
      ∃ latched, m.before session (i + 1) =
        { m.before session i with keyWait := some ⟨x, latched⟩ } := by
  rw [before_succ_of_polls m hpoll]
  cases hphase with
  | unlatched hfree hsuspended =>
    rw [step_of_unlatched hsuspended.keyWait]
    exact ⟨rfl, _, rfl⟩
  | latched a key hlater hlatches hheld hsuspended =>
    cases hkey : (m.before session i).keypad.holds key with
    | true =>
      rw [step_of_held hsuspended.keyWait hkey]
      refine ⟨rfl, some key, ?_⟩
      rw [← hsuspended.keyWait]
    | false =>
      have hdelivers : m.Delivers session a i key :=
        ⟨hlatches, hlater, hpoll, hkey, fun j hlt hj hp => hheld j hj hp hlt⟩
      exact absurd (hbefore a i key hdelivers) (Nat.lt_irrefl i)
  | finished a b key hlater hdelivers =>
    have hlt := hbefore a b key hdelivers
    omega

/-- The delivery stores the key and ends the wait; apart from that only the host has changed
the machine since the wait began. -/
theorem poll_at_delivery {m : Machine} {x key : Nibble} {session : List Operation} {a b : Nat}
    (hdelivers : m.Delivers session a b key) (hphase : m.Phase x session b) :
    (m.before session b).step.outcome = .ok .proceed ∧
      m.before session (b + 1) = { m.advance.setV x key.toByte with
        keyWait := none
        timers := Nat.repeat Timers.tick ((session.take b).countP Operation.ticks) m.timers
        keypad := (m.before session b).keypad } := by
  rw [before_succ_of_polls m hdelivers.polls]
  cases hphase with
  | unlatched hfree hsuspended =>
    have hnone := hfree a hdelivers.later hdelivers.latches.polls key
    rw [hdelivers.latches.held] at hnone
    cases hnone
  | latched a' key' hlater hlatches hheld hsuspended =>
    obtain ⟨rfl, rfl⟩ := hlatches.unique hdelivers.latches
    rw [step_of_released hsuspended.keyWait hdelivers.released]
    refine ⟨rfl, ?_⟩
    unfold SuspendedIn at hsuspended
    dsimp only
    rw [hsuspended]
    rfl
  | finished a' b' key' hlater hdelivers' =>
    obtain ⟨rfl, rfl⟩ := hdelivers'.latches.unique hdelivers.latches
    have hheld := hdelivers.held b' hdelivers'.later hlater hdelivers'.polls
    rw [hdelivers'.released] at hheld
    cases hheld

/-- What the delivery does in a session that begins with `FX0A`. -/
theorem delivery_in_session {m : Machine} {x key : Nibble} {session : List Operation}
    {a b : Nat} (hwait : m.keyWait = none) (hinstruction : m.instruction = .awaitKey x)
    (hfirst : Polls session 0) (hplays : ∀ operation ∈ session, operation.plays = true)
    (hdelivers : m.Delivers session a b key) :
    (m.before session b).step.outcome = .ok .proceed ∧
      m.before session (b + 1) = { m.advance.setV x key.toByte with
        keyWait := none
        timers := Nat.repeat Timers.tick ((session.take b).countP Operation.ticks) m.timers
        keypad := (m.before session b).keypad } := by
  obtain ⟨i, rfl⟩ : ∃ i, b = i + 1 :=
    Nat.exists_eq_succ_of_ne_zero (Nat.ne_zero_of_lt hdelivers.later)
  have hi : i < session.length :=
    Nat.lt_of_succ_lt (List.getElem?_eq_some_iff.1 hdelivers.polls).1
  exact poll_at_delivery hdelivers (phase_of_session hwait hinstruction hfirst hplays i hi)

/-- Whether a key is held depends on the host alone: on whether it was held before and on
whether the operation presses or releases it. -/
theorem holds_perform (m : Machine) (operation : Operation) (key : Nibble) :
    (m.perform operation).machine.keypad.holds key =
      operation.hold key (m.keypad.holds key) := by
  cases operation with
  | step => exact congrArg (·.holds key) m.keypad_step
  | setKey other pressed => exact m.keypad.holds_set other key pressed
  | load program =>
    obtain ⟨cells, r, h⟩ := m.load_memory program
    rw [h]
    rfl
  | loadFile path content =>
    obtain ⟨cells, r, h⟩ := m.loadFile_memory path content
    rw [h]
    rfl
  | _ => rfl

/-- Whether a key is held after a session. -/
theorem holds_performAll (m : Machine) (session : List Operation) (key : Nibble) :
    (m.performAll session).keypad.holds key =
      session.foldl (Operation.hold key) (m.keypad.holds key) := by
  induction session generalizing m with
  | nil => rfl
  | cons first rest ih => rw [performAll_cons, ih, holds_perform, List.foldl_cons]

/-- Whether some step of a session finds a key released, given whether it is held at the
start. -/
def findsReleased (key : Nibble) : Bool → List Operation → Bool
  | _, [] => false
  | held, first :: rest =>
    (decide (first = .step) && !held) || findsReleased key (first.hold key held) rest

/-- Presses and releases of other keys do not matter to that. -/
theorem findsReleased_filter (key : Nibble) (held : Bool) (session : List Operation) :
    findsReleased key held (session.filter (Operation.concerns key)) =
      findsReleased key held session := by
  induction session generalizing held with
  | nil => rfl
  | cons first rest ih =>
    cases hconcerns : first.concerns key with
    | true => rw [List.filter_cons_of_pos hconcerns, findsReleased, findsReleased, ih]
    | false =>
      have hother : first.hold key held = held ∧ first ≠ .step := by
        cases first with
        | setKey other pressed =>
          simp only [Operation.concerns, decide_eq_false_iff_not] at hconcerns
          exact ⟨if_neg hconcerns, Operation.noConfusion⟩
        | _ => cases hconcerns
      rw [List.filter_cons_of_neg (by rw [hconcerns]; exact Bool.false_ne_true), ih,
        findsReleased, hother.1, decide_eq_false hother.2, Bool.false_and, Bool.false_or]

/-- A step that finds the key released, by its number. -/
theorem findsReleased_eq_true_iff (key : Nibble) (held : Bool) (session : List Operation) :
    findsReleased key held session = true ↔
      ∃ n, Polls session n ∧ (session.take n).foldl (Operation.hold key) held = false := by
  induction session generalizing held with
  | nil =>
    constructor
    · intro h
      cases h
    · rintro ⟨n, hpoll, -⟩
      cases hpoll
  | cons first rest ih =>
    rw [findsReleased, Bool.or_eq_true, ih]
    constructor
    · rintro (hnow | ⟨n, hpoll, hreleased⟩)
      · rw [Bool.and_eq_true, decide_eq_true_iff, Bool.not_eq_true'] at hnow
        exact ⟨0, congrArg some hnow.1, hnow.2⟩
      · exact ⟨n + 1, hpoll, hreleased⟩
    · rintro ⟨n, hpoll, hreleased⟩
      cases n with
      | zero =>
        left
        rw [Bool.and_eq_true, decide_eq_true_iff, Bool.not_eq_true']
        exact ⟨Option.some.inj hpoll, hreleased⟩
      | succ n => exact .inr ⟨n, hpoll, hreleased⟩

/-- A latched key is delivered if some later poll finds it released. -/
theorem exists_delivers_iff {m : Machine} {session : List Operation} {a : Nat} {key : Nibble}
    (hlatches : m.Latches session a key) :
    (∃ b, m.Delivers session a b key) ↔
      findsReleased key ((m.before session (a + 1)).keypad.holds key) (session.drop (a + 1)) =
        true := by
  have hbefore : ∀ n, (m.before session (a + 1 + n)).keypad.holds key =
      ((session.drop (a + 1)).take n).foldl (Operation.hold key)
        ((m.before session (a + 1)).keypad.holds key) := by
    intro n
    rw [before, List.take_add, performAll_append, holds_performAll]
    rfl
  have hpolls : ∀ n, Polls (session.drop (a + 1)) n ↔ Polls session (a + 1 + n) := by
    intro n
    rw [Polls, List.getElem?_drop, Polls]
  rw [findsReleased_eq_true_iff]
  constructor
  · rintro ⟨b, hdelivers⟩
    obtain ⟨n, rfl⟩ : ∃ n, b = a + 1 + n := Nat.exists_eq_add_of_le hdelivers.later
    exact ⟨n, (hpolls n).2 hdelivers.polls, (hbefore n).symm.trans hdelivers.released⟩
  · rintro ⟨n, hpoll, hreleased⟩
    classical
    -- The delivery is the first of the polls that find the key released.
    have hexists : ∃ b, a < b ∧ Polls session b ∧
        (m.before session b).keypad.holds key = false :=
      ⟨a + 1 + n, by omega, (hpolls n).1 hpoll, (hbefore n).trans hreleased⟩
    obtain ⟨hlater, hpoll, hreleased⟩ := Nat.find_spec hexists
    refine ⟨Nat.find hexists, hlatches, hlater, hpoll, hreleased, fun i hi hlt hp => ?_⟩
    have hmin := Nat.find_min hexists hlt
    by_contra hheld
    exact hmin ⟨hi, hp, eq_false_of_ne_true hheld⟩

/-- Sessions that begin alike have the same polls there. -/
theorem polls_iff_of_take_eq {session other : List Operation} {n i : Nat}
    (hsame : other.take n = session.take n) (hi : i < n) : Polls other i ↔ Polls session i := by
  have hget := congrArg (·[i]?) hsame
  simp only [List.getElem?_take, if_pos hi] at hget
  rw [Polls, hget, Polls]

/-- Sessions that begin alike lead to the same machines there. -/
theorem before_eq_of_take_eq (m : Machine) {session other : List Operation} {n i : Nat}
    (hsame : other.take n = session.take n) (hi : i ≤ n) :
    m.before other i = m.before session i := by
  have htake := congrArg (List.take i) hsame
  rw [List.take_take, List.take_take, Nat.min_eq_left hi] at htake
  rw [before, htake, before]

/-- Which key a poll latches depends only on the operations up to that poll. -/
theorem Latches.congr {m : Machine} {session other : List Operation} {a : Nat} {key : Nibble}
    (h : m.Latches session a key) (hsame : other.take (a + 1) = session.take (a + 1)) :
    m.Latches other a key := by
  have hbefore := m.before_eq_of_take_eq hsame (Nat.le_succ a)
  refine ⟨(polls_iff_of_take_eq hsame (Nat.lt_succ_self a)).2 h.polls, ?_, ?_,
    fun i hi hpoll => ?_⟩
  · rw [hbefore]
    exact h.held
  · rw [hbefore]
    exact h.lowest
  · rw [m.before_eq_of_take_eq hsame (by omega)]
    exact h.first i hi ((polls_iff_of_take_eq hsame (by omega)).1 hpoll)

/-- A key that is delivered in one session is delivered in every other session that is the
same until the key is latched and then presses and releases that key in the same way. -/
theorem Delivers.of_same_presses {m : Machine} {session other : List Operation} {a b : Nat}
    {key : Nibble} (h : m.Delivers session a b key)
    (hsame : other.take (a + 1) = session.take (a + 1))
    (hpresses : (other.drop (a + 1)).filter (Operation.concerns key) =
      (session.drop (a + 1)).filter (Operation.concerns key)) :
    ∃ b', m.Delivers other a b' key := by
  have hfinds := (exists_delivers_iff h.latches).1 ⟨b, h⟩
  rw [exists_delivers_iff (h.latches.congr hsame), before, hsame, ← findsReleased_filter,
    hpresses, findsReleased_filter]
  exact hfinds

/-- A host that plays the one session plays the other, too: the other only differs in
presses and releases. -/
theorem plays_of_same_presses {session other : List Operation} {n : Nat} {key : Nibble}
    (hplays : ∀ operation ∈ session, operation.plays = true)
    (hsame : other.take n = session.take n)
    (hpresses : (other.drop n).filter (Operation.concerns key) =
      (session.drop n).filter (Operation.concerns key)) :
    ∀ operation ∈ other, operation.plays = true := by
  intro operation hmem
  rw [← List.take_append_drop n other, List.mem_append] at hmem
  rcases hmem with hmem | hmem
  · rw [hsame] at hmem
    exact hplays operation (List.mem_of_mem_take hmem)
  · cases hconcerns : operation.concerns key with
    | true =>
      have hfilter : operation ∈ (session.drop n).filter (Operation.concerns key) :=
        hpresses ▸ List.mem_filter.2 ⟨hmem, hconcerns⟩
      exact hplays operation (List.mem_of_mem_drop (List.mem_filter.1 hfilter).1)
    | false =>
      cases operation with
      | setKey => rfl
      | _ => cases hconcerns

/-- The protocol of `FX0A`, for every session that begins with the step that carries it out
and goes on with steps, ticks and key changes in any order. Each poll before the delivery
asks to wait and changes nothing but the wait, apart from the first, which also moves past
the instruction. The delivery stores the key that was latched, goes on behind the
instruction, and leaves everything as it was before it, but for timers and keypad, which
only the host has changed. Which key is delivered does not depend on what happens to other
keys after it was latched. -/
theorem key_wait_protocol {m : Machine} {x : Nibble} {session : List Operation}
    (hwait : m.keyWait = none) (hinstruction : m.instruction = .awaitKey x)
    (hfirst : Polls session 0) (hplays : ∀ operation ∈ session, operation.plays = true) :
    (∀ i, Polls session i → (∀ a b key, m.Delivers session a b key → i < b) →
      (m.before session i).step.outcome = .ok .awaitingKey ∧
      (m.before session (i + 1)).awaitsKey = true ∧
      ∃ latched, m.before session (i + 1) =
        { if i = 0 then m.advance else m.before session i with
          keyWait := some ⟨x, latched⟩ }) ∧
    (∀ a b key, m.Delivers session a b key →
      (m.before session b).step.outcome = .ok .proceed ∧
      (m.before session (b + 1)).awaitsKey = false ∧
      (m.before session (b + 1)).v x = key.toByte ∧
      (m.before session (b + 1)).pc = m.pc.forward 2 ∧
      m.before session (b + 1) = { m.advance.setV x key.toByte with
        keyWait := none
        timers := Nat.repeat Timers.tick ((session.take b).countP Operation.ticks) m.timers
        keypad := (m.before session b).keypad }) ∧
    (∀ a b key other, m.Delivers session a b key →
      other.take (a + 1) = session.take (a + 1) →
      (other.drop (a + 1)).filter (Operation.concerns key) =
        (session.drop (a + 1)).filter (Operation.concerns key) →
      ∃ b', m.Delivers other a b' key ∧ (m.before other (b' + 1)).v x = key.toByte) := by
  refine ⟨fun i hpoll hbefore => ?_, fun a b key hdelivers => ?_,
    fun a b key other hdelivers hsame hpresses => ?_⟩
  · have hpolled : (m.before session i).step.outcome = .ok .awaitingKey ∧
        ∃ latched, m.before session (i + 1) =
          { if i = 0 then m.advance else m.before session i with
            keyWait := some ⟨x, latched⟩ } := by
      cases i with
      | zero =>
        rw [before_succ_of_polls m hpoll]
        change m.step.outcome = .ok .awaitingKey ∧
          ∃ latched, m.step.machine = { m.advance with keyWait := some ⟨x, latched⟩ }
        rw [step_of_awaitKey hwait hinstruction]
        exact ⟨rfl, _, rfl⟩
      | succ i =>
        have hi : i < session.length := Nat.lt_of_succ_lt (List.getElem?_eq_some_iff.1 hpoll).1
        rw [if_neg (Nat.succ_ne_zero i)]
        exact poll_before_delivery hpoll
          (phase_of_session hwait hinstruction hfirst hplays i hi) hbefore
    obtain ⟨hout, latched, hmachine⟩ := hpolled
    refine ⟨hout, ?_, latched, hmachine⟩
    rw [hmachine]
    rfl
  · obtain ⟨hout, hmachine⟩ := delivery_in_session hwait hinstruction hfirst hplays hdelivers
    refine ⟨hout, ?_, ?_, ?_, hmachine⟩
    · rw [hmachine]
      rfl
    · rw [hmachine]
      exact (m.advance.registers.get_set x x key.toByte).trans (if_pos rfl)
    · rw [hmachine]
      rfl
  · obtain ⟨b', hother⟩ := hdelivers.of_same_presses hsame hpresses
    refine ⟨b', hother, ?_⟩
    have hfirst' : Polls other 0 := (polls_iff_of_take_eq hsame (Nat.succ_pos a)).2 hfirst
    have hplays' := plays_of_same_presses hplays hsame hpresses
    obtain ⟨-, hmachine⟩ := delivery_in_session hwait hinstruction hfirst' hplays' hother
    rw [hmachine]
    exact (m.advance.registers.get_set x x key.toByte).trans (if_pos rfl)

/-- A machine that is about to wait for a key for register 3. -/
def beforeWait : Machine := (create .modern (.ofSeed 7)).facing 0xF30A

/-- A session in which key 5 is pressed, seen, and released while key 2 is held. -/
def pressesFive : List Operation :=
  [.step, .setKey (.ofNat 5) true, .tick, .step, .setKey (.ofNat 2) true,
    .setKey (.ofNat 5) false, .step]

/-- Key 5 is latched by operation number 3 and delivered by operation number 6. -/
theorem delivers_pressesFive : beforeWait.Delivers pressesFive 3 6 (.ofNat 5) := by
  have hholds : ∀ i key, (beforeWait.before pressesFive i).keypad.holds key =
      (pressesFive.take i).foldl (Operation.hold key) false := by
    intro i key
    have hfree : ∀ key, beforeWait.keypad.holds key = false := by decide
    rw [before, holds_performAll, hfree]
  refine ⟨⟨rfl, ?_, ?_, fun i hi hpoll other => ?_⟩, by decide, rfl, ?_, fun i hi hlt hpoll => ?_⟩
  · rw [hholds]
    decide
  · intro other hother
    rw [hholds]
    revert other
    decide
  · rw [hholds]
    obtain rfl | rfl | rfl : i = 0 ∨ i = 1 ∨ i = 2 := by omega
    · rfl
    · cases hpoll
    · cases hpoll
  · rw [hholds]
    decide
  · obtain rfl | rfl : i = 4 ∨ i = 5 := by omega
    · cases hpoll
    · cases hpoll

/-- Register 3 receives key 5, although key 2 is held by then. -/
theorem five_delivered_to_three :
    beforeWait.keyWait = none ∧ beforeWait.instruction = .awaitKey (.ofNat 3) ∧
      Polls pressesFive 0 ∧ (∀ operation ∈ pressesFive, operation.plays = true) ∧
      beforeWait.Delivers pressesFive 3 6 (.ofNat 5) ∧
      (beforeWait.before pressesFive 7).v (.ofNat 3) = 5 := by
  have hinstruction : beforeWait.instruction = .awaitKey (.ofNat 3) :=
    instruction_facing (create .modern (.ofSeed 7)) 0xF30A
  have hplays : ∀ operation ∈ pressesFive, operation.plays = true := by decide
  have hfirst : Polls pressesFive 0 := rfl
  obtain ⟨-, hdelivery, -⟩ := key_wait_protocol rfl hinstruction hfirst hplays
  obtain ⟨-, -, hv, -⟩ := hdelivery 3 6 (.ofNat 5) delivers_pressesFive
  exact ⟨rfl, hinstruction, hfirst, hplays, delivers_pressesFive, hv⟩

end Machine

end ChipEight
