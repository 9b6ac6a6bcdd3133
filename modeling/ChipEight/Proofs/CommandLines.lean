import ChipEight.Proofs.ArgumentGrammar
import ChipEight.Proofs.Rates
import Mathlib.Data.List.Induction

/-!
# What a command line means

What a command line asks for depends on the values it gives and on nothing else: neither on the
order they are given in, nor on how an option is spelled. Of the grammar this takes no more than what
`Grammar` says. The rest is what is done with the texts: no text of a value can be taken for an
option, since none begins with a dash, each is read as the value that was meant, and what is read
for one slot leaves the others alone.
-/

namespace ChipEight

/-- The name of a profile. -/
def Profile.name : Profile → String
  | .modern => "modern"
  | .vip => "vip"

section rates

/-- A number with a minus sign is no rate. -/
theorem Binary32.isRate_negative (p : Magnitude) : (number true p).isRate = false := by
  have hnot : ¬(0 : Binary32) < number true p := by
    intro h
    rw [zero_eq] at h
    have hplaces : (0 : Int) < -(p.val : Int) := of_decide_eq_true h
    omega
  rw [isRate, decide_eq_false hnot, Bool.and_false]

/-- A decimal keeps its sign when it is rounded. -/
theorem Decimal.exists_toBinary32 (d : Decimal) : ∃ p, d.toBinary32 = .number d.negative p := by
  unfold toBinary32
  dsimp only
  split
  · exact ⟨_, rfl⟩
  · split
    · exact ⟨_, rfl⟩
    · split <;> exact ⟨_, rfl⟩

namespace Numeral

/-- A decimal has the sign that was written. -/
theorem negative_of_readDecimal {negative : Bool} {text : List Char} {d : Decimal}
    (h : readDecimal negative text = some d) : d.negative = negative := by
  unfold readDecimal at h
  dsimp only at h
  split at h
  · cases h
  · obtain ⟨exponent, -, rfl⟩ := Option.map_eq_some_iff.1 h
    rfl

/-- A literal that begins with a minus sign does not denote a rate. -/
theorem isRate_of_read_dash {text : List Char} {numeral : Numeral}
    (h : read ('-' :: text) = some numeral) : numeral.toBinary32.isRate = false := by
  have hsign : splitSign ('-' :: text) = (true, text) := rfl
  unfold read at h
  rw [hsign] at h
  dsimp only at h
  split at h
  · next d hd =>
    cases h
    obtain ⟨p, hp⟩ := d.exists_toBinary32
    rw [toBinary32, hp, negative_of_readDecimal hd, Binary32.isRate_negative]
  · unfold readWord at h
    dsimp only at h
    split at h
    · cases h
      exact Binary32.isRate_negative _
    · split at h
      · cases h
        rfl
      · cases h

end Numeral

/-- No text of a rate begins with a dash. -/
theorem undashed_of_readRate {text : String} {rate : Binary32} (h : readRate text = .ok rate) :
    Undashed text := by
  intro hdash
  obtain ⟨rest, htext⟩ := List.head?_eq_some_iff.1 hdash
  unfold readRate at h
  split at h
  · cases h
  · rw [htext] at h
    split at h
    · cases h
    · next numeral hread =>
      rw [Numeral.isRate_of_read_dash hread, if_neg Bool.false_ne_true] at h
      cases h

end rates

namespace CommandLine

namespace Values

/-- No text of a seed begins with a dash. -/
theorem undashed_of_readSeed {text : String} {seed : UInt64} (h : readSeed text = some seed) :
    Undashed text := by
  intro hdash
  obtain ⟨rest, htext⟩ := List.head?_eq_some_iff.1 hdash
  unfold readSeed at h
  rw [htext] at h
  dsimp only at h
  split at h
  · next hplus => exact absurd (List.head_eq_of_cons_eq hplus) (by decide)
  · split at h
    · next hdigits =>
      exact absurd (List.all_eq_true.1 hdigits.2.1 '-' List.mem_cons_self) (by decide)
    · cases h

/-- Every seed is read from its decimal digits. -/
theorem readSeed_toString (seed : UInt64) : readSeed (toString seed.toNat) = some seed := by
  have htext : (toString seed.toNat).toList = Nat.toDigits 10 seed.toNat := Nat.toList_repr
  have hall : ∀ c ∈ Nat.toDigits 10 seed.toNat, c.isDigit = true := fun c hmem =>
    Nat.isDigit_of_mem_toDigits (by decide) (by decide) hmem
  have hnumber : Numeral.wholeNumber (Nat.toDigits 10 seed.toNat) = seed.toNat :=
    Nat.ofDigitChars_ten_toDigits
  have hfits : Numeral.wholeNumber (Nat.toDigits 10 seed.toNat) < UInt64.size := by
    rw [hnumber]
    exact seed.toNat_lt
  unfold readSeed
  rw [htext]
  dsimp only
  split
  · next rest hplus =>
    rw [hplus] at hall
    exact absurd (hall '+' List.mem_cons_self) (by decide)
  · rw [if_pos ⟨Nat.toDigits_ne_nil, List.all_eq_true.2 hall, hfits⟩, hnumber,
      UInt64.ofNat_toNat]

end Values

/-- The name of a program file that is not taken for an option. -/
structure FileName where
  /-- The name. -/
  text : String
  /-- It is not empty. -/
  nonempty : text ≠ ""
  /-- It does not begin with a dash. -/
  undashed : Undashed text

/-- A rate with a text that it is read from. -/
structure RateText where
  /-- The text. -/
  text : String
  /-- The rate. -/
  rate : Binary32
  /-- The text is accepted. -/
  reads : readRate text = .ok rate

/-- A seed with a text that it is read from. -/
structure SeedText where
  /-- The text. -/
  text : String
  /-- The seed. -/
  seed : UInt64
  /-- The text is accepted. -/
  reads : Values.readSeed text = some seed

/-- What a user chooses, each part if wanted. -/
structure Choice where
  /-- The program file. -/
  program : Option FileName := none
  /-- The profile. -/
  profile : Option Profile := none
  /-- The rate of the instructions. -/
  cpuRate : Option RateText := none
  /-- The seed. -/
  seed : Option SeedText := none

namespace Choice

/-- The text of what is chosen for a slot. -/
def text? (c : Choice) : Slot → Option String
  | .program => c.program.map FileName.text
  | .profile => c.profile.map Profile.name
  | .cpuRate => c.cpuRate.map RateText.text
  | .seed => c.seed.map SeedText.text

/-- The arguments that give what is chosen, in some order. -/
def present (c : Choice) (order : List Mention) : List String :=
  order.flatMap fun mention => (c.text? mention.slot).elim [] mention.arguments

/-- The last value of an order is given at the end. -/
theorem present_concat {c : Choice} {order : List Mention} {mention : Mention} {text : String}
    (h : c.text? mention.slot = some text) :
    c.present (order ++ [mention]) = c.present order ++ mention.arguments text := by
  unfold present
  rw [List.flatMap_append, List.flatMap_singleton, h]
  rfl

/-- An order to give all in that is chosen. -/
structure Ordered (c : Choice) (order : List Mention) : Prop where
  /-- Nothing is given twice. -/
  once : (order.map Mention.slot).Nodup
  /-- Just that is given what is chosen. -/
  given : ∀ slot, slot ∈ order.map Mention.slot ↔ (c.text? slot).isSome = true

/-- What is asked for: the choice, or else the modern profile and 700 instructions a second. -/
def invocation (c : Choice) : Invocation where
  program := c.program.map FileName.text
  profile := c.profile.getD .modern
  cpuRate := (c.cpuRate.map RateText.rate).getD 700
  seed := c.seed.map SeedText.seed

/-- The settings that are asked for. -/
def settings (c : Choice) : Settings where
  dialect := if c.profile = some .vip then .cosmacVip else .modern
  cpuRate := (c.cpuRate.map RateText.rate).getD 700
  timerRate := 60
  seed := c.seed.map SeedText.seed

/-- The settings are the ones of the invocation. -/
theorem settings_invocation (c : Choice) : c.invocation.settings = c.settings := by
  obtain ⟨program, profile, cpuRate, seed⟩ := c
  cases profile with
  | none => rfl
  | some profile => cases profile <;> rfl

/-- The values that are chosen. -/
def values (c : Choice) : Values where
  program := c.program.map FileName.text
  profile := c.profile
  cpuRate := c.cpuRate.map RateText.rate
  seed := c.seed.map SeedText.seed

/-- A slot has a value if there is a text for it. -/
theorem has_values (c : Choice) (slot : Slot) : c.values.has slot = (c.text? slot).isSome := by
  cases slot <;> simp only [values, Values.has, text?, Option.isSome_map]

end Choice

namespace Values

/-- The values for some slots only. -/
def only (values : Values) (slots : List Slot) : Values where
  program := if .program ∈ slots then values.program else none
  profile := if .profile ∈ slots then values.profile else none
  cpuRate := if .cpuRate ∈ slots then values.cpuRate else none
  seed := if .seed ∈ slots then values.seed else none

variable {values : Values} {slots : List Slot} {slot : Slot} {text : String} {c : Choice}

/-- The other slots have no value. -/
theorem has_only (h : slot ∉ slots) : (values.only slots).has slot = false := by
  cases slot <;> simp only [only, has, if_neg h, Option.isSome_none]

/-- Nothing is lost if all slots with a value are kept. -/
theorem only_eq_self (h : ∀ slot, values.has slot = true → slot ∈ slots) :
    values.only slots = values := by
  have hkeep : ∀ {α : Type} {slot : Slot} (value : Option α), (value.isSome = true → slot ∈ slots) →
      (if slot ∈ slots then value else none) = value := by
    intro α slot value hvalue
    cases value with
    | none => exact ite_self none
    | some value => exact if_pos (hvalue rfl)
  unfold only
  rw [hkeep _ (h .program), hkeep _ (h .profile), hkeep _ (h .cpuRate), hkeep _ (h .seed)]

/-- The text of what is chosen is accepted as such. -/
theorem put_only (h : c.text? slot = some text) :
    (c.values.only slots).put slot text = .ok (c.values.only (slots ++ [slot])) := by
  cases slot with
  | program =>
    obtain ⟨file, hfile, rfl⟩ := Option.map_eq_some_iff.1 h
    have hempty : file.text.isEmpty = false := by simp [file.nonempty]
    simp [put, only, Choice.values, hfile, hempty]
  | profile =>
    obtain ⟨profile, hprofile, rfl⟩ := Option.map_eq_some_iff.1 h
    have hname : Profile.ofName? profile.name = some profile := by cases profile <;> decide
    simp [put, only, Choice.values, hprofile, hname]
  | cpuRate =>
    obtain ⟨rate, hrate, rfl⟩ := Option.map_eq_some_iff.1 h
    simp [put, only, Choice.values, hrate, rate.reads]
  | seed =>
    obtain ⟨seed, hseed, rfl⟩ := Option.map_eq_some_iff.1 h
    simp [put, only, Choice.values, hseed, seed.reads]

end Values

/-- What is chosen is not taken for an option. -/
theorem Choice.undashed {c : Choice} {slot : Slot} {text : String} (h : c.text? slot = some text) :
    Undashed text := by
  cases slot with
  | program =>
    obtain ⟨file, -, rfl⟩ := Option.map_eq_some_iff.1 h
    exact file.undashed
  | profile =>
    obtain ⟨profile, -, rfl⟩ := Option.map_eq_some_iff.1 h
    cases profile <;> decide
  | cpuRate =>
    obtain ⟨rate, -, rfl⟩ := Option.map_eq_some_iff.1 h
    exact undashed_of_readRate rate.reads
  | seed =>
    obtain ⟨seed, -, rfl⟩ := Option.map_eq_some_iff.1 h
    exact Values.undashed_of_readSeed seed.reads

/-- Reading on where the first arguments have led. -/
theorem Parser.run_append (p : Parser) (s : p.State) (first second : List String) :
    p.run s (first ++ second) = (p.run s first).bind fun after => p.run after second :=
  List.foldlM_append

section presentation

variable {p : Parser} {Holds : p.State → Values → Prop} {c : Choice} {order : List Mention}

/-- What is chosen for the slots of an order is held once the arguments were read. -/
theorem Grammar.exists_holds_only (g : Grammar p Holds) (honce : (order.map Mention.slot).Nodup)
    (hgiven : ∀ mention ∈ order, (c.text? mention.slot).isSome = true) :
    ∃ after, p.run p.start (c.present order) = .ok after ∧
      Holds after (c.values.only (order.map Mention.slot)) := by
  induction order using List.reverseRecOn with
  | nil => exact ⟨p.start, rfl, g.start⟩
  | append_singleton order mention ih =>
    rw [List.map_append, List.map_singleton] at honce ⊢
    obtain ⟨honce, -, hnew⟩ := List.nodup_append.1 honce
    obtain ⟨s, hread, hholds⟩ := ih honce fun mention hmem =>
      hgiven mention (List.mem_append_left _ hmem)
    obtain ⟨text, htext⟩ := Option.isSome_iff_exists.1
      (hgiven mention (List.mem_append_right _ (List.mem_singleton_self mention)))
    have hslot : mention.slot ∉ order.map Mention.slot := fun hmem =>
      hnew _ hmem _ (List.mem_singleton_self _) rfl
    obtain ⟨after, hafter, hholds⟩ := g.give hholds (Values.has_only hslot)
      (Choice.undashed htext) (Values.put_only htext)
    refine ⟨after, ?_, hholds⟩
    rw [Choice.present_concat htext, p.run_append, hread]
    exact hafter

/-- In whatever order and spelling a choice is given, it is held in the end. -/
theorem Grammar.exists_holds (g : Grammar p Holds) (h : c.Ordered order) :
    ∃ after, p.run p.start (c.present order) = .ok after ∧ Holds after c.values := by
  have hgiven : ∀ mention ∈ order, (c.text? mention.slot).isSome = true := fun mention hmem =>
    (h.given mention.slot).1 (List.mem_map_of_mem hmem)
  obtain ⟨after, hread, hholds⟩ := g.exists_holds_only h.once hgiven
  rw [Values.only_eq_self fun slot hhas => (h.given slot).2 (c.has_values slot ▸ hhas)] at hholds
  exact ⟨after, hread, hholds⟩

/-- Whoever follows the grammar finds the values of a choice, in whatever order they are given and
however the options are spelled, and reports an option that is given once more at the end with a
value that could be chosen for it. -/
theorem Grammar.presents (g : Grammar p Holds) (h : c.Ordered order) :
    (p.run p.start (c.present order)).bind p.finish = .ok c.values ∧
      ∀ (other : Choice) (again : Mention) (text : String), again.slot ≠ .program →
        (c.text? again.slot).isSome = true → other.text? again.slot = some text →
        (p.run p.start (c.present order ++ again.arguments text)).bind p.finish =
          .error .repeated := by
  obtain ⟨after, hread, hholds⟩ := g.exists_holds h
  refine ⟨?_, fun other again text hoption hgiven htext => ?_⟩
  · rw [hread]
    exact g.finish hholds
  · rw [p.run_append, hread]
    exact g.again hholds hoption (c.has_values again.slot ▸ hgiven) (Choice.undashed htext)

/-- The scanner finds the values, and what is not given has its default. -/
theorem parse_eq (arguments : List String) : parse arguments =
    ((scanner.run scanner.start arguments).bind scanner.finish).map Values.invocation := by
  change (arguments.foldlM Reader.read {}).bind _ =
    ((arguments.foldlM Reader.read {}).bind Reader.finish).map Values.invocation
  cases arguments.foldlM Reader.read {} <;> rfl

/-- The meaning of a command line does not depend on its presentation. Whatever is chosen, in
whatever order it is given and however the options are spelled, the command line is accepted and
asks for the choice, with the modern profile, 700 instructions a second, 60 timer ticks a second
and no seed where nothing is chosen. An option that is given once more at the end, with any value
that could be chosen for it, is reported as repeated. Every seed can be chosen by its decimal
digits. -/
theorem parse_present (h : c.Ordered order) :
    parse (c.present order) = .ok c.invocation ∧ c.invocation.settings = c.settings ∧
      (∀ (other : Choice) (again : Mention) (text : String), again.slot ≠ .program →
        (c.text? again.slot).isSome = true → other.text? again.slot = some text →
        parse (c.present order ++ again.arguments text) = .error .repeated) ∧
      ∀ seed : UInt64, Values.readSeed (toString seed.toNat) = some seed := by
  obtain ⟨hvalues, hagain⟩ := grammar_scanner.presents h
  refine ⟨?_, c.settings_invocation, fun other again text hoption hgiven htext => ?_,
    Values.readSeed_toString⟩
  · rw [parse_eq, hvalues]
    rfl
  · rw [parse_eq, hagain other again text hoption hgiven htext]
    rfl

end presentation

/-- A choice of everything, with texts in which a sign, an exponent and an equals sign occur. -/
def fullChoice : Choice where
  program := some ⟨"a=b.ch8", by decide, by decide⟩
  profile := some .vip
  cpuRate := some ⟨"1e3", 1000, by decide +kernel⟩
  seed := some ⟨"+7", 7, by decide +kernel⟩

/-- It is given in some order, one option apart from its value and two joined to it, and then the
seed is given once more. -/
theorem parse_present_fullChoice :
    fullChoice.Ordered
        [⟨.seed, .joined⟩, ⟨.program, .apart⟩, ⟨.cpuRate, .apart⟩, ⟨.profile, .joined⟩] ∧
      parse ["--seed=+7", "a=b.ch8", "--cpu-hz", "1e3", "--profile=vip"] =
        .ok ⟨some "a=b.ch8", .vip, 1000, some 7⟩ ∧
      parse ["--seed=+7", "a=b.ch8", "--cpu-hz", "1e3", "--profile=vip", "--seed", "+7"] =
        .error .repeated := by
  have hordered : fullChoice.Ordered
      [⟨.seed, .joined⟩, ⟨.program, .apart⟩, ⟨.cpuRate, .apart⟩, ⟨.profile, .joined⟩] :=
    ⟨by decide, fun slot => by cases slot <;> decide⟩
  obtain ⟨hparse, -, hrepeated, -⟩ := parse_present hordered
  exact ⟨hordered, hparse, hrepeated fullChoice ⟨.seed, .apart⟩ "+7" (by decide) rfl rfl⟩

end CommandLine

end ChipEight
