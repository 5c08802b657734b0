import Mathlib.Logic.Basic
import PuzzleKit.Proofs.Integer.Numeral
import PuzzleKit.Proofs.Registration.Setting
import PuzzleKit.Registration.Expansion

/-!
# The runner that settings ask for

Once the settings are collected, three things are looked at in this order: what is
annotated, the name to report, and whether there is a first part. Each can be wrong, and
the first that is wrong is what is complained about (`Violates`). A name is given, or it
is that of a day, and not both; the day is a number of eight bits.

If nothing is wrong, the runner is a function of the properties. So it is the same for
every order of the settings, as the properties are.
-/

namespace PuzzleKit.Item

/-- The items that can be annotated. -/
def IsAnnotatable (item : Item) : Prop :=
  (∃ name, item = .structure name) ∨ ∃ type, item = .implementation type

theorem isAnnotatable_iff {item : Item} :
    item.IsAnnotatable ↔ ∃ type, item.runnerType? = some type := by
  cases item <;> simp [IsAnnotatable, runnerType?]

end PuzzleKit.Item

namespace PuzzleKit.Registration

variable {settings settings' : List Setting} {p : Properties} {item : Item} {x : Expansion}
  {name : NameValue} {source digits : List Char} {v : Value} {e : RegistrationError}

/-! ## Days -/

theorem exists_eq_digits_of_unsigned? {cs : List Char}
    (h : Literal.unsigned? cs = some digits) : ∃ n, digits = Numeral.digits n := by
  unfold Literal.unsigned? at h
  dsimp only at h
  split at h
  · cases h
  · split at h
    · cases h
    · cases h
      exact ⟨_, rfl⟩

theorem exists_eq_digits_of_integer? {tokens rest : List Source.Token}
    (h : Literal.integer? tokens = some (digits, rest)) :
    ∃ n, digits = Numeral.digits n ∨ digits = '-' :: Numeral.digits n := by
  unfold Literal.integer? at h
  split at h
  · obtain ⟨found, hfound, hpair⟩ := Option.map_eq_some_iff.mp h
    cases hpair
    obtain ⟨n, hn⟩ := exists_eq_digits_of_unsigned? hfound
    exact ⟨n, .inl hn⟩
  · obtain ⟨found, hfound, hpair⟩ := Option.map_eq_some_iff.mp h
    cases hpair
    obtain ⟨n, rfl⟩ := exists_eq_digits_of_unsigned? hfound
    exact ⟨n, .inr rfl⟩
  · cases h

theorem exists_eq_digits_of_dayDigits {tokens : List Source.Token}
    (h : dayDigits tokens = .ok digits) :
    ∃ n, digits = Numeral.digits n ∨ digits = '-' :: Numeral.digits n := by
  unfold dayDigits at h
  split at h
  · next found hinteger =>
      cases h
      exact exists_eq_digits_of_integer? hinteger
  · cases h
  · cases h

/-- A day is read as the digits of a number, after a minus if it has one. -/
theorem exists_day_of_read? (h : Value.read? .day source = some v) :
    ∃ n, v = .day (Numeral.digits n) ∨ v = .day ('-' :: Numeral.digits n) := by
  unfold Value.read? at h
  split at h
  · next p hassign =>
      unfold Properties.assign at hassign
      cases htokens : Source.Token.ofText? source with
      | none =>
          rw [htokens] at hassign
          cases hassign
      | some tokens =>
          rw [htokens] at hassign
          obtain ⟨_, -, hassign⟩ := bind_eq_ok_iff.mp hassign
          obtain ⟨digits, hdigits, hassign⟩ := bind_eq_ok_iff.mp hassign
          cases hassign
          cases h
          obtain ⟨n, rfl | rfl⟩ := exists_eq_digits_of_dayDigits hdigits
          · exact ⟨n, .inl rfl⟩
          · exact ⟨n, .inr rfl⟩
  · cases h

/-! ## Names -/

/-- A day is a number of eight bits. Such a number has no sign, so even -0 is none. -/
def Value.IsDay (v : Value) : Prop := ∃ n ≤ 255, v = .day (Numeral.digits n)

/-- The name to report: the one that is given, or that of the day. -/
inductive Named (settings : List Setting) : NameValue → Prop
  | given {name : NameValue} (hname : Gives settings .name (.name name))
    (hday : ¬Sets settings .day) : Named settings name
  | day {n : Nat} (hname : ¬Sets settings .name)
    (hday : Gives settings .day (.day (Numeral.digits n))) (hn : n ≤ 255) :
    Named settings (.text ("Day " ++ toString n))

/-- Why there is no name to report. -/
inductive Unnamed (settings : List Setting) : RegistrationError → Prop
  | both (hname : Sets settings .name) (hday : Sets settings .day) : Unnamed settings .nameAndDay
  | neither (hname : ¬Sets settings .name) (hday : ¬Sets settings .day) : Unnamed settings .noName
  | large {n : Nat} (hname : ¬Sets settings .name)
    (hday : Gives settings .day (.day (Numeral.digits n))) (hn : 255 < n) :
    Unnamed settings (.dayRange .tooLarge)
  | signed {n : Nat} (hname : ¬Sets settings .name)
    (hday : Gives settings .day (.day ('-' :: Numeral.digits n))) :
    Unnamed settings (.dayRange .invalidDigit)

theorem Gives.sets {key : Key} (h : Gives settings key v) : Sets settings key := by
  obtain ⟨s, hs, hkey, -⟩ := h
  exact ⟨s, hs, hkey⟩

theorem Gives.day_cases (h : Gives settings .day v) :
    ∃ n, v = .day (Numeral.digits n) ∨ v = .day ('-' :: Numeral.digits n) := by
  obtain ⟨s, -, -, hread⟩ := h
  exact exists_day_of_read? hread

theorem parse_signed (ds : List Char) : Word.parse .u8 ('-' :: ds) = .error .invalidDigit := rfl

section Collected

variable (h : Collected settings p)
include h

theorem Collected.name_eq_some_iff : p.name = some name ↔ Gives settings .name (.name name) := by
  rw [← h.get?_eq_some_iff]
  simp [Properties.get?]

theorem Collected.day_eq_some_iff : p.day = some digits ↔ Gives settings .day (.day digits) := by
  rw [← h.get?_eq_some_iff]
  simp [Properties.get?]

theorem Collected.name_eq_none_iff : p.name = none ↔ ¬Sets settings .name := by
  rw [← h.isSome_iff]
  simp [Properties.get?]

theorem Collected.day_eq_none_iff : p.day = none ↔ ¬Sets settings .day := by
  rw [← h.isSome_iff]
  simp [Properties.get?]

theorem Collected.exists_gives_name (hset : Sets settings .name) :
    ∃ name, Gives settings .name (.name name) := by
  obtain ⟨name, hname⟩ := Option.ne_none_iff_exists'.mp (mt h.name_eq_none_iff.mp (· hset))
  exact ⟨name, h.name_eq_some_iff.mp hname⟩

theorem Collected.exists_gives_day (hset : Sets settings .day) :
    ∃ digits, Gives settings .day (.day digits) := by
  obtain ⟨digits, hday⟩ := Option.ne_none_iff_exists'.mp (mt h.day_eq_none_iff.mp (· hset))
  exact ⟨digits, h.day_eq_some_iff.mp hday⟩

theorem Collected.runnerName_of_named (hname : Named settings name) : p.runnerName = .ok name := by
  have hmax : Width.u8.max = 255 := by decide
  unfold Properties.runnerName
  cases hname with
  | given hname hday =>
      rw [h.name_eq_some_iff.mpr hname, h.day_eq_none_iff.mpr hday]
  | @day n hname hday hn =>
      obtain ⟨day, hparse, hval⟩ := (Word.parse_digits .u8 n).1 (by omega)
      rw [h.name_eq_none_iff.mpr hname, h.day_eq_some_iff.mpr hday]
      simp only [hparse, Word.toText, hval]
      rfl

theorem Collected.runnerName_of_unnamed (hname : Unnamed settings e) :
    p.runnerName = .error e := by
  have hmax : Width.u8.max = 255 := by decide
  unfold Properties.runnerName
  cases hname with
  | both hname hday =>
      obtain ⟨name, hname⟩ := h.exists_gives_name hname
      obtain ⟨digits, hday⟩ := h.exists_gives_day hday
      rw [h.name_eq_some_iff.mpr hname, h.day_eq_some_iff.mpr hday]
  | neither hname hday =>
      rw [h.name_eq_none_iff.mpr hname, h.day_eq_none_iff.mpr hday]
  | @large n hname hday hn =>
      rw [h.name_eq_none_iff.mpr hname, h.day_eq_some_iff.mpr hday]
      simp only [(Word.parse_digits .u8 n).2 (by omega)]
  | @signed n hname hday =>
      rw [h.name_eq_none_iff.mpr hname, h.day_eq_some_iff.mpr hday]
      simp only [parse_signed]

/-- There is no third case, as the source of a day is read as a number. -/
theorem Collected.named_or_unnamed :
    (∃ name, Named settings name) ∨ ∃ e, Unnamed settings e := by
  by_cases hname : Sets settings .name <;> by_cases hday : Sets settings .day
  · exact .inr ⟨_, .both hname hday⟩
  · obtain ⟨name, hgives⟩ := h.exists_gives_name hname
    exact .inl ⟨name, .given hgives hday⟩
  · obtain ⟨digits, hgives⟩ := h.exists_gives_day hday
    obtain ⟨n, hvalue | hvalue⟩ := hgives.day_cases
    · rw [hvalue] at hgives
      rcases Nat.lt_or_ge 255 n with hn | hn
      · exact .inr ⟨_, .large hname hgives hn⟩
      · exact .inl ⟨_, .day hname hgives hn⟩
    · rw [hvalue] at hgives
      exact .inr ⟨_, .signed hname hgives⟩
  · exact .inr ⟨_, .neither hname hday⟩

end Collected

/-- Just one of a name and a day is set, and a day is in range. -/
def HasName (settings : List Setting) : Prop :=
  Xor (Sets settings .name) (Sets settings .day) ∧ ∀ v, Gives settings .day v → v.IsDay

theorem Collected.exists_named_iff (h : Collected settings p) :
    (∃ name, Named settings name) ↔ HasName settings := by
  constructor
  · intro ⟨name, hname⟩
    cases hname with
    | given hname hday =>
        exact ⟨.inl ⟨hname.sets, hday⟩, fun v hv => absurd hv.sets hday⟩
    | @day n hname hday hn =>
        refine ⟨.inr ⟨hday.sets, hname⟩, fun v hv => ⟨n, hn, ?_⟩⟩
        rw [← h.get?_eq_some_iff] at hv hday
        exact Option.some.inj (hv.symm.trans hday)
  · intro ⟨hone, hday⟩
    rcases hone with ⟨hset, hno⟩ | ⟨hset, hno⟩
    · obtain ⟨name, hgives⟩ := h.exists_gives_name hset
      exact ⟨name, .given hgives hno⟩
    · obtain ⟨digits, hgives⟩ := h.exists_gives_day hset
      obtain ⟨n, hn, hvalue⟩ := hday _ hgives
      rw [hvalue] at hgives
      exact ⟨_, .day hno hgives hn⟩

/-! ## Runners -/

/-- The three things that a runner needs. -/
structure Accepts (settings : List Setting) (item : Item) : Prop where
  item : item.IsAnnotatable
  name : HasName settings
  partOne : Sets settings .partOne

/-- What is wrong, if nothing that is looked at before is. -/
inductive Violates (settings : List Setting) (item : Item) : RegistrationError → Prop
  | item (hitem : ¬item.IsAnnotatable) : Violates settings item .wrongItem
  | name {e : RegistrationError} (hitem : item.IsAnnotatable) (hname : Unnamed settings e) :
    Violates settings item e
  | partOne (hitem : item.IsAnnotatable) (hname : HasName settings)
    (hone : ¬Sets settings .partOne) : Violates settings item .noPartOne

/-- What is generated from properties that a list of settings gives. -/
structure Generated (settings : List Setting) (p : Properties) (item : Item) (x : Expansion) :
    Prop where
  selfType : item.runnerType? = some x.selfType
  name : Named settings x.name
  parsed_iff : x.entry = .parsedHalf ∨ x.entry = .parsedFull ↔ Sets settings .parsed
  full_iff : x.entry = .full ∨ x.entry = .parsedFull ↔ Sets settings .partTwo
  types : x.types.map Value.type = [Key.parsed, .partOne, .partTwo].filterMap p.get?

section Call

variable (parsed : Option String) (one : String) (two : Option String)

theorem Expansion.call_parsed_iff : (call parsed one two).1 = .parsedHalf ∨
    (call parsed one two).1 = .parsedFull ↔ parsed.isSome := by
  cases parsed <;> cases two <;> simp [call]

theorem Expansion.call_full_iff : (call parsed one two).1 = .full ∨
    (call parsed one two).1 = .parsedFull ↔ two.isSome := by
  cases parsed <;> cases two <;> simp [call]

theorem Expansion.call_types :
    (call parsed one two).2 = parsed.toList ++ one :: two.toList := by
  cases parsed <;> cases two <;> rfl

end Call

section Collected

variable (h : Collected settings p)
include h

theorem Collected.accepts_or_violates (item : Item) :
    Accepts settings item ∨ ∃ e, Violates settings item e := by
  by_cases hitem : item.IsAnnotatable
  · obtain hname | ⟨e, hname⟩ := h.named_or_unnamed
    · have hname := h.exists_named_iff.mp hname
      by_cases hone : Sets settings .partOne
      · exact .inl ⟨hitem, hname, hone⟩
      · exact .inr ⟨_, .partOne hitem hname hone⟩
    · exact .inr ⟨e, .name hitem hname⟩
  · exact .inr ⟨_, .item hitem⟩

theorem Collected.generated_of_accepts (haccepts : Accepts settings item) :
    ∃ x, Expansion.ofProperties p item = .ok x ∧ Generated settings p item x := by
  obtain ⟨type, hitem⟩ := Item.isAnnotatable_iff.mp haccepts.item
  obtain ⟨name, hname⟩ := h.exists_named_iff.mpr haccepts.name
  have hset : p.partOne.isSome := by
    have hset := h.isSome_iff.mpr haccepts.partOne
    rwa [Properties.get?, Option.isSome_map] at hset
  obtain ⟨one, hone⟩ := Option.isSome_iff_exists.mp hset
  refine ⟨⟨type, name, (Expansion.call p.parsed one p.partTwo).1,
    (Expansion.call p.parsed one p.partTwo).2⟩, ?_, hitem, hname, ?_, ?_, ?_⟩
  · rw [Expansion.ofProperties, hitem, h.runnerName_of_named hname, hone]
    rfl
  · rw [Expansion.call_parsed_iff, ← h.isSome_iff, Properties.get?, Option.isSome_map]
  · rw [Expansion.call_full_iff, ← h.isSome_iff, Properties.get?, Option.isSome_map]
  · rw [Expansion.call_types]
    cases hparsed : p.parsed <;> cases htwo : p.partTwo <;>
      simp [Properties.get?, hparsed, hone, htwo]

theorem Collected.error_of_violates (hviolates : Violates settings item e) :
    Expansion.ofProperties p item = .error e := by
  cases hviolates with
  | item hitem =>
      rw [Item.isAnnotatable_iff, not_exists] at hitem
      rw [Expansion.ofProperties, Option.eq_none_iff_forall_ne_some.mpr hitem]
      rfl
  | name hitem hname =>
      obtain ⟨type, hitem⟩ := Item.isAnnotatable_iff.mp hitem
      rw [Expansion.ofProperties, hitem, h.runnerName_of_unnamed hname]
      rfl
  | partOne hitem hname hone =>
      obtain ⟨type, hitem⟩ := Item.isAnnotatable_iff.mp hitem
      obtain ⟨name, hname⟩ := h.exists_named_iff.mpr hname
      have hnone : p.partOne = none := by
        rw [← h.isSome_iff, Properties.get?, Option.isSome_map] at hone
        exact Option.not_isSome_iff_eq_none.mp hone
      rw [Expansion.ofProperties, hitem, h.runnerName_of_named hname, hnone]
      rfl

theorem Collected.exists_ofProperties_iff :
    (∃ x, Expansion.ofProperties p item = .ok x) ↔ Accepts settings item := by
  constructor
  · intro ⟨x, hx⟩
    obtain haccepts | ⟨e, hviolates⟩ := h.accepts_or_violates item
    · exact haccepts
    · rw [h.error_of_violates hviolates] at hx
      cases hx
  · intro haccepts
    obtain ⟨x, hx, -⟩ := h.generated_of_accepts haccepts
    exact ⟨x, hx⟩

theorem Collected.generated (hx : Expansion.ofProperties p item = .ok x) :
    Generated settings p item x := by
  obtain ⟨x', hx', hgenerated⟩ := h.generated_of_accepts (h.exists_ofProperties_iff.mp ⟨x, hx⟩)
  cases hx'.symm.trans hx
  exact hgenerated

end Collected

end PuzzleKit.Registration
