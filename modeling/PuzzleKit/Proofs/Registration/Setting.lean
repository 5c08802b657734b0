import Mathlib.Logic.Function.Basic
import PuzzleKit.Proofs.Fallible
import PuzzleKit.Registration.Property

/-!
# Settings taken one after the other

The properties that have been set are a finite map from keys to values (`get?`). A setting
that is accepted adds one entry to it, and one is refused if its key is no property or has
an entry already; `set_cases` says this once, and no later proof looks into `set`. How a
value is read from its source is not looked into either: the lists here are of settings
whose values can be read.

What a list of settings does follows by induction on it. An accepted list has no unknown
key and none twice, and the map holds just the values that the list gives (`Collected`).
So the order of the list does not matter, except for which setting is the first to be
refused where one is.
-/

namespace PuzzleKit.Registration

variable {key key' : Key} {source : List Char} {s : Setting} {e : RegistrationError}
  {before settings settings' : List Setting} {p q p' : Properties}

/-! ## Keys -/

/-- The setting is one of the property: its key is the same text, blanks aside. -/
def Setting.Names (s : Setting) (key : Key) : Prop :=
  key.text.toList = Text.trim s.key.toList

instance (s : Setting) (key : Key) : Decidable (s.Names key) :=
  inferInstanceAs (Decidable (key.text.toList = Text.trim s.key.toList))

theorem Key.eq_of_text_eq (h : key.text.toList = key'.text.toList) : key = key' := by
  cases key <;> cases key' <;> first | rfl | exact absurd h (by decide)

theorem Setting.Names.unique (h : s.Names key) (h' : s.Names key') : key = key' :=
  Key.eq_of_text_eq (h.trans h'.symm)

theorem Key.mem_all (key : Key) : key ∈ Key.all := by cases key <;> decide

theorem Key.ofText?_eq_some_iff : Key.ofText? s.key = some key ↔ s.Names key := by
  have hfound : ∀ found, Key.ofText? s.key = some found → s.Names found := by
    intro found h
    exact of_decide_eq_true (List.find?_some (p := fun key => decide (s.Names key)) h)
  constructor
  · exact hfound key
  · intro h
    obtain ⟨found, hfirst⟩ : ∃ found, Key.ofText? s.key = some found :=
      Option.isSome_iff_exists.mp (List.find?_isSome.mpr ⟨key, key.mem_all, decide_eq_true h⟩)
    rw [hfirst, (hfound found hfirst).unique h]

theorem Key.ofText?_eq_none_iff : Key.ofText? s.key = none ↔ ∀ key, ¬s.Names key := by
  simp only [Option.eq_none_iff_forall_ne_some, ne_eq, Key.ofText?_eq_some_iff]

/-! ## Values -/

/-- What the source of a setting is read as. -/
inductive Value
  | name (name : NameValue)
  | day (digits : List Char)
  | type (source : String)

/-- The value of a property, if it has one. -/
def Properties.get? (p : Properties) : Key → Option Value
  | .name => p.name.map .name
  | .day => p.day.map .day
  | .parsed => p.parsed.map .type
  | .partOne => p.partOne.map .type
  | .partTwo => p.partTwo.map .type

/-- The value that a source gives a property where nothing else is set, if it can be
read. -/
def Value.read? (key : Key) (source : List Char) : Option Value :=
  match Properties.empty.assign key source with
  | .ok p => p.get? key
  | .error _ => none

namespace Properties

theorem isSet_eq (p : Properties) (key : Key) : p.isSet key = (p.get? key).isSome := by
  cases key <;> simp [isSet, get?]

/-- Either the source is read, and the property has its value and all others keep
theirs, or the source is refused whatever is set. -/
def Assigns (p : Properties) (key : Key) (source : List Char) : Prop :=
  (∃ v p', Value.read? key source = some v ∧ p.assign key source = .ok p' ∧
      p'.get? = Function.update p.get? key (some v)) ∨
    Value.read? key source = none ∧ ∃ e, p.assign key source = .error e

/-- This holds of any reading of tokens, with a place for what is read among the
properties. -/
theorem assigns_of_reading {α : Type} (read : List Source.Token → Except RegistrationError α)
    (put : Properties → α → Properties) (value : α → Value)
    (hput : ∀ p a, (put p a).get? = Function.update p.get? key (some (value a)))
    (hassign : ∀ p tokens, Source.Token.ofText? source = some tokens →
      assign p key source = read tokens >>= fun a => pure (put p a)) (p : Properties) :
    p.Assigns key source := by
  have hrefused : ∀ e, (∀ p : Properties, p.assign key source = .error e) →
      p.Assigns key source := by
    intro e h
    refine .inr ⟨?_, e, h p⟩
    rw [Value.read?, h]
  cases htokens : Source.Token.ofText? source with
  | none =>
      refine hrefused .notTokens fun p => ?_
      rw [assign, htokens]
      rfl
  | some tokens =>
      cases hread : read tokens with
      | error e =>
          refine hrefused e fun p => ?_
          rw [hassign p tokens htokens, hread]
          rfl
      | ok a =>
          have hput' : ∀ p : Properties, p.assign key source = .ok (put p a) := by
            intro p
            rw [hassign p tokens htokens, hread]
            rfl
          refine .inl ⟨value a, put p a, ?_, hput' p, hput p a⟩
          rw [Value.read?, hput']
          simp only [hput, Function.update_self]

theorem assigns (p : Properties) (key : Key) (source : List Char) : p.Assigns key source := by
  cases key with
  | name =>
      exact assigns_of_reading NameValue.ofTokens (fun p a => { p with name := some a }) .name
        (fun _ _ => funext fun k => by cases k <;> rfl) (fun _ _ h => by rw [assign, h]; rfl) p
  | day =>
      exact assigns_of_reading dayDigits (fun p a => { p with day := some a }) .day
        (fun _ _ => funext fun k => by cases k <;> rfl) (fun _ _ h => by rw [assign, h]; rfl) p
  | parsed =>
      exact assigns_of_reading (printed .types) (fun p a => { p with parsed := some a }) .type
        (fun _ _ => funext fun k => by cases k <;> rfl) (fun _ _ h => by rw [assign, h]; rfl) p
  | partOne =>
      exact assigns_of_reading (printed .types) (fun p a => { p with partOne := some a }) .type
        (fun _ _ => funext fun k => by cases k <;> rfl) (fun _ _ h => by rw [assign, h]; rfl) p
  | partTwo =>
      exact assigns_of_reading (printed .types) (fun p a => { p with partTwo := some a }) .type
        (fun _ _ => funext fun k => by cases k <;> rfl) (fun _ _ h => by rw [assign, h]; rfl) p

/-! ## One setting -/

/-- A setting is refused for an unknown key or for a property that has a value, and
otherwise its source is read. -/
theorem set_cases (p : Properties) (s : Setting) :
    (∀ key, ¬s.Names key) ∧ p.set s = .error .unsupportedProperty ∨
      ∃ key, s.Names key ∧ ((p.get? key).isSome ∧ p.set s = .error (.duplicateProperty key) ∨
        p.get? key = none ∧ p.set s = p.assign key s.value) := by
  unfold set
  cases hkey : Key.ofText? s.key with
  | none => exact .inl ⟨Key.ofText?_eq_none_iff.mp hkey, rfl⟩
  | some key =>
      refine .inr ⟨key, Key.ofText?_eq_some_iff.mp hkey, ?_⟩
      simp only [isSet_eq]
      cases p.get? key with
      | some old => exact .inl ⟨rfl, rfl⟩
      | none => exact .inr ⟨rfl, rfl⟩

/-- A setting that is accepted gives its property a first value. -/
theorem get?_of_set (h : p.set s = .ok p') : ∃ key v, s.Names key ∧ p.get? key = none ∧
    Value.read? key s.value = some v ∧ p'.get? = Function.update p.get? key (some v) := by
  rcases p.set_cases s with ⟨-, hset⟩ | ⟨key, hkey, ⟨-, hset⟩ | ⟨hnew, hset⟩⟩
  · rw [hset] at h
    cases h
  · rw [hset] at h
    cases h
  · rw [hset] at h
    rcases p.assigns key s.value with ⟨v, q, hread, hassign, hget⟩ | ⟨-, e, hassign⟩
    · rw [hassign] at h
      cases h
      exact ⟨key, v, hkey, hnew, hread, hget⟩
    · rw [hassign] at h
      cases h

end Properties

/-- Whatever property the setting is one of, its value can be read. -/
def Setting.Readable (s : Setting) : Prop :=
  ∀ key, s.Names key → (Value.read? key s.value).isSome

instance (s : Setting) : Decidable s.Readable :=
  decidable_of_iff (∀ key ∈ Key.all, s.Names key → (Value.read? key s.value).isSome)
    ⟨fun h key => h key key.mem_all, fun h key _ => h key⟩

/-- The list has a setting of the property. -/
def Sets (settings : List Setting) (key : Key) : Prop := ∃ s ∈ settings, s.Names key

/-- The list has a setting of the property with a source that is read as the value. -/
def Gives (settings : List Setting) (key : Key) (v : Value) : Prop :=
  ∃ s ∈ settings, s.Names key ∧ Value.read? key s.value = some v

/-- Every setting is one of a property, and no two are of the same. -/
structure Proper (settings : List Setting) : Prop where
  known : ∀ s ∈ settings, ∃ key, s.Names key
  once : settings.Pairwise fun s t => ∀ key, s.Names key → ¬t.Names key

/-- The first setting with a key that is unknown or has been used before, and what is
complained about. -/
inductive FirstFault : List Setting → RegistrationError → Prop
  | unknown {before after : List Setting} {s : Setting} (hbefore : Proper before)
    (hs : ∀ key, ¬s.Names key) : FirstFault (before ++ s :: after) .unsupportedProperty
  | repeated {before after : List Setting} {s : Setting} {key : Key} (hbefore : Proper before)
    (hs : s.Names key) (hkey : Sets before key) :
    FirstFault (before ++ s :: after) (.duplicateProperty key)

/-- The properties are what a proper list gives, and all of the list was read. -/
structure Collected (settings : List Setting) (p : Properties) : Prop where
  proper : Proper settings
  readable : ∀ s ∈ settings, s.Readable
  get?_eq_some_iff : ∀ key v, p.get? key = some v ↔ Gives settings key v

theorem Collected.isSome_iff (h : Collected settings p) :
    (p.get? key).isSome ↔ Sets settings key := by
  rw [Option.isSome_iff_exists]
  constructor
  · rintro ⟨v, hv⟩
    obtain ⟨s, hs, hkey, -⟩ := (h.get?_eq_some_iff key v).mp hv
    exact ⟨s, hs, hkey⟩
  · rintro ⟨s, hs, hkey⟩
    obtain ⟨v, hv⟩ := Option.isSome_iff_exists.mp (h.readable s hs key hkey)
    exact ⟨v, (h.get?_eq_some_iff key v).mpr ⟨s, hs, hkey, hv⟩⟩

/-- The step of the induction: an accepted setting is new, and it is one more that is
given. -/
theorem Collected.concat (h : Collected before p) (hset : p.set s = .ok p') :
    Collected (before ++ [s]) p' := by
  obtain ⟨key, v, hkey, hnew, hread, hget⟩ := Properties.get?_of_set hset
  have hfresh : ¬Sets before key := by
    rw [← h.isSome_iff, hnew]
    exact Bool.false_ne_true
  have hof : ∀ {key'}, s.Names key' → key' = key := fun h => h.unique hkey
  refine ⟨⟨?_, ?_⟩, ?_, fun key' v' => ?_⟩
  · intro t ht
    rcases List.mem_append.mp ht with ht | ht
    · exact h.proper.known t ht
    · cases List.mem_singleton.mp ht
      exact ⟨key, hkey⟩
  · refine List.pairwise_append.mpr ⟨h.proper.once, List.pairwise_singleton _ _, ?_⟩
    intro t ht t' ht' key' hkey' hagain
    cases List.mem_singleton.mp ht'
    exact hfresh ⟨t, ht, hof hagain ▸ hkey'⟩
  · intro t ht
    rcases List.mem_append.mp ht with ht | ht
    · exact h.readable t ht
    · cases List.mem_singleton.mp ht
      intro key' hkey'
      rw [hof hkey', hread]
      rfl
  · rw [hget, Function.update_apply]
    split
    · next heq =>
        subst heq
        constructor
        · intro hv
          cases hv
          exact ⟨s, List.mem_append_right _ List.mem_cons_self, hkey, hread⟩
        · rintro ⟨t, ht, hkey', hread'⟩
          rcases List.mem_append.mp ht with ht | ht
          · exact absurd ⟨t, ht, hkey'⟩ hfresh
          · cases List.mem_singleton.mp ht
            rw [← hread, hread']
    · next hne =>
        rw [h.get?_eq_some_iff]
        constructor
        · rintro ⟨t, ht, hrest⟩
          exact ⟨t, List.mem_append_left _ ht, hrest⟩
        · rintro ⟨t, ht, hkey', hread'⟩
          rcases List.mem_append.mp ht with ht | ht
          · exact ⟨t, ht, hkey', hread'⟩
          · cases List.mem_singleton.mp ht
            exact absurd (hof hkey') hne

theorem Collected.append (h : Collected before p)
    (hrun : settings.foldlM Properties.set p = .ok p') : Collected (before ++ settings) p' := by
  induction settings generalizing before p with
  | nil =>
      cases hrun
      rw [List.append_nil]
      exact h
  | cons s settings ih =>
      rw [List.foldlM_cons] at hrun
      obtain ⟨next, hset, hrun⟩ := bind_eq_ok_iff.mp hrun
      rw [List.append_cons]
      exact ih (h.concat hset) hrun

theorem Proper.perm (h : Proper settings) (hperm : settings'.Perm settings) :
    Proper settings' where
  known s hs := h.known s (hperm.subset hs)
  once := (hperm.pairwise_iff fun {_ _} hne key hkey hkey' => hne key hkey' hkey).mpr h.once

end PuzzleKit.Registration
