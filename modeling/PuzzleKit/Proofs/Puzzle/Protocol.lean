import PuzzleKit.Puzzle.Runner

/-!
# The events of a run

A run is a list of steps, each of which calls a parser or a solver once: it says
that it starts, makes the call, and says that it ended unless the call failed. The
steps are made from the left up to the first that fails, and that one is the last.
This is all there is to know of a run, and it is the same for the four kinds, which
differ in their steps alone: `Follows` says it of the events, of the calls and of
the outcome at once.

To see which calls are made, parsers and solvers are run in a world that keeps
account of them (`recording`), with a clock that tells any time it likes and changes
as it likes when it is read.
-/

namespace PuzzleKit

def Event.untimed : Event → Event
  | parseEnded _ => parseEnded none
  | partSolved part output _ => partSolved part output none
  | event => event

/-- The durations of an event, of which there is at most one. -/
def Event.durations : Event → List (Option Duration)
  | parseEnded duration => [duration]
  | partSolved _ _ duration => [duration]
  | _ => []

theorem Event.untimed_eq_self {event : Event} (h : event.durations = []) :
    event.untimed = event := by
  cases event <;> simp_all [untimed, durations]

namespace Runner

variable {D E α β σ : Type}

inductive Call (D : Type)
  | parse (input : String)
  | solve (part : Part) (data : D)

/-- What a run can change: the calls made so far and the state of the clock. -/
structure World (D σ : Type) where
  calls : List (Call D)
  clock : σ

/-- A parser or a solver that keeps account of its calls. -/
def recording (call : α → Call D) (f : α → Except E β) (a : α) :
    StateM (World D σ) (Except E β) :=
  fun world => (f a, { world with calls := world.calls ++ [call a] })

/-- A clock whose state is kept by the world, for a run that is timed. -/
def clockOf (reading : Option (σ → Nat × σ)) : Clock (StateM (World D σ)) :=
  reading.map fun read world => ((read world.clock).1, { world with clock := (read world.clock).2 })

/-- A step of a run: its call, the event at its start, and the event at its end or
else its error. -/
structure Step (D E : Type) where
  call : Call D
  started : Event
  ended : Except E Event

namespace Step

def error? (step : Step D E) : Option E :=
  match step.ended with
  | .ok _ => none
  | .error e => some e

def events (step : Step D E) : List Event :=
  match step.ended with
  | .ok event => [step.started, event]
  | .error _ => [step.started]

def parse (input : String) (result : Except E D) : Step D E :=
  ⟨.parse input, .parseStarted, result.map fun _ => .parseEnded none⟩

def solve (part : Part) (data : D) (result : Except E String) : Step D E :=
  ⟨.solve part data, .partStarted part, result.map fun output => .partSolved part output none⟩

end Step

/-- The steps that are made: those before the first that fails, and that one. -/
def made (steps : List (Step D E)) : List (Step D E) :=
  steps.takeWhile (·.error?.isNone) ++ (steps.find? (·.error?.isSome)).toList

def outcome (steps : List (Step D E)) : Except E Unit :=
  match steps.findSome? Step.error? with
  | some e => .error e
  | none => .ok ()

/-- What a run leaves that made some steps, starting from the world `before` and
after the events `opening`. -/
structure Follows (timed : Bool) (opening : List Event) (steps : List (Step D E))
    (before : World D σ) (result : Report E α × World D σ) : Prop where
  events_eq : result.1.events.map Event.untimed = opening ++ (made steps).flatMap Step.events
  durations : ∀ event ∈ result.1.events, ∀ duration ∈ event.durations, duration.isSome = timed
  calls_eq : result.2.calls = before.calls ++ (made steps).map Step.call
  outcome_eq : result.1.outcome.map (fun _ => ()) = outcome steps

variable {timed : Bool} {opening : List Event} {step : Step D E} {front steps : List (Step D E)}
  {world : World D σ} {log : List LogEntry} {clock : σ} {event : Event}

/-! ## One step -/

theorem Follows.failed {e : E} (hstarted : step.started.durations = [])
    (hended : step.ended = .error e) :
    Follows (α := α) timed [] [step] world
      (⟨[step.started], log, .error e⟩, ⟨world.calls ++ [step.call], clock⟩) := by
  have herror : step.error? = some e := by simp [Step.error?, hended]
  have hmade : made [step] = [step] := by simp [made, herror]
  constructor
  · simp [hmade, Step.events, hended, Event.untimed_eq_self hstarted]
  · simp [hstarted]
  · simp [hmade]
  · simp [outcome, herror, Except.map]

theorem Follows.succeeded {a : α} (hstarted : step.started.durations = [])
    (hended : step.ended = .ok event.untimed)
    (hduration : ∀ duration ∈ event.durations, duration.isSome = timed) :
    Follows timed [] [step] world
      (⟨[step.started, event], log, .ok a⟩, ⟨world.calls ++ [step.call], clock⟩) := by
  have herror : step.error? = none := by simp [Step.error?, hended]
  have hmade : made [step] = [step] := by simp [made, herror]
  constructor
  · simp [hmade, Step.events, hended, Event.untimed_eq_self hstarted]
  · simpa [hstarted] using hduration
  · simp [hmade]
  · simp [outcome, herror, Except.map]

theorem exists_measure (reading : Option (σ → Nat × σ)) (call : α → Call D)
    (f : α → Except E β) (a : α) (world : World D σ) :
    ∃ duration clock, (clockOf reading).measure (recording call f a) world =
        ((f a, duration), ⟨world.calls ++ [call a], clock⟩) ∧
      duration.isSome = reading.isSome := by
  cases reading with
  | none => exact ⟨none, _, rfl, rfl⟩
  | some read => exact ⟨some _, _, rfl, rfl⟩

theorem follows_parse (reading : Option (σ → Nat × σ)) (parser : String → Except E D)
    (input : String) (world : World D σ) :
    Follows reading.isSome [] [.parse input (parser input)] world
      (parse (recording .parse parser) input (clockOf reading) world) := by
  obtain ⟨duration, clock, hmeasure, hduration⟩ :=
    exists_measure reading Call.parse parser input world
  simp only [parse, bind, StateT.bind, hmeasure]
  cases h : parser input with
  | error e => exact .failed rfl rfl
  | ok data => exact .succeeded rfl rfl (by simpa [Event.durations] using hduration)

theorem follows_solve (reading : Option (σ → Nat × σ)) (part : Part)
    (solver : D → Except E String) (data : D) (world : World D σ) :
    Follows reading.isSome [] [.solve part data (solver data)] world
      (solve part (recording (.solve part) solver) data (clockOf reading) world) := by
  obtain ⟨duration, clock, hmeasure, hduration⟩ :=
    exists_measure reading (Call.solve part) solver data world
  simp only [solve, bind, StateT.bind, hmeasure]
  cases h : solver data with
  | error e => exact .failed rfl rfl
  | ok output => exact .succeeded rfl rfl (by simpa [Event.durations] using hduration)

/-! ## One step after the other -/

theorem made_append (front steps : List (Step D E)) :
    made (front ++ steps) =
      if (front.findSome? Step.error?).isSome then made front else front ++ made steps := by
  induction front with
  | nil => simp
  | cons step front ih =>
      cases h : step.error? with
      | some e => simp [made, h]
      | none =>
          have hcons : ∀ steps, made (step :: steps) = step :: made steps := by
            intro steps
            simp [made, h]
          rw [List.cons_append, hcons, hcons, ih, List.findSome?_cons, h]
          split <;> rfl

theorem made_eq_self (h : front.findSome? Step.error? = none) : made front = front := by
  have happend := made_append front []
  simpa [h, made] using happend

theorem outcome_append (front steps : List (Step D E)) :
    outcome (front ++ steps) =
      if (front.findSome? Step.error?).isSome then outcome front else outcome steps := by
  cases h : front.findSome? Step.error? <;> simp [outcome, List.findSome?_append, h]

theorem andThen_of_error {first : StateM σ (Report E α)} {state : σ} {e : E}
    (h : (first state).1.outcome = .error e) (next : α → StateM σ (Report E β)) :
    Report.andThen first next state =
      (⟨(first state).1.events, (first state).1.log, .error e⟩, (first state).2) := by
  simp only [Report.andThen, bind, StateT.bind]
  cases hfirst : first state with
  | mk report after =>
      rw [hfirst] at h
      dsimp only at h ⊢
      rw [h]
      rfl

theorem andThen_of_ok {first : StateM σ (Report E α)} {state : σ} {a : α}
    (h : (first state).1.outcome = .ok a) (next : α → StateM σ (Report E β)) :
    Report.andThen first next state =
      (⟨(first state).1.events ++ (next a (first state).2).1.events,
        (first state).1.log ++ (next a (first state).2).1.log,
        (next a (first state).2).1.outcome⟩, (next a (first state).2).2) := by
  simp only [Report.andThen, bind, StateT.bind]
  cases hfirst : first state with
  | mk report after =>
      rw [hfirst] at h
      dsimp only at h ⊢
      rw [h]
      rfl

/-- A run that goes on after a success makes the further steps, and one that stops at
a failure does not. -/
theorem Follows.andThen {first : StateM (World D σ) (Report E α)}
    {next : α → StateM (World D σ) (Report E β)}
    (hfirst : Follows timed opening front world (first world))
    (hnext : ∀ a, (first world).1.outcome = .ok a →
      Follows timed [] steps (first world).2 (next a (first world).2)) :
    Follows timed opening (front ++ steps) world (Report.andThen first next world) := by
  have houtcome := hfirst.outcome_eq
  have hevents := hfirst.events_eq
  have hcalls := hfirst.calls_eq
  cases hresult : (first world).1.outcome with
  | error e =>
      rw [hresult] at houtcome
      have hsome : (front.findSome? Step.error?).isSome = true := by
        cases h : front.findSome? Step.error? with
        | some e => rfl
        | none => simp [outcome, h, Except.map] at houtcome
      rw [andThen_of_error hresult]
      constructor
      · rw [made_append, if_pos hsome, hevents]
      · exact hfirst.durations
      · rw [made_append, if_pos hsome, hcalls]
      · rw [outcome_append, if_pos hsome, ← houtcome]
        rfl
  | ok a =>
      rw [hresult] at houtcome
      have hnone : front.findSome? Step.error? = none := by
        cases h : front.findSome? Step.error? with
        | none => rfl
        | some e => simp [outcome, h, Except.map] at houtcome
      have hrest := hnext a hresult
      have hmade : made (front ++ steps) = front ++ made steps := by simp [made_append, hnone]
      rw [made_eq_self hnone] at hevents hcalls
      rw [andThen_of_ok hresult]
      constructor
      · rw [hmade, List.map_append, hevents, hrest.events_eq, List.flatMap_append,
          List.nil_append, List.append_assoc]
      · intro event hevent
        rcases List.mem_append.mp hevent with hevent | hevent
        · exact hfirst.durations event hevent
        · exact hrest.durations event hevent
      · rw [hmade, hrest.calls_eq, hcalls, List.map_append, List.append_assoc]
      · rw [outcome_append, hnone]
        exact hrest.outcome_eq

/-! ## The four kinds of run -/

/-- What follows the parsing of an input: nothing, if it failed. -/
def afterParsing (result : Except E D) (steps : D → List (Step D E)) : List (Step D E) :=
  match result with
  | .ok data => steps data
  | .error _ => []

theorem follows_announced (reading : Option (σ → Nat × σ)) (name : String)
    {next : StateM (World D σ) (Report E α)}
    (h : Follows reading.isSome [] steps world (next world)) :
    Follows reading.isSome [.named name] steps world
      (Report.andThen (announce name (clockOf reading)) (fun _ => next) world) := by
  have hannounce : Follows (D := D) (E := E) reading.isSome [.named name] [] world
      (announce name (clockOf reading) world) := by
    refine ⟨rfl, fun event hevent => ?_, (List.append_nil _).symm, rfl⟩
    cases List.mem_singleton.mp hevent
    simp [Event.durations]
  exact hannounce.andThen fun _ _ => h

theorem outcome_parse (reading : Option (σ → Nat × σ)) (parser : String → Except E D)
    (input : String) (world : World D σ) :
    (parse (recording .parse parser) input (clockOf reading) world).1.outcome = parser input := by
  obtain ⟨duration, clock, hmeasure, -⟩ := exists_measure reading Call.parse parser input world
  simp only [parse, bind, StateT.bind, hmeasure]
  cases parser input <;> rfl

theorem follows_parsed (reading : Option (σ → Nat × σ)) (parser : String → Except E D)
    (input : String) {steps : D → List (Step D E)}
    {next : D → StateM (World D σ) (Report E α)}
    (h : ∀ data world, Follows reading.isSome [] (steps data) world (next data world)) :
    Follows reading.isSome [] (.parse input (parser input) :: afterParsing (parser input) steps)
      world (Report.andThen (parse (recording .parse parser) input (clockOf reading)) next world) := by
  refine (follows_parse reading parser input world).andThen fun data hdata => ?_
  rw [outcome_parse] at hdata
  rw [hdata]
  exact h data _

/-- Whatever the clock and the world, a run makes these steps after it has said its
name, and but for their durations its events are always the same. -/
structure Obeys (name : String) (steps : List (Step D E))
    (run : Option (σ → Nat × σ) → StateM (World D σ) (Report E Unit)) : Prop where
  follows : ∀ reading world,
    Follows reading.isSome [.named name] steps world (run reading world)
  events_agree : ∀ reading reading' world world',
    (run reading world).1.events.map Event.untimed =
      (run reading' world').1.events.map Event.untimed

theorem obeys_of_follows {name : String}
    {run : Option (σ → Nat × σ) → StateM (World D σ) (Report E Unit)}
    (h : ∀ reading world, Follows reading.isSome [.named name] steps world (run reading world)) :
    Obeys name steps run :=
  ⟨h, fun _ _ _ _ => (h _ _).events_eq.trans (h _ _).events_eq.symm⟩

/-- A run says its name and then makes its steps in order, up to the first that fails.
Solutions of the raw input solve one part or two. The others parse the input once and
solve the parts of what was parsed. -/
theorem runs_obey (name input : String) (rawOne rawTwo : String → Except E String)
    (parser : String → Except E D) (one two : D → Except E String) :
    Obeys (σ := σ) name [.solve .one input (rawOne input)]
      (fun reading => half name (recording (.solve .one) rawOne) input (clockOf reading)) ∧
    Obeys (σ := σ) name [.solve .one input (rawOne input), .solve .two input (rawTwo input)]
      (fun reading => full name (recording (.solve .one) rawOne)
        (recording (.solve .two) rawTwo) input (clockOf reading)) ∧
    Obeys (σ := σ) name
      (.parse input (parser input) :: afterParsing (parser input) fun data =>
        [.solve .one data (one data)])
      (fun reading => parsedHalf name (recording .parse parser) (recording (.solve .one) one)
        input (clockOf reading)) ∧
    Obeys (σ := σ) name
      (.parse input (parser input) :: afterParsing (parser input) fun data =>
        [.solve .one data (one data), .solve .two data (two data)])
      (fun reading => parsedFull name (recording .parse parser) (recording (.solve .one) one)
        (recording (.solve .two) two) input (clockOf reading)) := by
  refine ⟨obeys_of_follows fun reading world => ?_, obeys_of_follows fun reading world => ?_,
    obeys_of_follows fun reading world => ?_, obeys_of_follows fun reading world => ?_⟩
  · exact follows_announced reading name (follows_solve reading .one rawOne input world)
  · exact follows_announced reading name
      ((follows_solve reading .one rawOne input world).andThen fun _ _ =>
        follows_solve reading .two rawTwo input _)
  · exact follows_announced reading name
      (follows_parsed reading parser input fun data world =>
        follows_solve reading .one one data world)
  · exact follows_announced reading name
      (follows_parsed reading parser input fun data world =>
        (follows_solve reading .one one data world).andThen fun _ _ =>
          follows_solve reading .two two data _)

end Runner

end PuzzleKit
