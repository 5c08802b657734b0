import PuzzleKit.Integer.Numeral

/-!
# Command line arguments

One day, and options before, after or between. The arguments are taken from
left to right, and the first that is wrong, or that asks for help or for the
version, ends the reading. An option that takes a value takes it attached or
from the next argument; that one may begin with a dash only if it is nothing
else. After a double dash no argument is an option.
-/

namespace PuzzleKit.Command

/-- Why there is nothing to run. -/
inductive Refusal
  | usage
  | help
  | version
deriving DecidableEq

def Refusal.name : Refusal → String
  | .usage => "usage"
  | .help => "help"
  | .version => "version"

structure Arguments where
  day : Word .u8
  input : Option String
  timed : Bool
  minTimingMs : Word .u64
deriving DecidableEq

/-- The options that take a value. -/
inductive ValueOption
  | input
  | minTimingMs
deriving DecidableEq

/-- The arguments as far as they have been read. -/
structure Draft where
  day : Option (Word .u8)
  input : Option String
  timed : Bool
  minTimingMs : Option (Word .u64)

namespace Draft

def empty : Draft := ⟨none, none, false, none⟩

/-- The day, of which there is one, from 1 to 12. -/
def setDay (d : Draft) (text : List Char) : Except Refusal Draft :=
  match d.day, Word.parse .u8 text with
  | none, .ok day =>
    if 1 ≤ day.val ∧ day.val ≤ 12 then .ok { d with day := some day } else .error .usage
  | _, _ => .error .usage

def setTimed (d : Draft) : Except Refusal Draft :=
  if d.timed then .error .usage else .ok { d with timed := true }

/-- The value of an option. An input file has a name that is not empty. -/
def setValue (d : Draft) : ValueOption → List Char → Except Refusal Draft
  | .input, text =>
    if d.input.isSome || text.isEmpty then .error .usage
    else .ok { d with input := some (String.ofList text) }
  | .minTimingMs, text =>
    match d.minTimingMs, Word.parse .u64 text with
    | none, .ok n => .ok { d with minTimingMs := some n }
    | _, _ => .error .usage

/-- An option with its long name and the value attached to it, if any; and the
option that now awaits a value. -/
def long (d : Draft) (name : List Char) (value : Option (List Char)) :
    Except Refusal (Draft × Option ValueOption) :=
  let option? : Option ValueOption :=
    if name = "input".toList then some .input
    else if name = "min-timing-ms".toList then some .minTimingMs
    else none
  match option?, value with
  | some option, some text => do return (← d.setValue option text, none)
  | some option, none => .ok (d, some option)
  | none, some _ => .error .usage
  | none, none =>
    if name = "timed".toList then do return (← d.setTimed, none)
    else if name = "help".toList then .error .help
    else if name = "version".toList then .error .version
    else .error .usage

/-- Options with short names, bundled; an equals sign before an attached value
is not part of it. -/
def short (d : Draft) : List Char → Except Refusal (Draft × Option ValueOption)
  | [] => .ok (d, none)
  | c :: cs =>
    if c = 't' then
      match d.setTimed with
      | .ok d => short d cs
      | .error e => .error e
    else if c = 'h' then .error .help
    else if c = 'V' then .error .version
    else if c = 'i' then
      match cs with
      | [] => .ok (d, some .input)
      | '=' :: text => do return (← d.setValue .input text, none)
      | text => do return (← d.setValue .input text, none)
    else .error .usage

end Draft

/-- The name and the attached value of a long option. -/
def splitLong (cs : List Char) : List Char × Option (List Char) :=
  match splitOnce (fun c => c == '=') cs with
  | some (name, value) => (name, some value)
  | none => (cs, none)

/-- Whether an argument can be the value of the option before it. -/
def isValue : List Char → Bool
  | '-' :: cs => cs.isEmpty
  | _ => true

/-- Read arguments on, where an option may await its value. -/
def readFrom (d : Draft) : Option ValueOption → List (List Char) → Except Refusal Draft
  | none, [] => .ok d
  | some _, [] => .error .usage
  | some option, arg :: args =>
    if isValue arg then
      match d.setValue option arg with
      | .ok d => readFrom d none args
      | .error e => .error e
    else .error .usage
  | none, ['-', '-'] :: args => args.foldlM Draft.setDay d
  | none, ('-' :: '-' :: cs) :: args =>
    let (name, value) := splitLong cs
    match d.long name value with
    | .ok (d, awaiting) => readFrom d awaiting args
    | .error e => .error e
  | none, ('-' :: c :: cs) :: args =>
    match d.short (c :: cs) with
    | .ok (d, awaiting) => readFrom d awaiting args
    | .error e => .error e
  | none, arg :: args =>
    match d.setDay arg with
    | .ok d => readFrom d none args
    | .error e => .error e

/-- The arguments of a command line, without the name of the program. -/
def Arguments.parse (args : List String) : Except Refusal Arguments := do
  let d ← readFrom Draft.empty none (args.map String.toList)
  match d.day with
  | some day => return ⟨day, d.input, d.timed, d.minTimingMs.getD 0⟩
  | none => throw .usage

end PuzzleKit.Command
