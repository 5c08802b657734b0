import PuzzleKit.Registration.Literal
import PuzzleKit.Source.Tree

/-!
# Properties of a registration

A registration is a list of settings, each giving one property a value. The
settings are taken from left to right and the first fault ends the reading: a
key that is no property, a property that has a value already, a value of the
wrong form.
-/

namespace PuzzleKit.Registration

inductive Key
  | name
  | day
  | parsed
  | partOne
  | partTwo
deriving DecidableEq

namespace Key

def all : List Key := [name, day, parsed, partOne, partTwo]

def text : Key → String
  | name => "name"
  | day => "day"
  | parsed => "parsed"
  | partOne => "part_one"
  | partTwo => "part_two"

/-- The key that a text names, blanks around it aside. -/
def ofText? (text : String) : Option Key :=
  all.find? fun k => k.text.toList = Text.trim text.toList

end Key

/-- Why a registration is refused. -/
inductive RegistrationError
  | unsupportedProperty
  | duplicateProperty (key : Key)
  | notTokens
  | notAnInteger
  | missingComma
  | wrongItem
  | nameAndDay
  | noName
  | dayRange (e : NumeralError)
  | noPartOne
deriving DecidableEq

def RegistrationError.message : RegistrationError → String
  | .unsupportedProperty => "unsupported solution runner property"
  | .duplicateProperty key => s!"duplicate '{key.text}' property"
  | .notTokens => "cannot parse string into token stream"
  | .notAnInteger => "expected integer literal"
  | .missingComma => "expected \x60,\x60"
  | .wrongItem => "#[solution_runner] can only be applied to a struct or an impl block"
  | .nameAndDay => "'name' and 'day' cannot both be set"
  | .noName => "missing required property: 'name' or 'day'"
  | .dayRange e => e.message
  | .noPartOne => "missing required property: 'part_one'"

/-- A name given as a text, or as an expression that yields one. -/
inductive NameValue
  | text (content : String)
  | expression (source : String)
deriving DecidableEq

/-- Source code without blanks and comments, as it is understood in some place. -/
def printed (place : Source.Place) (tokens : List Source.Token) :
    Except RegistrationError String :=
  match Source.Tree.ofTokens? place tokens with
  | some trees => .ok (Source.Tree.print trees)
  | none => .error .notTokens

/-- The name that source code gives: a string literal, or any other expression. -/
def NameValue.ofTokens (tokens : List Source.Token) : Except RegistrationError NameValue :=
  let content? := match tokens with
    | [.literal source] => Literal.string? source.toList
    | _ => none
  match content? with
  | some content => .ok (.text (String.ofList content))
  | none => (printed .expression tokens).map .expression

/-- The decimal digits of the day that source code gives. -/
def dayDigits (tokens : List Source.Token) : Except RegistrationError (List Char) :=
  match Literal.integer? tokens with
  | some (digits, []) => .ok digits
  | some (_, _ :: _) => .error .missingComma
  | none => .error .notAnInteger

/-- One setting, with the source of its value. -/
structure Setting where
  key : String
  value : List Char
deriving DecidableEq

/-- The properties set so far. A day is kept as its decimal digits, and types as
they are printed. -/
structure Properties where
  name : Option NameValue
  day : Option (List Char)
  parsed : Option String
  partOne : Option String
  partTwo : Option String
deriving DecidableEq

namespace Properties

def empty : Properties := ⟨none, none, none, none, none⟩

def isSet (p : Properties) : Key → Bool
  | .name => p.name.isSome
  | .day => p.day.isSome
  | .parsed => p.parsed.isSome
  | .partOne => p.partOne.isSome
  | .partTwo => p.partTwo.isSome

/-- The properties with the value of one of them, from its source code. -/
def assign (p : Properties) (key : Key) (value : List Char) :
    Except RegistrationError Properties := do
  let tokens ← match Source.Token.ofText? value with
    | some tokens => pure tokens
    | none => throw .notTokens
  match key with
  | .name => return { p with name := some (← NameValue.ofTokens tokens) }
  | .day => return { p with day := some (← dayDigits tokens) }
  | .parsed => return { p with parsed := some (← printed .types tokens) }
  | .partOne => return { p with partOne := some (← printed .types tokens) }
  | .partTwo => return { p with partTwo := some (← printed .types tokens) }

/-- The properties after one more setting. -/
def set (p : Properties) (s : Setting) : Except RegistrationError Properties :=
  match Key.ofText? s.key with
  | none => .error .unsupportedProperty
  | some key => if p.isSet key then .error (.duplicateProperty key) else p.assign key s.value

/-- The properties of a list of settings. -/
def ofSettings (settings : List Setting) : Except RegistrationError Properties :=
  settings.foldlM set empty

/-- The name to report: the one that is given, or the day. -/
def runnerName (p : Properties) : Except RegistrationError NameValue :=
  match p.name, p.day with
  | some name, none => .ok name
  | none, some digits =>
    match Word.parse .u8 digits with
    | .ok day => .ok (.text ("Day " ++ day.toText))
    | .error e => .error (.dayRange e)
  | some _, some _ => .error .nameAndDay
  | none, none => .error .noName

end Properties

end PuzzleKit.Registration
