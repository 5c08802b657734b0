import PuzzleKit.Text.Blank

/-!
# Tokens of source code

Source code is a sequence of words, literals, marks and brackets; blanks and
comments between them mean nothing, and comments of the form `/* */` nest. A
word is as long as it can be, and a literal takes along a word that follows it
directly. An apostrophe begins a character if it is closed right after one, and
a lifetime otherwise.
-/

namespace PuzzleKit.Source

inductive Bracket
  | round
  | square
  | curly
deriving DecidableEq

inductive Token
  | word (text : String)
  | lifetime (text : String)
  | literal (text : String)
  | mark (text : String)
  | opening (bracket : Bracket)
  | closing (bracket : Bracket)
deriving DecidableEq

namespace Token

def text : Token → String
  | word text => text
  | lifetime text => text
  | literal text => text
  | mark text => text
  | opening .round => "("
  | opening .square => "["
  | opening .curly => "\x7b"
  | closing .round => ")"
  | closing .square => "]"
  | closing .curly => "\x7d"

/-- The words that are no names and do not begin a path either. -/
def keywords : List String :=
  ["_", "abstract", "as", "async", "await", "become", "box", "break", "const", "continue", "do",
    "dyn", "else", "enum", "extern", "false", "final", "fn", "for", "if", "impl", "in", "let",
    "loop", "macro", "match", "mod", "move", "mut", "override", "priv", "pub", "ref", "return",
    "static", "struct", "trait", "true", "try", "type", "typeof", "unsafe", "unsized", "use",
    "virtual", "where", "while", "yield"]

/-- The words that are no names but can begin a path. -/
def pathKeywords : List String := ["crate", "self", "Self", "super"]

/-! ### Characters -/

/-- Blanks, and the two marks that set the direction of writing. -/
def isSpace (c : Char) : Bool := Text.isBlank c || c == '\u200e' || c == '\u200f'

def isWordStart (c : Char) : Bool :=
  c.isAlpha || c == '_' || (128 ≤ c.toNat && !isSpace c)

def isWordChar (c : Char) : Bool := isWordStart c || c.isDigit

def isDigitOrGap (c : Char) : Bool := c.isDigit || c == '_'

def marks : List Char := "~!@#$%^&*-=+|;:,<.>/?".toList

/-! ### Literals

Each of these takes a literal off the start of a text: its characters, and what
follows. -/

/-- Put a character in front of what has been taken. -/
def take (c : Char) : Option (List Char × List Char) → Option (List Char × List Char) :=
  Option.map fun (taken, rest) => (c :: taken, rest)

/-- Take the word that follows a literal directly. -/
def takeSuffix : List Char × List Char → List Char × List Char
  | (taken, rest) =>
    if rest.head?.any isWordStart then
      (taken ++ rest.takeWhile isWordChar, rest.dropWhile isWordChar)
    else (taken, rest)

/-- Take up to the closing quote, where a backslash protects what follows it. -/
def takeQuoted (quote : Char) : List Char → Option (List Char × List Char)
  | [] => none
  | '\\' :: c :: cs => take '\\' (take c (takeQuoted quote cs))
  | c :: cs => if c = quote then some ([c], cs) else take c (takeQuoted quote cs)

/-- Take up to a quote with the given marks after it. -/
def takeRaw (hashes : List Char) : List Char → Option (List Char × List Char)
  | [] => none
  | c :: cs =>
    if c = '"' && hashes.isPrefixOf cs then some (c :: hashes, cs.drop hashes.length)
    else take c (takeRaw hashes cs)

/-- Take the signed exponent that follows a number ending in the letter for it;
an exponent without a sign belongs to the word before. -/
def takeExponent : List Char × List Char → List Char × List Char
  | (taken, rest) =>
    match taken.dropWhile isDigitOrGap, rest with
    | e :: gaps, sign :: after =>
      if (e == 'e' || e == 'E') && gaps.all (· == '_') && (sign == '+' || sign == '-') &&
          (after.dropWhile (· == '_')).head?.any Char.isDigit then
        (taken ++ sign :: after.takeWhile isWordChar, after.dropWhile isWordChar)
      else (taken, rest)
    | _, _ => (taken, rest)

/-- Take a number. A point belongs to it unless it begins a range or is followed
by a name. -/
def takeNumber (cs : List Char) : List Char × List Char :=
  let number := (cs.takeWhile isWordChar, cs.dropWhile isWordChar)
  match number.2 with
  | '.' :: after =>
    if number.1.all isDigitOrGap && !after.head?.any fun c => c == '.' || isWordStart c then
      let (fraction, rest) := takeExponent (after.takeWhile isWordChar, after.dropWhile isWordChar)
      (number.1 ++ '.' :: fraction, rest)
    else number
  | _ => takeExponent number

/-! ### Reading -/

/-- The literal with the given beginning, if the rest of it could be taken. -/
def literalOf (start : List Char) (taken : Option (List Char × List Char)) :
    Option (Token × List Char) :=
  (taken.map takeSuffix).map fun (taken, rest) =>
    (literal (String.ofList (start ++ taken)), rest)

/-- The token that begins with a letter: a word, also one marked to be no
keyword, or a literal of the kind that the letters tell. -/
def ofLetters (cs : List Char) : Option (Token × List Char) :=
  let name := cs.takeWhile isWordChar
  let rest := cs.dropWhile isWordChar
  let hashes := rest.takeWhile (· == '#')
  let after := rest.dropWhile (· == '#')
  let isKind := fun (kinds : List String) => kinds.contains (String.ofList name)
  if isKind ["r", "br", "cr"] && after.head? = some '"' then
    literalOf (name ++ hashes ++ ['"']) (takeRaw hashes after.tail)
  else if isKind ["b", "c"] && rest.head? = some '"' then
    literalOf (name ++ ['"']) (takeQuoted '"' rest.tail)
  else if isKind ["b"] && rest.head? = some '\'' then
    literalOf (name ++ ['\'']) (takeQuoted '\'' rest.tail)
  else if isKind ["r"] && hashes.length = 1 && after.head?.any isWordStart then
    some (word (String.ofList (name ++ hashes ++ after.takeWhile isWordChar)),
      after.dropWhile isWordChar)
  else some (word (String.ofList name), rest)

/-- The token after an apostrophe. -/
def ofApostrophe : List Char → Option (Token × List Char)
  | '\\' :: cs => literalOf ['\''] (takeQuoted '\'' ('\\' :: cs))
  | c :: '\'' :: cs => literalOf ['\''] (some ([c, '\''], cs))
  | cs =>
    if cs.head?.any isWordStart then
      some (lifetime (String.ofList ('\'' :: cs.takeWhile isWordChar)), cs.dropWhile isWordChar)
    else none

/-- The first token of a text that begins with one, and what follows it. -/
def first? : List Char → Option (Token × List Char)
  | [] => none
  | '(' :: cs => some (opening .round, cs)
  | '[' :: cs => some (opening .square, cs)
  | '\x7b' :: cs => some (opening .curly, cs)
  | ')' :: cs => some (closing .round, cs)
  | ']' :: cs => some (closing .square, cs)
  | '\x7d' :: cs => some (closing .curly, cs)
  | '"' :: cs => literalOf ['"'] (takeQuoted '"' cs)
  | '\'' :: cs => ofApostrophe cs
  | ':' :: ':' :: cs => some (mark "::", cs)
  | '-' :: '>' :: cs => some (mark "->", cs)
  | '=' :: '>' :: cs => some (mark "=>", cs)
  | c :: cs =>
    if c.isDigit then literalOf [] (some (takeNumber (c :: cs)))
    else if isWordStart c then ofLetters (c :: cs)
    else if marks.contains c then some (mark c.toString, cs)
    else none

/-- What follows the end of a comment that holds the given number of comments
which have not ended either. -/
def afterComment : Nat → List Char → Option (List Char)
  | _, [] => none
  | depth, '/' :: '*' :: cs => afterComment (depth + 1) cs
  | 0, '*' :: '/' :: cs => some cs
  | depth + 1, '*' :: '/' :: cs => afterComment depth cs
  | depth, _ :: cs => afterComment depth cs

/-- Read the tokens of a text. The fuel is the number of characters. -/
def readFrom : Nat → List Char → Option (List Token)
  | _, [] => some []
  | 0, _ :: _ => none
  | n + 1, c :: cs =>
    if isSpace c then readFrom n cs
    else
      match c, cs with
      | '/', '/' :: cs => readFrom n (cs.dropWhile (· != '\n'))
      | '/', '*' :: cs => (afterComment 0 cs).bind (readFrom n)
      | c, cs => (first? (c :: cs)).bind fun (token, rest) => (readFrom n rest).map (token :: ·)

/-- A text without the byte order mark that it may begin with. -/
def dropOrderMark : List Char → List Char
  | '\ufeff' :: cs => cs
  | cs => cs

/-- The tokens of a text, if it consists of tokens. -/
def ofText? (cs : List Char) : Option (List Token) :=
  let text := dropOrderMark cs
  readFrom text.length text

end Token

end PuzzleKit.Source
