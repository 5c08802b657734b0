/-!
# Log entries

What the library has to say about its own work is data. An operation that
would report on itself returns enough for the report to be read off its
result, and whoever runs it decides where the entries go.
-/

namespace PuzzleKit

inductive LogLevel
  | debug
  | trace
deriving DecidableEq

def LogLevel.name : LogLevel → String
  | .debug => "DEBUG"
  | .trace => "TRACE"

structure LogEntry where
  level : LogLevel
  text : String
deriving DecidableEq

def LogEntry.line (e : LogEntry) : String := e.level.name ++ " " ++ e.text

end PuzzleKit
