/-!
# Log records

Operations return the records they make next to their result; where the records
go is for the caller to say.
-/

namespace PixelPipeline

/-- How urgent a record is. -/
inductive LogLevel where
  | warn
  | debug
  | trace
  deriving DecidableEq, Repr

/-- The written name of a level. -/
def LogLevel.name : LogLevel → String
  | .warn => "WARN"
  | .debug => "DEBUG"
  | .trace => "TRACE"

/-- One record. -/
structure LogRecord where
  level : LogLevel
  text : String
  deriving DecidableEq, Repr

/-- The records of an operation, oldest first. -/
abbrev Log : Type := List LogRecord

/-- A record as one text. -/
def LogRecord.line (r : LogRecord) : String := r.level.name ++ " " ++ r.text

end PixelPipeline
