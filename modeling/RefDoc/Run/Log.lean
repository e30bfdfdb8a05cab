import RefDoc.Text.Terminal

namespace RefDoc

inductive LogLevel where
  | debug
  | warn
deriving DecidableEq, Repr

namespace LogLevel

def filterName : LogLevel → String
  | .debug => "debug"
  | .warn => "warn"

def label : LogLevel → String
  | .debug => "DEBUG"
  | .warn => "WARN"

def shows (filter l : LogLevel) : Bool :=
  filter = .debug || l = .warn

end LogLevel

inductive LogTarget where
  | source
  | extract
  | program
deriving DecidableEq, Repr

def LogTarget.name : LogTarget → String
  | .source => "rsdocgen::source"
  | .extract => "rsdocgen::extract"
  | .program => "rsdocgen"

structure LogRecord where
  level : LogLevel
  target : LogTarget
  message : String
deriving DecidableEq, Repr

/-- The record as it is written. A name in the message cannot control the terminal that shows it. -/
def LogRecord.text (r : LogRecord) : String :=
  r.level.label ++ " " ++ r.target.name ++ ": " ++ String.ofList (Text.spelled r.message.toList)

end RefDoc
