import RefDoc.Run.Log

namespace RefDoc

structure Settings where
  sourceDir : String := "programs/borrow-lending/src"
  outputDir : String := "docs/auto-generated"
  verbose : Bool := false
  json : Bool := false
deriving DecidableEq, Repr

def Settings.logLevel (s : Settings) : LogLevel :=
  if s.verbose then .debug else .warn

end RefDoc
