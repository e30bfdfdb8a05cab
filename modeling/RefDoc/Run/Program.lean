import RefDoc.Run.Argument
import RefDoc.Run.Generate
import RefDoc.Text.Split

namespace RefDoc

/-- What a program leaves behind: its exit code, what it writes to its two outputs, each text with a
line end behind it, and the tree. -/
structure Outcome where
  exitCode : Nat
  output : List String
  errors : List String
  tree : FileTree

/-- The lines of texts, each with a line end behind it. A line ends in a line feed, or in a carriage
return and a line feed. -/
def linesOf (texts : List String) : List String :=
  texts.flatMap fun e => (Text.lines e.toList).map fun l => String.ofList (Text.dropReturn l)

def Outcome.outputLines (r : Outcome) : List String :=
  linesOf r.output

def Outcome.errorLines (r : Outcome) : List String :=
  linesOf r.errors

def Progress.outcome (p : Progress) (filter : LogLevel) : Outcome :=
  let log := (p.log.filter fun r => filter.shows r.level).map LogRecord.text
  match p.failure with
  | none => { exitCode := 0, output := p.printed, errors := log, tree := p.tree }
  | some f => { exitCode := 1, output := p.printed, errors := log ++ f.report, tree := p.tree }

def helpLines : List String :=
  ["Generate reference documentation from Rust source code",
    "",
    "Usage: rsdocgen [OPTIONS]",
    "",
    "Options:",
    "  -s, --source-dir <SOURCE_DIR>  Source directory to scan recursively for .rs files " ++
      "[default: " ++ ({} : Settings).sourceDir ++ "]",
    "  -o, --output-dir <OUTPUT_DIR>  Output directory for generated documentation " ++
      "(created if missing) [default: " ++ ({} : Settings).outputDir ++ "]",
    "  -v, --verbose                  Print progress and statistics",
    "      --json                     Also write the extracted declarations as declarations.json",
    "  -h, --help                     Print help"]

def Settings.run (s : Settings) (generatedAt : String) (t : FileTree) : Outcome :=
  (generate s generatedAt t).outcome s.logLevel

def invoke (args : List String) (generatedAt : String) (t : FileTree) : Outcome :=
  match Settings.ofArguments args with
  | .ok s => s.run generatedAt t
  | .error .help => { exitCode := 0, output := helpLines, errors := [], tree := t }
  | .error (.usage e) =>
    { exitCode := 2, output := [], errors := ["error: " ++ e.message], tree := t }

end RefDoc
