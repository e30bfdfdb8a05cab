import RefDoc.Reference.Artifact
import RefDoc.Run.Extraction
import RefDoc.Run.Settings

namespace RefDoc

inductive Failure where
  | createDir (path : String) (cause : FileError)
  | write (path : String) (cause : FileError)
deriving DecidableEq, Repr

namespace Failure

def message : Failure → String
  | .createDir path _ => "failed to create output directory: " ++ path
  | .write path _ => "failed to write " ++ path

def cause : Failure → FileError
  | .createDir _ cause => cause
  | .write _ cause => cause

def report (f : Failure) : List String :=
  ["Error: " ++ f.message, "", "Caused by:", "    " ++ f.cause.message]

end Failure

/-- How far a run has come: the tree, the texts printed, what was logged, and the failure that ended
it, if one did. -/
structure Progress where
  tree : FileTree
  printed : List String := []
  log : List LogRecord := []
  failure : Option Failure := none

def report (dir file : String) : String :=
  "Generated: " ++ Path.join dir file

def completion : String :=
  "Documentation generation complete!"

namespace Progress

/-- Writes the artifacts one after the other, up to the first that cannot be written. -/
def writeAll (dir : String) (p : Progress) : List Artifact → Progress
  | [] => { p with printed := p.printed ++ [completion] }
  | ⟨file, none⟩ :: rest =>
    let record := ⟨.debug, .program, "skipping " ++ file ++ ": nothing to document"⟩
    writeAll dir { p with log := p.log ++ [record] } rest
  | ⟨file, some content⟩ :: rest =>
    match p.tree.write (Path.join dir file) content with
    | .ok tree => writeAll dir { p with tree, printed := p.printed ++ [report dir file] } rest
    | .error cause => { p with failure := some (.write (Path.join dir file) cause) }

def writeTo (dir : String) (p : Progress) (artifacts : List Artifact) : Progress :=
  match p.tree.createDir dir with
  | .ok tree => writeAll dir { p with tree } artifacts
  | .error cause => { p with failure := some (.createDir dir cause) }

end Progress

def Settings.summary (s : Settings) (e : Extraction) : List String :=
  if s.verbose then
    ["Scanning source directory: " ++ s.sourceDir,
      "Output directory: " ++ s.outputDir,
      "Found " ++ Nat.repr e.catalog.structs.length ++ " structs and " ++
        Nat.repr e.catalog.functions.length ++ " functions in " ++
        Nat.repr e.scanned ++ " files"] ++
      if e.skipped > 0 then ["Skipped " ++ Nat.repr e.skipped ++ " unreadable files"] else []
  else []

def Settings.sources (s : Settings) (t : FileTree) : List SourceFile :=
  Discovery.sourceFiles t s.sourceDir

def Settings.extraction (s : Settings) (t : FileTree) : Extraction :=
  Extraction.ofFiles t {} (s.sources t)

/-- Reads the sources, then writes their reference. -/
def generate (s : Settings) (generatedAt : String) (t : FileTree) : Progress :=
  let e := s.extraction t
  let start : Progress :=
    { tree := t, printed := s.summary e, log := Discovery.log s.sourceDir (s.sources t) ++ e.log }
  start.writeTo s.outputDir (e.catalog.artifacts generatedAt s.json)

end RefDoc
