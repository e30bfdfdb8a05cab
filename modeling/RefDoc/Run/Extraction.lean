import RefDoc.File.Discovery
import RefDoc.Scan.Source

namespace RefDoc

def Catalog.addSource (c : Catalog) (text file : String) : Catalog :=
  c.add (Scan.declarations text file)

/-- Adds the declarations of one more source, and counts them. -/
def Catalog.extract (c : Catalog) (text file : String) : Catalog × Nat :=
  (c.addSource text file, (Scan.declarations text file).length)

def Declaration.logRecord (d : Declaration) : LogRecord where
  level := .debug
  target := .extract
  message :=
    d.sourceFile ++ ":" ++ Nat.repr d.line ++ " " ++ d.name ++
      if d.doc.isEmpty then " (undocumented)" else " (documented)"

/-- A catalog with the numbers of files that were read into it and of those that could not be
read. -/
structure Extraction where
  catalog : Catalog := {}
  scanned : Nat := 0
  skipped : Nat := 0
  log : List LogRecord := []

namespace Extraction

def addFile (t : FileTree) (e : Extraction) (f : SourceFile) : Extraction :=
  match t.read f.path with
  | .ok text =>
    { e with
      catalog := e.catalog.addSource text f.relative
      scanned := e.scanned + 1
      log := e.log ++ (Scan.declarations text f.relative).map Declaration.logRecord }
  | .error cause =>
    { e with
      skipped := e.skipped + 1
      log := e.log ++
        [⟨.warn, .extract, "failed to process " ++ f.path ++ ": " ++ cause.message⟩] }

def ofFiles (t : FileTree) (c : Catalog) (files : List SourceFile) : Extraction :=
  files.foldl (addFile t) { catalog := c }

end Extraction

end RefDoc
