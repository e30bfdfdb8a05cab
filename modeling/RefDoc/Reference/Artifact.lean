import RefDoc.Reference.Export
import RefDoc.Reference.Page

namespace RefDoc

/-- A file of the reference. Without content there is nothing to document, and it is not written. -/
structure Artifact where
  file : String
  content : Option String
deriving DecidableEq, Repr

open Reference

def zeroCopyFile : String :=
  "zero-copy-reference.md"

def Catalog.artifacts (c : Catalog) (generatedAt : String) (json : Bool) : List Artifact :=
  [⟨zeroCopyFile, zeroCopyPage c⟩,
    ⟨"api-structures.md", structuresPage c⟩,
    ⟨"function-reference.md", functionsPage c⟩,
    ⟨"auto-generated-index.md", indexPage generatedAt c⟩] ++
    if json then [⟨"declarations.json", jsonExport generatedAt c⟩] else []

end RefDoc
