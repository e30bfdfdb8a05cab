import RefDoc.File.Tree
import RefDoc.Run.Log

namespace RefDoc

structure SourceFile where
  path : String
  relative : String
deriving DecidableEq, Repr

namespace Discovery

/-- A directory on the way along a root: the segments with which its path is printed, and its place.
A dot at the start of a root is not printed. -/
structure Position where
  printed : List String := []
  place : List String := []

def advance (t : FileTree) (x : Position) (segment : String) : Option Position :=
  if !t.isDir x.place then none
  else if segment == "" then if x.printed.isEmpty then none else some x
  else if segment == "." && x.printed.isEmpty then some x
  else
    let place := Path.step x.place segment
    if (t.node? place).isSome then some { printed := x.printed ++ [segment], place } else none

/-- Where a root leads. It stands in front of a slash, so that the empty root is that of the
tree. -/
def start? (t : FileTree) (root : String) : Option Position := do
  let x ←
    match Path.segments root with
    | "" :: rest => rest.foldlM (advance t) { printed := [""] }
    | segments => segments.foldlM (advance t) { place := t.workDir }
  if t.isDir x.place then some x else none

def isSourceName (name : String) : Bool :=
  ['.', 'r', 's'].isSuffixOf name.toList

def sourceBelow? (place : List String) : List String × Node → Option (List String)
  | (_, .dir) => none
  | (path, .file _) => do
    let names ← Path.below? place path
    if names.getLast?.any isSourceName then some names else none

def sourcesBelow (t : FileTree) (place : List String) : List (List String) :=
  t.entries.filterMap (sourceBelow? place)

/-- The path as it is documented: behind the root where the path begins with the root, else
whole. -/
def relative (root : String) (path : List String) : String :=
  let names := Path.rooted path
  Path.ofSegments ((Path.below? (Path.rooted (Path.segments root)) names).getD names)

/-- The source files under a root in increasing order of the names in their paths. -/
def sourceFiles (t : FileTree) (root : String) : List SourceFile :=
  match start? t root with
  | none => []
  | some x =>
    ((sourcesBelow t x.place).mergeSort Path.precedes).map fun names =>
      let path := x.printed ++ names
      { path := Path.ofSegments path, relative := relative root path }

def log (root : String) (files : List SourceFile) : List LogRecord :=
  (if files.isEmpty then [⟨.warn, .source, "no .rs files found under " ++ root⟩] else []) ++
    [⟨.debug, .source,
      "discovered " ++ Nat.repr files.length ++ " source files under " ++ root⟩]

end Discovery

end RefDoc
