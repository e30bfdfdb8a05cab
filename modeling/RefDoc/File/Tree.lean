import RefDoc.File.Path

namespace RefDoc

inductive Node where
  | dir
  | file (bytes : ByteArray)

def Node.same : Node → Node → Bool
  | .dir, .dir => true
  | .file a, .file b => a.data == b.data
  | _, _ => false

inductive FileError where
  | notFound
  | exists
  | notDirectory
  | isDirectory
  | notText
deriving DecidableEq, Repr

def FileError.message : FileError → String
  | .notFound => "No such file or directory (os error 2)"
  | .exists => "File exists (os error 17)"
  | .notDirectory => "Not a directory (os error 20)"
  | .isDirectory => "Is a directory (os error 21)"
  | .notText => "stream did not contain valid UTF-8"

/-- Files and directories by the names that lead to them from the root, which is not listed, and
the directory from which paths lead that do not begin with a slash. -/
structure FileTree where
  entries : List (List String × Node) := []
  workDir : List String := []

namespace FileTree

def node? (t : FileTree) (place : List String) : Option Node :=
  if place.isEmpty then some .dir else t.entries.lookup place

def isDir (t : FileTree) (place : List String) : Bool :=
  (t.node? place).any (·.same .dir)

/-- Puts a node at a place, instead of the node that is there. -/
def put (t : FileTree) (place : List String) (n : Node) : FileTree :=
  { t with
    entries :=
      if (t.entries.lookup place).isSome then
        t.entries.map fun e => if e.1 = place then (place, n) else e
      else t.entries ++ [(place, n)] }

def fillDir (t : FileTree) (d : List String) : FileTree :=
  if (t.node? d).isSome then t else t.put d .dir

def insert (t : FileTree) (place : List String) (n : Node) : FileTree :=
  ((Path.parents place).reverse.foldl fillDir t).put place n

/-- The nodes of a tree that are not in an older one. -/
def changes (old new : FileTree) : List (List String × Node) :=
  new.entries.filter fun e => !(old.node? e.1).any (·.same e.2)

def base (t : FileTree) (segments : List String) : List String :=
  if Path.isAbsolute segments then [] else t.workDir

def follow (t : FileTree) (here : List String) : List String → Except FileError (List String)
  | [] => .ok here
  | s :: rest =>
    if !t.isDir here then .error .notDirectory
    else if (t.node? (Path.step here s)).isSome then t.follow (Path.step here s) rest
    else .error .notFound

def resolve (t : FileTree) (path : String) : Except FileError (List String) :=
  let segments := Path.segments path
  if path.isEmpty then .error .notFound else t.follow (t.base segments) segments

def read (t : FileTree) (path : String) : Except FileError String := do
  let place ← t.resolve path
  match t.node? place with
  | none => .error .notFound
  | some .dir => .error .isDirectory
  | some (.file bytes) =>
    match String.fromUTF8? bytes with
    | some text => .ok text
    | none => .error .notText

/-- Makes one directory. All directories above it have to be there. -/
def makeDir (t : FileTree) (here segments : List String) : Except FileError FileTree := do
  let names := segments.filter (· != "")
  let parent ← t.follow here names.dropLast
  if !t.isDir parent then .error .notDirectory
  else
    match names.getLast? with
    | none | some "." | some ".." => .error .exists
    | some name =>
      let place := parent ++ [name]
      if (t.node? place).isSome then .error .exists else .ok (t.put place .dir)

def ensureDir (t : FileTree) (here segments : List String) : Except FileError FileTree :=
  match t.makeDir here segments with
  | .error .exists =>
    if (t.follow here segments).toOption.any t.isDir then .ok t else .error .exists
  | result => result

/-- Makes the first of the directories, after those behind it if one above it is missing. -/
def ensureDirs (t : FileTree) (here : List String) :
    List (List String) → Except FileError FileTree
  | [] => .ok t
  | d :: above =>
    match t.ensureDir here d with
    | .error .notFound => do
      let t ← t.ensureDirs here above
      t.ensureDir here d
    | result => result

def createDir (t : FileTree) (path : String) : Except FileError FileTree :=
  let segments := Path.segments path
  t.ensureDirs (t.base segments) (segments :: Path.parents (Path.components segments))

def write (t : FileTree) (path text : String) : Except FileError FileTree := do
  let segments := Path.segments path
  let parent ← t.follow (t.base segments) segments.dropLast
  if !t.isDir parent then .error .notDirectory
  else
    match segments.getLast? with
    | none | some "" | some "." | some ".." => .error .isDirectory
    | some name =>
      let place := parent ++ [name]
      if t.isDir place then .error .isDirectory else .ok (t.put place (.file text.toUTF8))

end FileTree

end RefDoc
