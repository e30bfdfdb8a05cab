import RefDoc.Run.Program
import Std.Time

open RefDoc

namespace RefDoc.Main

def absolute (place : List String) : String :=
  "/" ++ Path.ofSegments place

def loadNode (t : FileTree) (place : List String) : IO FileTree := do
  let path := (← IO.currentDir) / absolute place
  if place.isEmpty || !(← path.pathExists) then return t
  else if ← path.isDir then return t.insert place .dir
  else return t.insert place (.file (← IO.FS.readBinFile path))

partial def load (t : FileTree) (place : List String) : IO FileTree := do
  let t ← loadNode t place
  if t.isDir place then
    let path := (← IO.currentDir) / absolute place
    (← path.readDir).foldlM (fun t entry => load t (place ++ [entry.fileName])) t
  else return t

/-- Loads the nodes on the way along a path, and all that is at its end. -/
def loadAlong (t : FileTree) (here : List String) : List String → IO FileTree
  | [] => load t here
  | s :: rest => do loadAlong (← loadNode t here) (Path.step here s) rest

def loadPath (t : FileTree) (path : String) : IO FileTree :=
  let segments := Path.segments path
  loadAlong t (t.base segments) segments

def save : List String × Node → IO Unit
  | (place, .dir) => IO.FS.createDirAll (absolute place)
  | (place, .file bytes) => IO.FS.writeBinFile (absolute place) bytes

def now : IO String := do
  let time := Std.Time.DateTime.ofTimestamp (← Std.Time.Timestamp.now) .UTC
  return time.format "uuuu-MM-dd HH:mm:ss" ++ " UTC"

end RefDoc.Main

def main (args : List String) : IO UInt32 := do
  let workDir := Path.components (Path.segments (← IO.currentDir).toString)
  let tree ←
    match Settings.ofArguments args with
    | .error _ => pure { workDir }
    | .ok s => Main.loadPath (← Main.loadPath { workDir } s.sourceDir) s.outputDir
  let result := invoke args (← Main.now) tree
  (tree.changes result.tree).forM Main.save
  result.output.forM fun line => IO.println line
  result.errors.forM fun line => IO.eprintln line
  return result.exitCode.toUInt32
