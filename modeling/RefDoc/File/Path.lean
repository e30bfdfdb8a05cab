import RefDoc.Text.Split

namespace RefDoc.Path

def segments (path : String) : List String :=
  (Text.splitWhere (· == '/') path.toList).map String.ofList

/-- Does the path begin with a slash? The empty path has one segment only, and does not. -/
def isAbsolute : List String → Bool
  | "" :: _ :: _ => true
  | _ => false

/-- The place to which a segment leads from another one. Nothing is above the root. -/
def step (here : List String) (segment : String) : List String :=
  if segment == "" || segment == "." then here
  else if segment == ".." then here.dropLast
  else here ++ [segment]

/-- The names in a path. A dot counts only at its start. -/
def components (segments : List String) : List String :=
  match segments with
  | "." :: rest => "." :: rest.filter fun s => s != "" && s != "."
  | _ => segments.filter fun s => s != "" && s != "."

/-- The names in a path, behind a slash if the path begins with one. -/
def rooted (segments : List String) : List String :=
  if isAbsolute segments then "/" :: components segments else components segments

def parents (names : List String) : List (List String) :=
  (List.range names.length).reverse.map names.take

def ofSegments (segments : List String) : String :=
  String.intercalate "/" segments

def join (dir file : String) : String :=
  if dir.toList.getLast?.all (· == '/') then dir ++ file else dir ++ "/" ++ file

/-- The order of paths: names are compared one after the other, and a directory precedes what is
below it. -/
def precedes : List String → List String → Bool
  | [], _ => true
  | _ :: _, [] => false
  | a :: as, b :: bs => if a = b then precedes as bs else a < b

def below? : List String → List String → Option (List String)
  | [], path => some path
  | _ :: _, [] => none
  | a :: as, b :: bs => if a = b then below? as bs else none

end RefDoc.Path
