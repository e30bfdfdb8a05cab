import RefDoc.Decl

namespace RefDoc

def Field.item (f : Field) : String :=
  let head := "- `" ++ f.name ++ ": " ++ f.type ++ "`"
  if f.doc.isEmpty then head
  else head ++ " - " ++ f.doc.map fun c => if c == '\n' then ' ' else c

def Param.item (p : Param) : String :=
  "- `" ++ p.name ++ ": " ++ p.type ++ "`"

namespace Reference

def docLines (doc : String) : List String :=
  if doc.isEmpty then [] else [doc, ""]

def listLines (title : String) (items : List String) : List String :=
  if items.isEmpty then [] else ("**" ++ title ++ "**:\n") :: items ++ [""]

def location (file : String) (line : Nat) : String :=
  "**Location**: `" ++ file ++ ":" ++ Nat.repr line ++ "`\n"

end Reference

open Reference

def StructDecl.entry (s : StructDecl) : String :=
  let attributes :=
    if s.attributes.isEmpty then []
    else ["**Attributes**: `" ++ String.intercalate ", " s.attributes ++ "`\n"]
  let size :=
    match s.sizeCalculation with
    | none => []
    | some body => ["**Size Calculation**:\n", "```rust", body, "```", ""]
  String.intercalate "\n" <|
    ["### " ++ s.name ++ "\n", location s.sourceFile s.line] ++ attributes ++ docLines s.doc ++
      size ++ listLines "Fields" (s.fields.map Field.item)

def FunctionDecl.entry (f : FunctionDecl) : String :=
  String.intercalate "\n" <|
    ["### " ++ f.name ++ "\n", location f.sourceFile f.line,
      "**Signature**: `" ++ f.signature ++ "`\n"] ++
      docLines f.doc ++ listLines "Parameters" (f.params.map Param.item) ++
      ["**Returns**: `" ++ f.returnType ++ "`\n"]

end RefDoc
