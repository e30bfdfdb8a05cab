namespace RefDoc

structure Field where
  name : String
  type : String
  doc : String
deriving DecidableEq, Repr

structure Param where
  name : String
  type : String
deriving DecidableEq, Repr

structure StructDecl where
  name : String
  doc : String
  fields : List Field
  attributes : List String
  sourceFile : String
  line : Nat
  sizeCalculation : Option String
deriving DecidableEq, Repr

structure FunctionDecl where
  name : String
  doc : String
  signature : String
  sourceFile : String
  line : Nat
  isPublic : Bool
  params : List Param
  returnType : String
deriving DecidableEq, Repr

inductive Declaration where
  | struct (s : StructDecl)
  | function (f : FunctionDecl)
deriving DecidableEq, Repr

namespace Declaration

def name : Declaration → String
  | .struct s => s.name
  | .function f => f.name

def doc : Declaration → String
  | .struct s => s.doc
  | .function f => f.doc

def sourceFile : Declaration → String
  | .struct s => s.sourceFile
  | .function f => f.sourceFile

def line : Declaration → Nat
  | .struct s => s.line
  | .function f => f.line

def struct? : Declaration → Option StructDecl
  | .struct s => some s
  | .function _ => none

def function? : Declaration → Option FunctionDecl
  | .struct _ => none
  | .function f => some f

end Declaration

structure Catalog where
  structs : List StructDecl := []
  functions : List FunctionDecl := []
deriving DecidableEq, Repr

namespace Catalog

def add (c : Catalog) (ds : List Declaration) : Catalog where
  structs := c.structs ++ ds.filterMap Declaration.struct?
  functions := c.functions ++ ds.filterMap Declaration.function?

def publicFunctions (c : Catalog) : List FunctionDecl :=
  c.functions.filter (·.isPublic)

end Catalog

end RefDoc
