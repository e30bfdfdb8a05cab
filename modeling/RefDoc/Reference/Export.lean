import RefDoc.Decl
import RefDoc.Json.Printer

namespace RefDoc

def Field.toJson (f : Field) : Json :=
  .object [("name", .string f.name), ("type", .string f.type), ("doc", .string f.doc)]

def Param.toJson (p : Param) : Json :=
  .object [("name", .string p.name), ("type", .string p.type)]

def StructDecl.toJson (s : StructDecl) : Json :=
  .object [
    ("name", .string s.name),
    ("doc", .string s.doc),
    ("fields", .array (s.fields.map Field.toJson)),
    ("attributes", .array (s.attributes.map .string)),
    ("source_file", .string s.sourceFile),
    ("line", .number s.line),
    ("size_calculation", .ofOption s.sizeCalculation)]

def FunctionDecl.toJson (f : FunctionDecl) : Json :=
  .object [
    ("name", .string f.name),
    ("doc", .string f.doc),
    ("signature", .string f.signature),
    ("source_file", .string f.sourceFile),
    ("line", .number f.line),
    ("is_public", .bool f.isPublic),
    ("params", .array (f.params.map Param.toJson)),
    ("return_type", .string f.returnType)]

def Catalog.toJson (generatedAt : String) (c : Catalog) : Json :=
  .object [
    ("generated_at", .string generatedAt),
    ("structs", .array (c.structs.map StructDecl.toJson)),
    ("functions", .array (c.functions.map FunctionDecl.toJson))]

/-- The written catalog, a text of whole lines. -/
def Reference.jsonExport (generatedAt : String) (c : Catalog) : String :=
  String.ofList ((c.toJson generatedAt).print 0 ++ ['\n'])

end RefDoc
