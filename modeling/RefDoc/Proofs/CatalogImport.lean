import RefDoc.Proofs.JsonReader
import RefDoc.Reference.Export

namespace RefDoc

namespace Json

def member? (key : String) : Json → Option Json
  | .object members => members.lookup key
  | _ => none

def string? : Json → Option String
  | .string s => some s
  | _ => none

theorem string?_string (s : String) : string? (.string s) = some s := rfl

def optionalString? : Json → Option (Option String)
  | .string s => some (some s)
  | .null => some none
  | _ => none

def number? : Json → Option Nat
  | .number n => some n
  | _ => none

def bool? : Json → Option Bool
  | .bool b => some b
  | _ => none

def list? {α : Type} (item? : Json → Option α) : Json → Option (List α)
  | .array items => items.mapM item?
  | _ => none

@[simp] theorem optionalString?_ofOption (o : Option String) :
    optionalString? (.ofOption o) = some o := by
  cases o <;> rfl

theorem list?_map {α : Type} {item? : Json → Option α} {toJson : α → Json}
    (h : ∀ a, item? (toJson a) = some a) (as : List α) :
    list? item? (.array (as.map toJson)) = some as := by
  induction as with
  | nil => rfl
  | cons a as ih =>
    simp only [list?] at ih ⊢
    simp [h, ih]

end Json

def Field.ofJson? (j : Json) : Option Field := do
  let name ← (← j.member? "name").string?
  let type ← (← j.member? "type").string?
  let doc ← (← j.member? "doc").string?
  return { name, type, doc }

def Param.ofJson? (j : Json) : Option Param := do
  let name ← (← j.member? "name").string?
  let type ← (← j.member? "type").string?
  return { name, type }

def StructDecl.ofJson? (j : Json) : Option StructDecl := do
  let name ← (← j.member? "name").string?
  let doc ← (← j.member? "doc").string?
  let fields ← (← j.member? "fields").list? Field.ofJson?
  let attributes ← (← j.member? "attributes").list? Json.string?
  let sourceFile ← (← j.member? "source_file").string?
  let line ← (← j.member? "line").number?
  let sizeCalculation ← (← j.member? "size_calculation").optionalString?
  return { name, doc, fields, attributes, sourceFile, line, sizeCalculation }

def FunctionDecl.ofJson? (j : Json) : Option FunctionDecl := do
  let name ← (← j.member? "name").string?
  let doc ← (← j.member? "doc").string?
  let signature ← (← j.member? "signature").string?
  let sourceFile ← (← j.member? "source_file").string?
  let line ← (← j.member? "line").number?
  let isPublic ← (← j.member? "is_public").bool?
  let params ← (← j.member? "params").list? Param.ofJson?
  let returnType ← (← j.member? "return_type").string?
  return { name, doc, signature, sourceFile, line, isPublic, params, returnType }

/-- The time and the catalog that a JSON value stands for. -/
def Catalog.ofJson? (j : Json) : Option (String × Catalog) := do
  let generatedAt ← (← j.member? "generated_at").string?
  let structs ← (← j.member? "structs").list? StructDecl.ofJson?
  let functions ← (← j.member? "functions").list? FunctionDecl.ofJson?
  return (generatedAt, { structs, functions })

theorem Field.ofJson?_toJson (f : Field) : Field.ofJson? f.toJson = some f := rfl

theorem Param.ofJson?_toJson (p : Param) : Param.ofJson? p.toJson = some p := rfl

theorem StructDecl.ofJson?_toJson (s : StructDecl) : StructDecl.ofJson? s.toJson = some s := by
  have hfields := Json.list?_map Field.ofJson?_toJson s.fields
  have hattributes := Json.list?_map Json.string?_string s.attributes
  simp [ofJson?, toJson, Json.member?, List.lookup_cons, Json.string?, Json.number?, hfields,
    hattributes]

theorem FunctionDecl.ofJson?_toJson (f : FunctionDecl) :
    FunctionDecl.ofJson? f.toJson = some f := by
  have hparams := Json.list?_map Param.ofJson?_toJson f.params
  simp [ofJson?, toJson, Json.member?, List.lookup_cons, Json.string?, Json.number?, Json.bool?,
    hparams]

theorem Catalog.ofJson?_toJson (generatedAt : String) (c : Catalog) :
    Catalog.ofJson? (c.toJson generatedAt) = some (generatedAt, c) := by
  have hstructs := Json.list?_map StructDecl.ofJson?_toJson c.structs
  have hfunctions := Json.list?_map FunctionDecl.ofJson?_toJson c.functions
  simp [ofJson?, toJson, Json.member?, List.lookup_cons, Json.string?, hstructs, hfunctions]

/-- The time and the whole catalog can be read back from the text, so it is the text of no other. -/
theorem Reference.jsonExport_lossless (generatedAt : String) (c : Catalog) :
    (∃ j, Json.read? (jsonExport generatedAt c) = some j ∧
      Catalog.ofJson? j = some (generatedAt, c)) ∧
    ∀ generatedAt' c', jsonExport generatedAt' c' = jsonExport generatedAt c ↔
      generatedAt' = generatedAt ∧ c' = c := by
  refine ⟨⟨c.toJson generatedAt, Json.read?_print _, Catalog.ofJson?_toJson generatedAt c⟩, ?_⟩
  intro generatedAt' c'
  constructor
  · intro h
    have hread : c'.toJson generatedAt' = c.toJson generatedAt := by
      simpa only [jsonExport, Json.read?_print, Option.some.injEq] using congrArg Json.read? h
    have hdecode := congrArg Catalog.ofJson? hread
    simpa only [Catalog.ofJson?_toJson, Option.some.injEq, Prod.mk.injEq] using hdecode
  · rintro ⟨rfl, rfl⟩
    rfl

end RefDoc
