import RefDoc.Decl
import RefDoc.DocComment
import RefDoc.Nesting
import RefDoc.Scan.Size

namespace RefDoc.Scan

open Pattern

inductive AttributePart where
  | content
deriving DecidableEq

def attributePattern : Pattern AttributePart :=
  sequence [literal "#[", group .content (many1 (except [']'])), literal "]"]

/-- The contents of the attributes in a text, without the white space around them. -/
def attributeList (t : List Char) : List String :=
  (attributePattern.findAll t).map fun f => String.ofList (Text.trim (f.group .content))

inductive FieldPart where
  | doc
  | name
deriving DecidableEq

def fieldParts : List (Pattern FieldPart) :=
  [literal "pub", blanks1, group .name word, blanks, literal ":", blanks]

def fieldPattern : Pattern FieldPart :=
  documented .doc fieldParts

def dropLastCommas (t : List Char) : List Char :=
  (t.reverse.dropWhile (· == ',')).reverse

/-- The type at the start of a text. It ends at a comma or a line end outside brackets. -/
def fieldType (t : List Char) : List Char :=
  oneLine (dropLastCommas (Text.trim (Nesting.takeUntil (fun c => c == ',' || c == '\n') t)))

/-- The field at a match, if its type is not missing. -/
def fieldAt? (f : Found FieldPart) : Option Field :=
  let type := fieldType f.stop.rest
  if type.isEmpty then none
  else some {
    name := String.ofList (f.group .name)
    type := String.ofList type
    doc := String.ofList (DocComment.clean (f.group .doc)) }

def fieldList (body : List Char) : List Field :=
  (fieldPattern.findAll body).filterMap fieldAt?

inductive StructPart where
  | doc
  | attributes
  | name
  | fields
deriving DecidableEq

def structParts : List (Pattern StructPart) :=
  [group .attributes attributes,
    literal "pub", blanks1, literal "struct", blanks1, group .name word, blanks,
    maybe generics, blanks, literal "\x7b", blanks,
    group .fields (.manyLazy (.char fun _ => true)), blanks, literal "\x7d"]

/-- A public struct from its documentation to the first closing brace. -/
def structPattern : Pattern StructPart :=
  documented .doc structParts

def structDecl (t : List Char) (file : String) (f : Found StructPart) : StructDecl where
  name := String.ofList (f.group .name)
  doc := String.ofList (DocComment.clean (f.group .doc))
  fields := fieldList (f.group .fields)
  attributes := attributeList (f.group .attributes)
  sourceFile := file
  line := lineOf f
  sizeCalculation := (sizeBody t (f.group .name)).map String.ofList

def structs (text file : String) : List StructDecl :=
  let t := text.toList
  (structPattern.findAll t).map (structDecl t file)

end RefDoc.Scan
