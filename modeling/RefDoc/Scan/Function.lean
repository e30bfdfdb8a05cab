import RefDoc.Decl
import RefDoc.DocComment
import RefDoc.Nesting
import RefDoc.Scan.Piece

namespace RefDoc.Scan

open Pattern

def dropLead (lead t : List Char) : List Char :=
  if lead.isPrefixOf t then t.drop lead.length else t

def paramName (t : List Char) : List Char :=
  let name := Text.trimStart (dropLead ['m', 'u', 't', ' '] (Text.trim t))
  Text.trim (dropLead ['&'] name)

/-- A parameter, if it has a colon and a name: receivers such as `&self` have none. -/
def param? (piece : List Char) : Option Param :=
  let piece := Text.trim piece
  match piece.dropWhile (· != ':') with
  | [] => none
  | _ :: type =>
    let name := paramName (piece.takeWhile (· != ':'))
    if name.isEmpty then none
    else some {
      name := String.ofList name
      type := String.ofList (oneLine (Text.trim type)) }

def paramList (t : List Char) : List Param :=
  (Nesting.splitAtCommas t).filterMap param?

inductive FunctionPart where
  | doc
  | visibility
  | name
  | params
  | result
deriving DecidableEq

def qualifierWord : Pattern FunctionPart :=
  oneOf [literal "const", literal "async", literal "unsafe",
    sequence [literal "extern", blanks1, literal "\"", .many (except ['"']), literal "\""]]

def qualifiers : Pattern FunctionPart :=
  .many (sequence [qualifierWord, blanks1])

def resultParts : List (Pattern FunctionPart) :=
  [blanks, maybe (sequence [literal "->", blanks, group .result (many1 (except ['{', ';']))]),
    blanks, .char fun c => c == '{' || c == ';']

def signatureParts : List (Pattern FunctionPart) :=
  .anchor .wordEdge :: literal "fn" :: blanks1 :: group .name word :: blanks ::
    maybe generics :: blanks ::
    literal "(" :: group .params (.many (except [')'])) :: literal ")" :: resultParts

def functionParts : List (Pattern FunctionPart) :=
  attributes :: maybe (group .visibility (sequence [literal "pub", blanks1])) :: qualifiers ::
    signatureParts

/-- A function from its documentation to the brace or semicolon behind its signature. -/
def functionPattern : Pattern FunctionPart :=
  documented .doc functionParts

/-- The return type as written, or the unit type where none is. -/
def returnType (result : Option (List Char)) : List Char :=
  match result.map Text.trim with
  | none | some [] => ['(', ')']
  | some type => type

def functionDecl (file : String) (f : Found FunctionPart) : FunctionDecl :=
  let name := String.ofList (f.group .name)
  let params := f.group .params
  let result := String.ofList (returnType (f.group? .result))
  { name
    doc := String.ofList (DocComment.clean (f.group .doc))
    signature := "fn " ++ name ++ "(" ++ String.ofList params ++ ") -> " ++ result
    sourceFile := file
    line := lineOf f
    isPublic := (f.group? .visibility).isSome
    params := paramList params
    returnType := result }

def functions (text file : String) : List FunctionDecl :=
  let t := text.toList
  (functionPattern.findAll t).map (functionDecl file)

end RefDoc.Scan
