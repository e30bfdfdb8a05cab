import RefDoc.Scan.Piece

namespace RefDoc.Scan

open Pattern

inductive SizePart where
  | body
deriving DecidableEq

/-- An `impl` block for the named type, inherent or of a trait, up to its opening brace. -/
def implParts (name : List Char) : List (Pattern SizePart) :=
  [literal "impl", maybe generics, blanks1,
    maybe (sequence [many1 (.char fun c => Text.isWord c || c == ':'), maybe generics, blanks1,
      literal "for", blanks1]),
    charList name, maybe generics, blanks, literal "\x7b"]

def methodParts : List (Pattern SizePart) :=
  [literal "fn", blanks1, word, blanks, literal "(", blanks, literal ")",
    blanks, literal "->", blanks, literal "usize", blanks, literal "\x7b"]

def tailParts : List (Pattern SizePart) :=
  methodParts ++ [blanks, group .body (many1 (except ['}'])), literal "\x7d"]

/-- The block up to the end of its first method without arguments that returns a `usize`. -/
def sizePattern (name : List Char) : Pattern SizePart :=
  sequence (.anchor .wordEdge :: (implParts name ++ .manyLazy (except ['}']) :: tailParts))

def sizeBody (t name : List Char) : Option (List Char) := do
  let f ← (sizePattern name).find? t
  let body := Text.trim (f.group .body)
  if body.isEmpty then none else some body

/-- The size calculation for the struct `name` in the source `text`. -/
def sizeCalculation (text name : String) : Option String :=
  (sizeBody text.toList name.toList).map String.ofList

end RefDoc.Scan
