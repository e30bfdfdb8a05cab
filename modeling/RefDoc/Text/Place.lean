namespace RefDoc

/-- A place by the number of characters before it and by its line, with what stands on its two
sides: the last character before it and all the text behind it. -/
structure Place where
  index : Nat
  line : Nat
  before : Option Char
  rest : List Char
deriving DecidableEq

namespace Place

def after (x : Place) : Option Char :=
  x.rest.head?

def textTo (x y : Place) : List Char :=
  x.rest.take (y.index - x.index)

/-- The places of the text that begins at the given place, the last one first, in front of `xs`. -/
def descendingOnto (xs : List Place) (index line : Nat) (before : Option Char) :
    List Char → List Place
  | [] => { index, line, before, rest := [] } :: xs
  | c :: cs =>
    descendingOnto ({ index, line, before, rest := c :: cs } :: xs) (index + 1)
      (if c == '\n' then line + 1 else line) (some c) cs

def descending (t : List Char) : List Place :=
  descendingOnto [] 0 1 none t

end Place

end RefDoc
