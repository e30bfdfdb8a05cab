import RefDoc.Text.Blank

namespace RefDoc.Text

variable {α : Type}

def consFirst (a : α) : List (List α) → List (List α)
  | [] => [[a]]
  | piece :: pieces => (a :: piece) :: pieces

/-- The pieces between the elements that satisfy `sep`, which are dropped. There is always at least
one piece. -/
def splitWhere (sep : α → Bool) : List α → List (List α)
  | [] => [[]]
  | a :: as => if sep a then [] :: splitWhere sep as else consFirst a (splitWhere sep as)

/-- The lines of a text, without their ends. After a final line end stands an empty last line. -/
def lines (t : List Char) : List (List Char) :=
  splitWhere (· == '\n') t

def dropReturn (l : List Char) : List Char :=
  if l.getLast? = some '\r' then l.dropLast else l

def unlines (ls : List (List Char)) : List Char :=
  List.intercalate ['\n'] ls

def words (t : List Char) : List (List Char) :=
  (splitWhere isBlank t).filter (! ·.isEmpty)

/-- Does `part` stand somewhere in the text, as consecutive characters? -/
def occursIn (part : List Char) : List Char → Bool
  | [] => part.isEmpty
  | c :: cs => part.isPrefixOf (c :: cs) || occursIn part cs

end RefDoc.Text
