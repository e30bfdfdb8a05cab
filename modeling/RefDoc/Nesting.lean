import RefDoc.Text.Split

namespace RefDoc.Nesting

/-- The depth behind a character, from the depth and the character before it. Round, square and
angle brackets nest without regard to their kind, the head of an arrow closes nothing, and a
closing bracket with no partner is passed over. -/
def depthAfter (depth : Nat) (prev : Option Char) (c : Char) : Nat :=
  if c == '<' || c == '(' || c == '[' then depth + 1
  else if c == '>' && prev == some '-' then depth
  else if c == '>' || c == ')' || c == ']' then depth - 1
  else depth

def depthsFrom (depth : Nat) (prev : Option Char) : List Char → List (Char × Nat)
  | [] => []
  | c :: cs => (c, depth) :: depthsFrom (depthAfter depth prev c) (some c) cs

/-- Each character with the number of brackets that are open before it. -/
def depths (t : List Char) : List (Char × Nat) :=
  depthsFrom 0 none t

/-- The pieces between the commas that stand in no bracket. -/
def splitAtCommas (t : List Char) : List (List Char) :=
  (Text.splitWhere (fun (c, depth) => depth == 0 && c == ',') (depths t)).map (·.map (·.1))

/-- The text in front of the first character that stands in no bracket and satisfies `stop`. -/
def takeUntil (stop : Char → Bool) (t : List Char) : List Char :=
  ((depths t).takeWhile fun (c, depth) => !(depth == 0 && stop c)).map (·.1)

end RefDoc.Nesting
