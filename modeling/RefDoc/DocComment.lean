import RefDoc.Text.Split

namespace RefDoc.DocComment

def hasLeader : List Char → Bool
  | '/' :: '/' :: c :: _ => c == '/' || c == '!'
  | _ => false

def dropLeaders : List Char → List Char
  | '/' :: '/' :: c :: rest =>
    if c == '/' || c == '!' then dropLeaders (Text.trim rest) else '/' :: '/' :: c :: rest
  | line => line
termination_by line => line.length
decreasing_by
  have := Text.length_trim_le rest
  simp only [List.length_cons]
  omega

/-- The text of a documentation comment. Lines without a leader are left out, unless no line has
one: then the text has no leaders to remove. -/
def clean (block : List Char) : List Char :=
  let lines := (Text.lines block).map Text.trim
  let kept :=
    if lines.any hasLeader then (lines.filter hasLeader).map dropLeaders else lines
  Text.trim (Text.unlines kept)

end RefDoc.DocComment
