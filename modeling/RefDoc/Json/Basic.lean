namespace RefDoc

/-- JSON values whose numbers are natural. -/
inductive Json where
  | null
  | bool (b : Bool)
  | number (n : Nat)
  | string (s : String)
  | array (items : List Json)
  | object (members : List (String × Json))

namespace Json

def ofOption : Option String → Json
  | none => .null
  | some s => .string s

end Json

end RefDoc
