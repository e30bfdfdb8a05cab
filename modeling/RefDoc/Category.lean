import RefDoc.Decl
import RefDoc.Text.Split

namespace RefDoc

namespace StructDecl

def hasMarker (s : StructDecl) (marker : String) : Bool :=
  s.attributes.any fun a => Text.occursIn marker.toList a.toList

def isAccount (s : StructDecl) : Bool :=
  s.hasMarker "account"

def isZeroCopy (s : StructDecl) : Bool :=
  s.hasMarker "account(zero_copy)"

/-- Does the name contain one of the keywords, whatever the case of its letters? Lower case is that
of ASCII: beyond it, only the Kelvin sign and the dotted capital I have ASCII letters in their lower
case, the first a `k`, which no keyword has, the second an `i` before a combining dot, and no
keyword ends in `i`. -/
def nameHas (s : StructDecl) (keywords : List String) : Bool :=
  keywords.any fun k => Text.occursIn k.toList (s.name.toList.map Char.toLower)

end StructDecl

inductive Category where
  | account
  | configuration
  | data
  | other
deriving DecidableEq, Repr

namespace Category

/-- In the order in which they are presented. -/
def all : List Category :=
  [.account, .configuration, .data, .other]

def title : Category → String
  | .account => "Account Structures"
  | .configuration => "Configuration Structures"
  | .data => "Data Structures"
  | .other => "Other Structures"

end Category

/-- Attributes decide first, then the name. -/
def StructDecl.category (s : StructDecl) : Category :=
  if s.isAccount then .account
  else if s.nameHas ["config"] then .configuration
  else if s.nameHas ["data", "info", "cap", "snapshot"] then .data
  else .other

/-- The structs of each category that has any. -/
def Category.groups (ss : List StructDecl) : List (Category × List StructDecl) :=
  (all.map fun c => (c, ss.filter (·.category = c))).filter (! ·.2.isEmpty)

def Catalog.zeroCopyStructs (c : Catalog) : List StructDecl :=
  c.structs.filter (·.isZeroCopy)

end RefDoc
