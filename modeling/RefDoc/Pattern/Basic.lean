import RefDoc.Text.Blank
import RefDoc.Text.Place
import RefDoc.Text.Word

namespace RefDoc

inductive Anchor where
  | lineStart
  | wordEdge

def Anchor.holds : Anchor → Place → Bool
  | .lineStart, x => x.before.all (· == '\n')
  | .wordEdge, x => x.before.any Text.isWord != x.after.any Text.isWord

/-- The two bounds of a group. -/
inductive Mark (γ : Type) where
  | opening (g : γ)
  | closing (g : γ)
deriving DecidableEq

/-- Patterns with an order of preference: of two alternatives the left one is preferred, a
repetition prefers more rounds, or, if lazy, fewer. The names of groups come from `γ`. -/
inductive Pattern (γ : Type) where
  | empty
  | char (p : Char → Bool)
  | anchor (a : Anchor)
  | mark (m : Mark γ)
  | seq (p q : Pattern γ)
  | alt (p q : Pattern γ)
  | many (p : Pattern γ)
  | manyLazy (p : Pattern γ)

namespace Pattern

variable {γ : Type}

/-- The patterns one after the other. -/
def sequence (ps : List (Pattern γ)) : Pattern γ :=
  ps.foldl .seq .empty

def charList (cs : List Char) : Pattern γ :=
  sequence (cs.map fun c => .char (· == c))

def literal (s : String) : Pattern γ :=
  charList s.toList

/-- The first of the patterns that lets the rest match. -/
def oneOf : List (Pattern γ) → Pattern γ
  | [] => .char fun _ => false
  | [p] => p
  | p :: ps => .alt p (oneOf ps)

/-- The pattern, or nothing if it does not match. -/
def maybe (p : Pattern γ) : Pattern γ :=
  .alt p .empty

def many1 (p : Pattern γ) : Pattern γ :=
  .seq p (.many p)

def group (g : γ) (p : Pattern γ) : Pattern γ :=
  sequence [.mark (.opening g), p, .mark (.closing g)]

def except (cs : List Char) : Pattern γ :=
  .char fun c => !cs.contains c

def blanks : Pattern γ :=
  .many (.char Text.isBlank)

def blanks1 : Pattern γ :=
  many1 (.char Text.isBlank)

def word : Pattern γ :=
  many1 (.char Text.isWord)

end Pattern

end RefDoc
