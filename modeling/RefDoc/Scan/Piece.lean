import RefDoc.Pattern.Find
import RefDoc.Text.Split

namespace RefDoc.Scan

open Pattern

variable {γ : Type}

/-- A whole line that begins with `///` behind spaces and tabs. -/
def docLine : Pattern γ :=
  sequence [.anchor .lineStart, .many (.char fun c => c == ' ' || c == '\t'),
    literal "///", .many (except ['\n']), literal "\n"]

def docLines : Pattern γ :=
  .many docLine

/-- The pattern of a declaration: documentation, white space, and the other parts. -/
def documented (g : γ) (ps : List (Pattern γ)) : Pattern γ :=
  sequence (group g docLines :: blanks :: ps)

def attributePart : Pattern γ :=
  sequence [literal "#[", .many (except ['\n']), literal "]", blanks]

def attributes : Pattern γ :=
  .many attributePart

def generics : Pattern γ :=
  sequence [literal "<", .many (except ['>']), literal ">"]

/-- The line of the first character of a match that is no white space. -/
def lineOf (f : Found γ) : Nat :=
  f.start.line + (f.text.takeWhile Text.isBlank).count '\n'

/-- A type on one line: white space is kept as written unless it breaks the line. -/
def oneLine (t : List Char) : List Char :=
  if t.contains '\n' then List.intercalate [' '] (Text.words t) else t

theorem oneLine_eq_self {t : List Char} (h : '\n' ∉ t) : oneLine t = t := by
  rw [oneLine, if_neg]
  rw [List.contains_iff_mem]
  exact h

end RefDoc.Scan
