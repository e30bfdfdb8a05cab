import RefDoc.Pattern.Match

namespace RefDoc

/-- A part of a text where a pattern matches. -/
structure Found (γ : Type) where
  start : Place
  stop : Place
  marks : List (Mark γ × Place)

/-- The text between the marks of a group. -/
def Pattern.capture {γ : Type} [DecidableEq γ] (ms : List (Mark γ × Place)) (g : γ) :
    Option (List Char) := do
  let start ← ms.lookup (.opening g)
  let stop ← ms.lookup (.closing g)
  return start.textTo stop

namespace Found

variable {γ : Type}

def text (f : Found γ) : List Char :=
  f.start.textTo f.stop

/-- The text that a group covers, if the match passes through the group. -/
def group? [DecidableEq γ] (f : Found γ) (g : γ) : Option (List Char) :=
  Pattern.capture f.marks g

def group [DecidableEq γ] (f : Found γ) (g : γ) : List Char :=
  (f.group? g).getD []

end Found

namespace Pattern

variable {γ : Type}

def accept (x : Place) : Option (Match γ) :=
  some { marks := [], stop := x }

/-- One place of the pass from right to left: the memory goes on to the left, and a match that
starts here comes before those found so far. -/
def visit (p : Pattern γ) (x : Place) (state : p.Memory × List (Found γ)) :
    p.Memory × List (Found γ) :=
  match p.step state.1 x (accept x) with
  | (some r, m) => (m, { start := x, stop := r.stop, marks := r.marks } :: state.2)
  | (none, m) => (m, state.2)

def candidates (p : Pattern γ) (t : List Char) : List (Found γ) :=
  ((Place.descending t).foldl (fun state x => p.visit x state) (p.emptyMemory, [])).2

/-- From matches in increasing order of their starts, those that start at `i` or later and do not
reach into one another. -/
def disjointFrom : Nat → List (Found γ) → List (Found γ)
  | _, [] => []
  | i, f :: fs =>
    if f.start.index < i then disjointFrom i fs else f :: disjointFrom f.stop.index fs

/-- All matches, each the leftmost one that starts behind the one before. -/
def findAll (p : Pattern γ) (t : List Char) : List (Found γ) :=
  disjointFrom 0 (p.candidates t)

/-- The leftmost match. -/
def find? (p : Pattern γ) (t : List Char) : Option (Found γ) :=
  (p.candidates t).head?

end Pattern

end RefDoc
