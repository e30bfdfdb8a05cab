import RefDoc.Pattern.Basic

namespace RefDoc

/-- Where a match ends, and the marks that it passes, in their order. -/
structure Match (γ : Type) where
  marks : List (Mark γ × Place)
  stop : Place

def Match.record {γ : Type} (m : Mark γ) (x : Place) (r : Match γ) : Match γ :=
  { r with marks := (m, x) :: r.marks }

namespace Pattern

variable {γ : Type}

/-- For each character test, the preferred match of what follows it, one place to the right. In a
sequence the first part has no memory while nothing follows it. -/
def Memory : Pattern γ → Type
  | .char _ => Option (Match γ)
  | .seq p q => Option p.Memory × q.Memory
  | .alt p q => p.Memory × q.Memory
  | .many p => p.Memory
  | .manyLazy p => p.Memory
  | .empty => Unit
  | .anchor _ => Unit
  | .mark _ => Unit

def emptyMemory : (p : Pattern γ) → p.Memory
  | .char _ => (none : Option (Match γ))
  | .seq _ q => (none, q.emptyMemory)
  | .alt p q => (p.emptyMemory, q.emptyMemory)
  | .many p => p.emptyMemory
  | .manyLazy p => p.emptyMemory
  | .empty => ()
  | .anchor _ => ()
  | .mark _ => ()

def isEmptyMemory : (p : Pattern γ) → p.Memory → Bool
  | .char _, next => (next : Option (Match γ)).isNone
  | .seq _ q, (m, n) => m.isNone && q.isEmptyMemory n
  | .alt p q, (m, n) => p.isEmptyMemory m && q.isEmptyMemory n
  | .many p, m => p.isEmptyMemory m
  | .manyLazy p, m => p.isEmptyMemory m
  | .empty, _ => true
  | .anchor _, _ => true
  | .mark _, _ => true

/-- The preferred match of the pattern at a place, if `k` is that of what follows the pattern there.
A round of a repetition takes at least one character. -/
def value : (p : Pattern γ) → p.Memory → Place → Option (Match γ) → Option (Match γ)
  | .empty, _, _, k => k
  | .char p, next, x, _ => if x.after.any p then next else none
  | .anchor a, _, x, k => if a.holds x then k else none
  | .mark m, _, x, k => k.map (·.record m x)
  | .seq p q, (m, n), x, k =>
    match m, q.value n x k with
    | none, none => none
    | m, v => p.value (m.getD p.emptyMemory) x v
  | .alt p q, (m, n), x, k => (p.value m x k).or (q.value n x k)
  | .many p, m, x, k => (p.value m x none).or k
  | .manyLazy p, m, x, k => k.or (p.value m x none)

/-- The value at a place together with the memory for the place to its left. -/
def step : (p : Pattern γ) → p.Memory → Place → Option (Match γ) → Option (Match γ) × p.Memory
  | .empty, _, _, k => (k, ())
  | .char p, next, x, k => (if x.after.any p then next else none, k)
  | .anchor a, _, x, k => (if a.holds x then k else none, ())
  | .mark m, _, x, k => (k.map (·.record m x), ())
  | .seq p q, (m, n), x, k =>
    let (v, n) := q.step n x k
    match m, v with
    | none, none => (none, (none, n))
    | m, v =>
      let (w, m) := p.step (m.getD p.emptyMemory) x v
      (w, (if p.isEmptyMemory m then none else some m, n))
  | .alt p q, (m, n), x, k =>
    let (v, m) := p.step m x k
    let (w, n) := q.step n x k
    (v.or w, (m, n))
  | .many p, m, x, k =>
    let v := (p.value m x none).or k
    (v, (p.step m x v).2)
  | .manyLazy p, m, x, k =>
    let v := k.or (p.value m x none)
    (v, (p.step m x v).2)

end Pattern

end RefDoc
