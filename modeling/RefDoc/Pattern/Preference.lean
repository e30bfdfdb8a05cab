import RefDoc.Pattern.Find

namespace RefDoc

namespace Place

def next? (x : Place) : Option Place :=
  match x.rest with
  | [] => none
  | c :: cs =>
    some {
      index := x.index + 1
      line := if c == '\n' then x.line + 1 else x.line
      before := some c
      rest := cs }

theorem length_rest_of_next? {x y : Place} (h : x.next? = some y) :
    y.rest.length < x.rest.length := by
  unfold next? at h
  split at h
  · cases h
  · next c cs hr =>
    cases h
    simp only [hr, List.length_cons, Nat.lt_succ_self]

def ascendingFrom (index line : Nat) (before : Option Char) : List Char → List Place
  | [] => [{ index, line, before, rest := [] }]
  | c :: cs =>
    { index, line, before, rest := c :: cs } ::
      ascendingFrom (index + 1) (if c == '\n' then line + 1 else line) (some c) cs

def ascending (t : List Char) : List Place :=
  ascendingFrom 0 1 none t

theorem descendingOnto_eq (t : List Char) (xs : List Place) (i l : Nat) (b : Option Char) :
    descendingOnto xs i l b t = (ascendingFrom i l b t).reverse ++ xs := by
  induction t generalizing xs i l b with
  | nil => rfl
  | cons c cs ih =>
    rw [descendingOnto, ih, ascendingFrom, List.reverse_cons, List.append_assoc,
      List.singleton_append]

theorem descending_eq (t : List Char) : descending t = (ascending t).reverse := by
  rw [descending, descendingOnto_eq, List.append_nil, ascending]

end Place

namespace Pattern

variable {γ : Type}

/-- Rounds of `f` before `k`, each of which takes at least one character. What is preferred is for
`choose` to say, which gets the match with one more round first. -/
def rounds (f : (Place → Option (Match γ)) → Place → Option (Match γ))
    (choose : Option (Match γ) → Option (Match γ) → Option (Match γ))
    (k : Place → Option (Match γ)) (x : Place) : Option (Match γ) :=
  choose (f (fun y => if _h : y.rest.length < x.rest.length then rounds f choose k y else none) x)
    (k x)
termination_by x.rest.length

/-- The preferred match of the pattern at a place, if `k` gives that of what follows the pattern. -/
def run : Pattern γ → (Place → Option (Match γ)) → Place → Option (Match γ)
  | .empty, k, x => k x
  | .char p, k, x => if x.after.any p then x.next?.bind k else none
  | .anchor a, k, x => if a.holds x then k x else none
  | .mark m, k, x => (k x).map (·.record m x)
  | .seq p q, k, x => p.run (q.run k) x
  | .alt p q, k, x => (p.run k x).or (q.run k x)
  | .many p, k, x => rounds p.run Option.or k x
  | .manyLazy p, k, x => rounds p.run (fun more done => done.or more) k x

/-- The memory with which a pass comes to the place. -/
def memoryAt : (p : Pattern γ) → (Place → Option (Match γ)) → Place → p.Memory
  | .char _, k, x => x.next?.bind k
  | .seq p q, k, x =>
    let m := p.memoryAt (q.run k) x
    (if p.isEmptyMemory m then none else some m, q.memoryAt k x)
  | .alt p q, k, x => (p.memoryAt k x, q.memoryAt k x)
  | .many p, k, x => p.memoryAt (run (.many p) k) x
  | .manyLazy p, k, x => p.memoryAt (run (.manyLazy p) k) x
  | .empty, _, _ => ()
  | .anchor _, _, _ => ()
  | .mark _, _, _ => ()

def Local (f : (Place → Option (Match γ)) → Place → Option (Match γ)) : Prop :=
  ∀ k k' x, (∀ y : Place, y.rest.length ≤ x.rest.length → k y = k' y) → f k x = f k' x

theorem Local.rounds {f : (Place → Option (Match γ)) → Place → Option (Match γ)} (hf : Local f)
    (choose : Option (Match γ) → Option (Match γ) → Option (Match γ)) :
    Local (Pattern.rounds f choose) := by
  intro k k' x h
  induction hn : x.rest.length using Nat.strongRecOn generalizing x with
  | ind n ih =>
    subst hn
    rw [Pattern.rounds, Pattern.rounds, h x (Nat.le_refl _)]
    congr 1
    apply hf
    intro y _
    by_cases hxy : y.rest.length < x.rest.length
    · simp only [hxy, ↓reduceDIte]
      exact ih _ hxy y (fun z hz => h z (Nat.le_trans hz (Nat.le_of_lt hxy))) rfl
    · simp only [hxy, ↓reduceDIte]

theorem local_run (p : Pattern γ) : Local p.run := by
  induction p with
  | empty => intro k k' x h; exact h x (Nat.le_refl _)
  | char p =>
    intro k k' x h
    simp only [run]
    cases hx : x.next? with
    | none => rfl
    | some y =>
      simp only [Option.bind_some, h y (Nat.le_of_lt (Place.length_rest_of_next? hx))]
  | anchor a => intro k k' x h; simp only [run, h x (Nat.le_refl _)]
  | mark m => intro k k' x h; simp only [run, h x (Nat.le_refl _)]
  | seq p q ihp ihq =>
    intro k k' x h
    exact ihp _ _ x fun y hy => ihq k k' y fun z hz => h z (Nat.le_trans hz hy)
  | alt p q ihp ihq => intro k k' x h; simp only [run, ihp k k' x h, ihq k k' x h]
  | many p ih => exact Local.rounds ih _
  | manyLazy p ih => exact Local.rounds ih _

theorem isEmptyMemory_emptyMemory (p : Pattern γ) : p.isEmptyMemory p.emptyMemory = true := by
  induction p with
  | seq p q _ ihq => simpa only [emptyMemory, isEmptyMemory, Option.isNone_none, Bool.true_and]
  | alt p q ihp ihq => simp only [emptyMemory, isEmptyMemory, ihp, ihq, Bool.and_self]
  | many p ih => exact ih
  | manyLazy p ih => exact ih
  | _ => rfl

theorem eq_emptyMemory (p : Pattern γ) (m : p.Memory) (h : p.isEmptyMemory m = true) :
    m = p.emptyMemory := by
  induction p with
  | char p => exact Option.isNone_iff_eq_none.mp h
  | seq p q _ ihq =>
    obtain ⟨m, n⟩ := m
    simp only [isEmptyMemory, Bool.and_eq_true, Option.isNone_iff_eq_none] at h
    rw [h.1, ihq n h.2]
    rfl
  | alt p q ihp ihq =>
    obtain ⟨m, n⟩ := m
    simp only [isEmptyMemory, Bool.and_eq_true] at h
    rw [ihp m h.1, ihq n h.2]
    rfl
  | many p ih => exact ih m h
  | manyLazy p ih => exact ih m h
  | _ => rfl

theorem value_emptyMemory (p : Pattern γ) (x : Place) : p.value p.emptyMemory x none = none := by
  induction p with
  | char p => simp only [value, emptyMemory, ite_self]
  | anchor a => simp only [value, ite_self]
  | seq p q _ ihq => simp only [value, emptyMemory, ihq]
  | alt p q ihp ihq => simp only [value, emptyMemory, ihp, ihq, Option.or_none]
  | many p ih => simp only [value, emptyMemory, ih, Option.or_none]
  | manyLazy p ih => simp only [value, emptyMemory, ih, Option.or_none]
  | _ => rfl

theorem value_seq (p q : Pattern γ) (m : p.Memory) (n : q.Memory) (x : Place)
    (k : Option (Match γ)) :
    (seq p q).value (if p.isEmptyMemory m then none else some m, n) x k =
      p.value m x (q.value n x k) := by
  by_cases h : p.isEmptyMemory m = true
  · simp only [h, ↓reduceIte, value]
    cases q.value n x k with
    | none => rw [eq_emptyMemory p m h, value_emptyMemory]
    | some v => rw [eq_emptyMemory p m h]; rfl
  · simp only [h, value]
    rfl

theorem step_emptyMemory (p : Pattern γ) (x : Place) :
    p.step p.emptyMemory x none = (none, p.emptyMemory) := by
  induction p with
  | char p => simp only [step, emptyMemory, ite_self]
  | anchor a => simp only [step, emptyMemory, ite_self]
  | seq p q _ ihq => simp only [step, emptyMemory, ihq]
  | alt p q ihp ihq => simp only [step, emptyMemory, ihp, ihq, Option.or_none]
  | many p ih => simp only [step, emptyMemory, value_emptyMemory, Option.or_none, ih]
  | manyLazy p ih => simp only [step, emptyMemory, value_emptyMemory, Option.or_none, ih]
  | _ => rfl

theorem step_seq (p q : Pattern γ) (m : p.Memory) (n : q.Memory) (x : Place)
    (k : Option (Match γ)) :
    (seq p q).step (if p.isEmptyMemory m then none else some m, n) x k =
      let (v, n') := q.step n x k
      let (w, m') := p.step m x v
      (w, (if p.isEmptyMemory m' then none else some m', n')) := by
  by_cases h : p.isEmptyMemory m = true
  · simp only [h, ↓reduceIte, step]
    cases hv : (q.step n x k).1 with
    | none =>
      simp only [eq_emptyMemory p m h, step_emptyMemory, isEmptyMemory_emptyMemory, ↓reduceIte]
    | some v => rw [eq_emptyMemory p m h]; rfl
  · simp only [h, step]
    rfl

/-- With the right memory, the value at a place is the preferred match there, whatever follows the
pattern at the place itself. -/
theorem value_memoryAt (p : Pattern γ) (k k' : Place → Option (Match γ)) (x : Place)
    (h : ∀ y : Place, y.rest.length < x.rest.length → k y = k' y) :
    p.value (p.memoryAt k x) x (k' x) = p.run k' x := by
  induction p generalizing k k' with
  | char p =>
    simp only [value, memoryAt, run]
    cases hx : x.next? with
    | none => rfl
    | some y => simp only [Option.bind_some, h y (Place.length_rest_of_next? hx)]
  | seq p q ihp ihq =>
    rw [memoryAt, value_seq, ihq k k' h]
    apply ihp
    intro y hy
    exact local_run q k k' y fun z hz => h z (Nat.lt_of_le_of_lt hz hy)
  | alt p q ihp ihq => simp only [value, memoryAt, run, ihp k k' h, ihq k k' h]
  | many p ih =>
    rw [value, memoryAt, run, rounds]
    congr 1
    have hx := ih (run (.many p) k)
      (fun y => if _ : y.rest.length < x.rest.length then run (.many p) k' y else none)
    simp only [Nat.lt_irrefl, ↓reduceDIte] at hx
    apply hx
    intro y hy
    simp only [hy, ↓reduceDIte]
    exact local_run (.many p) k k' y fun z hz => h z (Nat.lt_of_le_of_lt hz hy)
  | manyLazy p ih =>
    rw [value, memoryAt, run, rounds]
    congr 1
    have hx := ih (run (.manyLazy p) k)
      (fun y => if _ : y.rest.length < x.rest.length then run (.manyLazy p) k' y else none)
    simp only [Nat.lt_irrefl, ↓reduceDIte] at hx
    apply hx
    intro y hy
    simp only [hy, ↓reduceDIte]
    exact local_run (.manyLazy p) k k' y fun z hz => h z (Nat.lt_of_le_of_lt hz hy)
  | _ => rfl

theorem step_memoryAt (p : Pattern γ) (k : Place → Option (Match γ)) {w x : Place}
    (h : w.next? = some x) :
    p.step (p.memoryAt k x) x (k x) = (p.run k x, p.memoryAt k w) := by
  induction p generalizing k with
  | char p =>
    simp only [step, memoryAt, run, h, Option.bind_some]
  | seq p q ihp ihq =>
    rw [memoryAt, step_seq, ihq k]
    simp only [ihp (q.run k)]
    rfl
  | alt p q ihp ihq => simp only [step, memoryAt, run, ihp k, ihq k]
  | many p ih =>
    have hv : (p.value (p.memoryAt (run (.many p) k) x) x none).or (k x) = run (.many p) k x :=
      value_memoryAt (.many p) k k x fun _ _ => rfl
    simp only [step, memoryAt, hv, ih (run (.many p) k)]
  | manyLazy p ih =>
    have hv : (k x).or (p.value (p.memoryAt (run (.manyLazy p) k) x) x none) =
        run (.manyLazy p) k x :=
      value_memoryAt (.manyLazy p) k k x fun _ _ => rfl
    simp only [step, memoryAt, hv, ih (run (.manyLazy p) k)]
  | _ => rfl

theorem memoryAt_last (p : Pattern γ) (k : Place → Option (Match γ)) {x : Place}
    (h : x.next? = none) : p.memoryAt k x = p.emptyMemory := by
  induction p generalizing k with
  | char p => simp only [memoryAt, h]; rfl
  | seq p q ihp ihq =>
    simp only [memoryAt, ihp (q.run k), ihq k, isEmptyMemory_emptyMemory, ↓reduceIte]
    rfl
  | alt p q ihp ihq => simp only [memoryAt, ihp k, ihq k]; rfl
  | many p ih => exact ih _
  | manyLazy p ih => exact ih _
  | _ => rfl

def foundAt? (p : Pattern γ) (x : Place) : Option (Found γ) :=
  (p.run accept x).map fun r => { start := x, stop := r.stop, marks := r.marks }

theorem fst_step (p : Pattern γ) (m : p.Memory) (x : Place) (k : Option (Match γ)) :
    (p.step m x k).1 = p.value m x k := by
  induction p generalizing k with
  | seq p q ihp ihq =>
    obtain ⟨m, n⟩ := m
    simp only [step, value, ← ihq]
    cases m with
    | none =>
      cases (q.step n x k).1 with
      | none => rfl
      | some v => exact ihp _ _
    | some m => exact ihp _ _
  | alt p q ihp ihq =>
    obtain ⟨m, n⟩ := m
    simp only [step, value, ihp, ihq]
  | _ => rfl

theorem snd_visit (p : Pattern γ) (x : Place) (found : List (Found γ)) :
    (p.visit x (p.memoryAt accept x, found)).2 = (p.foundAt? x).toList ++ found := by
  have hs := fst_step p (p.memoryAt accept x) x (accept x)
  rw [value_memoryAt p accept accept x fun _ _ => rfl] at hs
  simp only [visit, foundAt?, ← hs]
  cases p.step (p.memoryAt accept x) x (accept x) with
  | mk v m => cases v <;> rfl

theorem fst_visit (p : Pattern γ) (found : List (Found γ)) {w x : Place} (h : w.next? = some x) :
    (p.visit x (p.memoryAt accept x, found)).1 = p.memoryAt accept w := by
  simp only [visit, step_memoryAt p accept h]
  cases p.run accept x <;> rfl

theorem foldr_visit (p : Pattern γ) (t : List Char) (i l : Nat) (b : Option Char) :
    let state := (Place.ascendingFrom i l b t).foldr p.visit (p.emptyMemory, [])
    state.2 = (Place.ascendingFrom i l b t).filterMap p.foundAt? ∧
      ∀ w : Place, w.next? = some ⟨i, l, b, t⟩ → state.1 = p.memoryAt accept w := by
  induction t generalizing i l b with
  | nil =>
    have h : p.memoryAt accept ⟨i, l, b, []⟩ = p.emptyMemory := memoryAt_last p accept rfl
    simp only [Place.ascendingFrom, List.foldr_cons, List.foldr_nil, ← h]
    refine ⟨?_, fun w hw => fst_visit p [] hw⟩
    rw [snd_visit, List.filterMap_cons, List.filterMap_nil]
    cases p.foundAt? _ <;> rfl
  | cons c cs ih =>
    obtain ⟨hfound, hmemory⟩ := ih (i + 1) (if c == '\n' then l + 1 else l) (some c)
    have h := hmemory ⟨i, l, b, c :: cs⟩ rfl
    simp only [Place.ascendingFrom, List.foldr_cons]
    generalize (Place.ascendingFrom (i + 1) _ (some c) cs).foldr p.visit _ = state at *
    obtain ⟨m, found⟩ := state
    change found = _ at hfound
    subst h
    refine ⟨?_, fun w hw => fst_visit p found hw⟩
    rw [snd_visit, List.filterMap_cons, hfound]
    cases p.foundAt? _ <;> rfl

/-- The pass finds at every place the match that is preferred there. -/
theorem candidates_eq_filterMap (p : Pattern γ) (t : List Char) :
    p.candidates t = (Place.ascending t).filterMap p.foundAt? := by
  rw [candidates, Place.descending_eq, List.foldl_reverse]
  exact (foldr_visit p t 0 1 none).1

end Pattern

end RefDoc
