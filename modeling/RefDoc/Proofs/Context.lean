import RefDoc.Pattern.Preference
import Mathlib.Data.List.Basic

namespace RefDoc.Place

variable {l m r : List Char}

/-- The place between `l` and `r` in the text `l ++ r`. -/
def between (l r : List Char) : Place where
  index := l.length
  line := l.count '\n' + 1
  before := l.getLast?
  rest := r

@[simp] theorem between_index (l r : List Char) : (between l r).index = l.length := rfl

@[simp] theorem between_line (l r : List Char) : (between l r).line = l.count '\n' + 1 := rfl

@[simp] theorem between_before (l r : List Char) : (between l r).before = l.getLast? := rfl

@[simp] theorem between_rest (l r : List Char) : (between l r).rest = r := rfl

@[simp] theorem between_after (l r : List Char) : (between l r).after = r.head? := rfl

theorem line_append_singleton (l : List Char) (c : Char) :
    (if c == '\n' then l.count '\n' + 1 + 1 else l.count '\n' + 1) =
      (l ++ [c]).count '\n' + 1 := by
  rw [List.count_append, List.count_singleton]
  split <;> rfl

theorem next?_cons (l r : List Char) (c : Char) :
    (between l (c :: r)).next? = some (between (l ++ [c]) r) := by
  simp only [next?, between, line_append_singleton, List.length_append, List.length_singleton,
    List.getLast?_append, List.getLast?_singleton, Option.some_or]

theorem textTo_between (l m r : List Char) :
    (between l (m ++ r)).textTo (between (l ++ m) r) = m := by
  simp only [textTo, between, List.length_append, Nat.add_sub_cancel_left, List.take_left]

def placesFrom (l r : List Char) : List Place :=
  ascendingFrom l.length (l.count '\n' + 1) l.getLast? r

theorem placesFrom_nil (l : List Char) : placesFrom l [] = [between l []] := rfl

theorem placesFrom_cons (l r : List Char) (c : Char) :
    placesFrom l (c :: r) = between l (c :: r) :: placesFrom (l ++ [c]) r := by
  simp only [placesFrom, ascendingFrom, line_append_singleton, List.length_append,
    List.length_singleton, List.getLast?_append, List.getLast?_singleton, Option.some_or]
  rfl

theorem ascending_eq_placesFrom (t : List Char) : ascending t = placesFrom [] t := rfl

theorem length_le_of_mem_placesFrom {x : Place} (h : x ∈ placesFrom l r) : l.length ≤ x.index := by
  induction r generalizing l with
  | nil =>
    rw [placesFrom_nil, List.mem_singleton] at h
    subst x
    exact Nat.le_refl _
  | cons c r ih =>
    rw [placesFrom_cons, List.mem_cons] at h
    rcases h with h | h
    · subst x
      exact Nat.le_refl _
    · have hl := ih h
      rw [List.length_append] at hl
      omega

theorem placesFrom_append (l m r : List Char) :
    ∃ xs, placesFrom l (m ++ r) = xs ++ placesFrom (l ++ m) r ∧
      ∀ x ∈ xs, x.index < l.length + m.length := by
  induction m generalizing l with
  | nil => exact ⟨[], by simp only [List.nil_append, List.append_nil], by simp⟩
  | cons c m ih =>
    obtain ⟨xs, he, hx⟩ := ih (l ++ [c])
    refine ⟨between l (c :: (m ++ r)) :: xs, ?_, ?_⟩
    · rw [List.cons_append, placesFrom_cons, he, List.append_assoc, List.singleton_append,
        List.cons_append]
    · intro x h
      rcases List.mem_cons.mp h with h | h
      · subst x
        simp only [between_index, List.length_cons]
        omega
      · have hl := hx x h
        simp only [List.length_append, List.length_cons, List.length_nil] at hl ⊢
        omega

end RefDoc.Place
