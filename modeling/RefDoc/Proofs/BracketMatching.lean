import RefDoc.Proofs.TopLevel

namespace RefDoc.Nesting

open Text

variable {t r : List Char} {prev : Option Char} {c o : Char}

/-- Texts in which each bracket has its partner, behind a given character: other characters, and
pairs of brackets of one kind around such a text. -/
inductive Bracketed : Option Char → List Char → Prop
  | nil {prev : Option Char} : Bracketed prev []
  | plain {prev : Option Char} {c : Char} {t : List Char} (hopen : ¬Opens c)
      (hclose : ¬Closes prev c) (ht : Bracketed (some c) t) : Bracketed prev (c :: t)
  | pair {prev : Option Char} {o c : Char} {m r : List Char} (hkind : (o, c) ∈ typeBrackets)
      (hm : Bracketed (some o) m) (hclose : Closes (o :: m).getLast? c)
      (hr : Bracketed (some c) r) : Bracketed prev (o :: (m ++ c :: r))

theorem getLast?_cons_eq (c : Char) (t : List Char) :
    (c :: t).getLast? = t.getLast?.or (some c) := by
  rw [← getLast?_cons_or c t none, Option.or_none]

section Stack

theorem Bracketed.openBehind_eq (h : Bracketed prev t) (opened : List Char) :
    openBehind typeBrackets opened prev t = some opened := by
  induction h generalizing opened with
  | nil => rfl
  | plain hopen hclose _ ih =>
    rw [openBehind, openAfter_of_plain hopen hclose, Option.bind_some, ih]
  | pair hkind _ hclose _ ihm ihr =>
    rw [getLast?_cons_eq] at hclose
    rw [openBehind, openAfter_of_mem hkind, Option.bind_some, openBehind_append, ihm,
      Option.bind_some, openBehind, openAfter_of_closes hclose, List.head?_cons, if_pos rfl,
      Option.bind_some, List.tail_cons, ihr]

/-- A text that closes the given brackets, one after the other, with well bracketed texts in front
of, between and behind them. -/
inductive Completes : List Char → Option Char → List Char → Prop
  | last {prev : Option Char} {t : List Char} (ht : Bracketed prev t) : Completes [] prev t
  | close {opened m r : List Char} {prev : Option Char} {c : Char} (hm : Bracketed prev m)
      (hclose : Closes (m.getLast?.or prev) c) (hr : Completes opened (some c) r) :
      Completes (c :: opened) prev (m ++ c :: r)

theorem Completes.plain {opened : List Char} (hopen : ¬Opens c) (hclose : ¬Closes prev c)
    (h : Completes opened (some c) t) : Completes opened prev (c :: t) := by
  cases h with
  | last ht => exact .last (.plain hopen hclose ht)
  | close hm hclose' hr =>
    rw [← getLast?_cons_or] at hclose'
    exact .close (.plain hopen hclose hm) hclose' hr

theorem Completes.pair {opened : List Char} (hkind : (o, c) ∈ typeBrackets)
    (h : Completes (c :: opened) (some o) t) : Completes opened prev (o :: t) := by
  cases h with
  | @close _ m _ _ _ hm hclose hr =>
    rw [← getLast?_cons_eq] at hclose
    cases hr with
    | last ht => exact .last (.pair hkind hm hclose ht)
    | @close _ m' r _ c' hm' hclose' hr =>
      have hlast : (o :: (m ++ c :: m')).getLast?.or prev = m'.getLast?.or (some c) := by
        rw [getLast?_cons_or, List.getLast?_append, getLast?_cons_eq]
        simp
      rw [← hlast] at hclose'
      have h := Completes.close (.pair hkind hm hclose hm') hclose' hr
      rwa [List.cons_append, List.append_assoc, List.cons_append] at h

theorem completes_of_openBehind {opened : List Char}
    (h : openBehind typeBrackets opened prev t = some []) : Completes opened prev t := by
  induction t generalizing opened prev with
  | nil =>
    cases h
    exact .last .nil
  | cons c t ih =>
    obtain ⟨opened', hc, ht⟩ := Option.bind_eq_some_iff.mp h
    by_cases hopen : Opens c
    · obtain ⟨⟨o, close⟩, hkind, rfl⟩ := List.mem_map.mp hopen
      rw [openAfter_of_mem hkind] at hc
      cases hc
      exact .pair hkind (ih ht)
    by_cases hclose : Closes prev c
    · rw [openAfter_of_closes hclose] at hc
      split at hc
      · next hhead =>
        cases hc
        obtain ⟨rest, rfl⟩ := List.head?_eq_some_iff.mp hhead
        exact .close .nil hclose (ih ht)
      · cases hc
    · rw [openAfter_of_plain hopen hclose] at hc
      cases hc
      exact .plain hopen hclose (ih ht)

/-- The stack of open brackets accepts just the well bracketed texts. -/
theorem bracketed_iff_balanced : Bracketed none t ↔ Balanced typeBrackets t := by
  refine ⟨fun h => h.openBehind_eq [], fun h => ?_⟩
  cases completes_of_openBehind h with
  | last ht => exact ht

instance (t : List Char) : Decidable (Bracketed none t) :=
  decidable_of_iff' _ bracketed_iff_balanced

end Stack

section Depth

variable {m : List Char} {i j k : Nat}

theorem Bracketed.depthBehind_eq (h : Bracketed prev t) (d : Nat) : depthBehind d prev t = d := by
  have hlength := depthBehind_length (h.openBehind_eq (List.replicate d '>'))
  rwa [List.length_replicate] at hlength

theorem Bracketed.depthBehind_pos {a : List Char} (h : Bracketed none (a ++ c :: r))
    (hc : Closes a.getLast? c) : 0 < depthBehind 0 none a := by
  have hstack := h.openBehind_eq []
  rw [openBehind_append, Option.or_none] at hstack
  obtain ⟨opened, ha, hstack⟩ := Option.bind_eq_some_iff.mp hstack
  obtain ⟨opened', hstep, -⟩ := Option.bind_eq_some_iff.mp hstack
  rw [openAfter_of_closes hc] at hstep
  split at hstep
  · next hhead =>
    obtain ⟨rest, rfl⟩ := List.head?_eq_some_iff.mp hhead
    rw [show (0 : Nat) = [].length from rfl, depthBehind_length ha]
    exact Nat.succ_pos _
  · cases hstep

theorem depthBehind_pair (hkind : (o, c) ∈ typeBrackets) (hm : Bracketed (some o) m)
    (hclose : Closes (o :: m).getLast? c) (d : Nat) (prev : Option Char) (x : List Char) :
    depthBehind d prev (o :: (m ++ c :: x)) = depthBehind d (some c) x := by
  rw [getLast?_cons_eq] at hclose
  rw [depthBehind, depthAfter_of_opens (opens_of_mem hkind), depthBehind_append, hm.depthBehind_eq,
    depthBehind, depthAfter_of_closes hclose, Nat.add_sub_cancel]

theorem take_inside (hk : k ≤ m.length) (o c : Char) (r : List Char) :
    (o :: (m ++ c :: r)).take (k + 1) = o :: m.take k := by
  rw [List.take_succ_cons, List.take_append_of_le_length hk]

theorem take_behind (o c : Char) (m r : List Char) (k : Nat) :
    (o :: (m ++ c :: r)).take (m.length + k + 1 + 1) = o :: (m ++ c :: r.take k) := by
  rw [List.take_succ_cons, Nat.add_assoc, List.take_length_add_append, List.take_succ_cons]

theorem Bracketed.le_depthBehind_take (h : Bracketed prev t) (d k : Nat) :
    d ≤ depthBehind d prev (t.take k) := by
  induction h generalizing d k with
  | nil =>
    rw [List.take_nil]
    exact Nat.le_refl d
  | plain hopen hclose _ ih =>
    cases k with
    | zero => exact Nat.le_refl d
    | succ k =>
      rw [List.take_succ_cons, depthBehind, depthAfter_of_plain hopen hclose]
      exact ih d k
  | @pair _ o c m r hkind hm hclose _ ihm ihr =>
    cases k with
    | zero => exact Nat.le_refl d
    | succ k =>
      by_cases hk : k ≤ m.length
      · rw [take_inside hk, depthBehind, depthAfter_of_opens (opens_of_mem hkind)]
        exact Nat.le_trans (Nat.le_succ d) (ihm (d + 1) k)
      · obtain ⟨k, rfl⟩ := Nat.exists_eq_add_of_lt (Nat.lt_of_not_le hk)
        rw [take_behind, depthBehind_pair hkind hm hclose]
        exact ihr d k

end Depth

/-- The brackets at two positions belong together: they are of one kind, and what stands between
them is well bracketed. -/
def Matched (t : List Char) (i j : Nat) : Prop :=
  ∃ a o m c r, t = a ++ o :: (m ++ c :: r) ∧ i = a.length ∧ j = a.length + (m.length + 1) ∧
    (o, c) ∈ typeBrackets ∧ Bracketed (some o) m ∧ Closes (o :: m).getLast? c

/-- The position is neither that of a bracket nor between two that belong together. -/
def Outside (t : List Char) (k : Nat) : Prop :=
  ∀ i j, Matched t i j → ¬(i ≤ k ∧ k ≤ j)

/-- The pair stands in no other pair. -/
def Outermost (t : List Char) (i j : Nat) : Prop :=
  Matched t i j ∧ ∀ i' j', Matched t i' j' → ¬(i' < i ∧ j < j')

section Pairs

variable {i j k l : Nat}

theorem Matched.append (h : Matched t i j) (b : List Char) :
    Matched (b ++ t) (b.length + i) (b.length + j) := by
  obtain ⟨a, o, m, c, r, rfl, rfl, rfl, hpair⟩ := h
  refine ⟨b ++ a, o, m, c, r, ?_, ?_, ?_, hpair⟩
  · rw [List.append_assoc]
  · rw [List.length_append]
  · rw [List.length_append, Nat.add_assoc]

theorem Matched.lt (h : Matched t i j) : i < j := by
  obtain ⟨a, o, m, c, r, -, rfl, rfl, -⟩ := h
  omega

theorem Bracketed.exists_matched (h : Bracketed prev t) {d : Nat}
    (hk : d < depthBehind d prev (t.take k)) : ∃ i j, Matched t i j ∧ i < k ∧ k ≤ j := by
  induction h generalizing k with
  | nil =>
    rw [List.take_nil] at hk
    exact absurd hk (Nat.lt_irrefl d)
  | @plain _ c t hopen hclose _ ih =>
    cases k with
    | zero => exact absurd hk (Nat.lt_irrefl d)
    | succ k =>
      rw [List.take_succ_cons, depthBehind, depthAfter_of_plain hopen hclose] at hk
      obtain ⟨i, j, hmatch, hi, hj⟩ := ih hk
      refine ⟨_, _, hmatch.append [c], ?_, ?_⟩ <;> rw [List.length_singleton] <;> omega
  | @pair _ o c m r hkind hm hclose _ _ ihr =>
    cases k with
    | zero => exact absurd hk (Nat.lt_irrefl d)
    | succ k =>
      by_cases hle : k ≤ m.length
      · exact ⟨0, m.length + 1, ⟨[], o, m, c, r, rfl, rfl, by simp, hkind, hm, hclose⟩, by omega,
          by omega⟩
      · obtain ⟨k, rfl⟩ := Nat.exists_eq_add_of_lt (Nat.lt_of_not_le hle)
        rw [take_behind, depthBehind_pair hkind hm hclose] at hk
        obtain ⟨i, j, hmatch, hi, hj⟩ := ihr hk
        have hshift := hmatch.append (o :: (m ++ [c]))
        rw [List.cons_append, List.append_assoc, List.singleton_append] at hshift
        have hlength : (o :: (m ++ [c])).length = m.length + 2 := by simp
        refine ⟨_, _, hshift, ?_, ?_⟩ <;> rw [hlength] <;> omega

def depthAt (t : List Char) (k : Nat) : Nat :=
  depthBehind 0 none (t.take k)

theorem depthAt_append (a t : List Char) (k : Nat) :
    depthAt (a ++ t) (a.length + k) =
      depthBehind (depthAt (a ++ t) a.length) a.getLast? (t.take k) := by
  rw [depthAt, depthAt, List.take_length_add_append, List.take_left, depthBehind_append,
    Option.or_none]

theorem Matched.lt_depthAt (h : Matched t i j) (hi : i < k) (hj : k ≤ j) :
    depthAt t i < depthAt t k := by
  obtain ⟨a, o, m, c, r, rfl, rfl, rfl, hkind, hm, -⟩ := h
  obtain ⟨k, rfl⟩ := Nat.exists_eq_add_of_lt hi
  rw [Nat.add_assoc, depthAt_append, take_inside (by omega), depthBehind,
    depthAfter_of_opens (opens_of_mem hkind)]
  exact hm.le_depthBehind_take _ k

theorem Matched.depthAt_close (h : Matched t i j) : depthAt t j = depthAt t i + 1 := by
  obtain ⟨a, o, m, c, r, rfl, rfl, rfl, hkind, hm, -⟩ := h
  rw [depthAt_append, take_inside (Nat.le_refl _), List.take_length, depthBehind,
    depthAfter_of_opens (opens_of_mem hkind), hm.depthBehind_eq]

theorem Matched.depthAt_behind (h : Matched t i j) : depthAt t (j + 1) = depthAt t i := by
  obtain ⟨a, o, m, c, r, rfl, rfl, rfl, hkind, hm, hclose⟩ := h
  have htake := take_behind o c m r 0
  rw [Nat.add_assoc, depthAt_append, htake, depthBehind_pair hkind hm hclose]
  rfl

theorem Matched.nested (h : Matched t i j) (h' : Matched t k l) (hi : i < k) (hj : k ≤ j) :
    l < j := by
  have hdepth := h.lt_depthAt hi hj
  by_contra hl
  rcases Nat.eq_or_lt_of_le (Nat.le_of_not_lt hl) with rfl | hlt
  · have hclose := h.depthAt_close
    rw [h'.depthAt_close] at hclose
    omega
  · have hbehind := h'.lt_depthAt (Nat.lt_succ_of_le hj) hlt
    rw [h.depthAt_behind] at hbehind
    omega

theorem Bracketed.depthAt_eq_zero_iff (h : Bracketed none t) :
    depthAt t k = 0 ↔ ∀ i j, Matched t i j → ¬(i < k ∧ k ≤ j) := by
  refine ⟨fun hk i j hmatch hin => ?_, fun hk => ?_⟩
  · have hlt := hmatch.lt_depthAt hin.1 hin.2
    omega
  · by_contra hpos
    obtain ⟨i, j, hmatch, hi, hj⟩ := h.exists_matched (Nat.pos_of_ne_zero hpos)
    exact hk i j hmatch ⟨hi, hj⟩

theorem outside_or_outermost_iff :
    (Outside t k ∨ ∃ j, Outermost t k j) ↔ ∀ i j, Matched t i j → ¬(i < k ∧ k ≤ j) := by
  refine ⟨?_, fun h => ?_⟩
  · rintro (hout | ⟨l, hpair, hmost⟩) i j hmatch ⟨hi, hj⟩
    · exact hout i j hmatch ⟨Nat.le_of_lt hi, hj⟩
    · exact hmost i j hmatch ⟨hi, hmatch.nested hpair hi hj⟩
  · by_cases hopen : ∃ j, Matched t k j
    · obtain ⟨j, hpair⟩ := hopen
      refine .inr ⟨j, hpair, fun i' j' hmatch hin => h i' j' hmatch ⟨hin.1, ?_⟩⟩
      exact Nat.le_of_lt (Nat.lt_trans hpair.lt hin.2)
    · refine .inl fun i j hmatch hin => ?_
      rcases Nat.eq_or_lt_of_le hin.1 with rfl | hlt
      · exact hopen ⟨j, hmatch⟩
      · exact h i j hmatch ⟨hlt, hin.2⟩

end Pairs

/-- In a well bracketed text, the characters at depth zero are those that no pair of brackets
encloses, and the brackets that open the outermost pairs. They come in order, each with the byte at
which it begins. The depth is zero at the end, and no bracket closes anything at depth zero. -/
theorem topLevel_of_bracketed (h : Bracketed none t) :
    (topLevel t).Pairwise (fun x y => x.1 < y.1) ∧
    (∀ x, x ∈ topLevel t ↔ ∃ k, t[k]? = some x.2 ∧ x.1 = byteLength (t.take k) ∧
      (Outside t k ∨ ∃ j, Outermost t k j)) ∧
    depthBehind 0 none t = 0 ∧
    ∀ a c r, t = a ++ c :: r → Closes a.getLast? c → 0 < depthBehind 0 none a := by
  refine ⟨pairwise_topLevelFrom 0 _, fun x => ?_, h.depthBehind_eq 0, ?_⟩
  · simp only [mem_topLevel, outside_or_outermost_iff, ← h.depthAt_eq_zero_iff, depthAt]
  · rintro a c r rfl hc
    exact h.depthBehind_pos hc

def arrowText : List Char :=
  "(é, fn([u8]) -> K) -> V<u8>,".toList

theorem topLevel_arrowText : Bracketed none arrowText ∧ (28, ',') ∈ topLevel arrowText ∧
    ∃ k, arrowText[k]? = some ',' ∧ 28 = byteLength (arrowText.take k) ∧
      (Outside arrowText k ∨ ∃ j, Outermost arrowText k j) := by
  have hbracketed : Bracketed none arrowText := by decide +kernel
  have hcomma : (28, ',') ∈ topLevel arrowText := by decide +kernel
  exact ⟨hbracketed, hcomma, ((topLevel_of_bracketed hbracketed).2.1 _).mp hcomma⟩

end RefDoc.Nesting
