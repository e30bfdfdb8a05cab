import RefDoc.Proofs.Correspondence
import RefDoc.Proofs.Crlf

namespace RefDoc

open Text Pattern

/-- A carriage return is put in front of every newline. -/
def Change.lineEnds : Change where
  left := crlf
  inner := crlf
  right := crlf
  left_append := crlf_append
  right_append := crlf_append

namespace LineEnd

variable {γ : Type} {loose : Mark γ → Bool} {t l r : List Char} {k k' : Place → Option (Match γ)}
  {f : Char → Bool} {p q : Pattern γ}

/-- The place inside a line end. It corresponds to no place of the text without returns. -/
def middle (l r : List Char) : Place :=
  .between (crlf l ++ ['\r']) ('\n' :: crlf r)

/-- Where a mark stands in the two texts. A loose one in front of a newline may have got behind the
carriage return. -/
def Carries (loose : Mark γ → Bool) (t : List Char) (m : Mark γ) (x y : Place) : Prop :=
  Change.lineEnds.Carries t x y ∨
    loose m = true ∧ ∃ l r, t = l ++ '\n' :: r ∧ x = .between l ('\n' :: r) ∧ y = middle l r

/-- No match in either text, or matches that correspond. -/
abbrev Same (loose : Mark γ → Bool) (t : List Char) : Option (Match γ) → Option (Match γ) → Prop :=
  Option.Rel (Match.Corresponds (Carries loose t) (Change.lineEnds.Carries t))

/-- What follows a pattern finds the same at the places of both texts. -/
def Aligned (loose : Mark γ → Bool) (t : List Char) (k k' : Place → Option (Match γ)) : Prop :=
  ∀ l r, t = l ++ r → Same loose t (k (.between l r)) (k' (.between (crlf l) (crlf r)))

/-- It can also go on inside a line end if it can in front of it, and then it can behind it. -/
structure Agreeing (loose : Mark γ → Bool) (t : List Char) (k k' : Place → Option (Match γ)) :
    Prop where
  aligned : Aligned loose t k k'
  inside : ∀ l r, t = l ++ '\n' :: r →
    (k' (middle l r)).isSome = (k (.between l ('\n' :: r))).isSome
  behind : ∀ l r, t = l ++ '\n' :: r → (k (.between l ('\n' :: r))).isSome = true →
    (k (.between (l ++ ['\n']) r)).isSome = true

/-- Inside a line end it finds what it does behind it. -/
structure Spanning (loose : Mark γ → Bool) (t : List Char) (k k' : Place → Option (Match γ)) : Prop
    extends Agreeing loose t k k' where
  spans : ∀ l r, t = l ++ '\n' :: r →
    Same loose t (k (.between (l ++ ['\n']) r)) (k' (middle l r))

/-- It cannot go on at a line end. -/
structure Inked (loose : Mark γ → Bool) (t : List Char) (k k' : Place → Option (Match γ)) :
    Prop where
  aligned : Aligned loose t k k'
  newline : ∀ l r, t = l ++ '\n' :: r → k (.between l ('\n' :: r)) = none
  inside : ∀ l r, t = l ++ '\n' :: r → k' (middle l r) = none

/-- Inside a line end it finds what it does in front of it. -/
structure Wide (loose : Mark γ → Bool) (t : List Char) (k k' : Place → Option (Match γ)) :
    Prop where
  aligned : Aligned loose t k k'
  inside : ∀ l r, t = l ++ '\n' :: r →
    Same loose t (k (.between l ('\n' :: r))) (k' (middle l r))

/-- It goes on at the newline itself, and so not in front of the carriage return. -/
structure Breaking (loose : Mark γ → Bool) (t : List Char) (k k' : Place → Option (Match γ)) :
    Prop where
  plain : ∀ l r, t = l ++ r → r.head? ≠ some '\n' →
    Same loose t (k (.between l r)) (k' (.between (crlf l) (crlf r)))
  newline : ∀ l r, t = l ++ '\n' :: r → k' (.between (crlf l) (crlf ('\n' :: r))) = none
  inside : ∀ l r, t = l ++ '\n' :: r →
    Same loose t (k (.between l ('\n' :: r))) (k' (middle l r))

theorem Inked.agreeing (h : Inked loose t k k') : Agreeing loose t k k' where
  aligned := h.aligned
  inside l r ht := by rw [h.newline l r ht, h.inside l r ht]
  behind l r ht hs := by
    rw [h.newline l r ht] at hs
    cases hs

theorem Agreeing.middle_eq_none (h : Agreeing loose t k k') (ht : t = l ++ '\n' :: r)
    (hk : k (.between l ('\n' :: r)) = none) : k' (middle l r) = none := by
  have hs := h.inside l r ht
  rw [hk] at hs
  exact Option.isNone_iff_eq_none.mp (Option.isSome_eq_false_iff.mp hs)

theorem agreeing_accept : Agreeing loose t accept accept where
  aligned _ _ ht := .some ⟨.nil, Change.carries_between ht⟩
  inside _ _ _ := rfl
  behind _ _ _ _ := rfl

theorem run_char_cons (f : Char → Bool) (k : Place → Option (Match γ)) (l r : List Char)
    (c : Char) :
    (Pattern.char f).run k (.between l (c :: r)) =
      if f c then k (.between (l ++ [c]) r) else none := by
  simp only [Pattern.run, Place.between_after, List.head?_cons, Option.any_some, Place.next?_cons,
    Option.bind_some]

theorem Aligned.char_plain (h : Aligned loose t k k') (f : Char → Bool) (ht : t = l ++ r)
    (hr : r.head? ≠ some '\n') :
    Same loose t ((Pattern.char f).run k (.between l r))
      ((Pattern.char f).run k' (.between (crlf l) (crlf r))) := by
  cases r with
  | nil => exact .none
  | cons c r =>
    have hc : c ≠ '\n' := fun hc => hr (congrArg some hc)
    rw [crlf_cons hc, run_char_cons, run_char_cons]
    split
    · rw [← crlf_concat hc]
      exact h (l ++ [c]) r (by rw [ht, List.append_assoc]; rfl)
    · exact .none

theorem Aligned.of_plain
    (hplain : ∀ l r, t = l ++ r → r.head? ≠ some '\n' →
      Same loose t (k (.between l r)) (k' (.between (crlf l) (crlf r))))
    (hnewline : ∀ l r, t = l ++ '\n' :: r →
      Same loose t (k (.between l ('\n' :: r))) (k' (.between (crlf l) (crlf ('\n' :: r))))) :
    Aligned loose t k k' := by
  intro l r ht
  by_cases hr : r.head? = some '\n'
  · cases r with
    | nil => cases hr
    | cons c r =>
      cases hr
      exact hnewline l r ht
  · exact hplain l r ht hr

theorem Aligned.char_inked (h : Aligned loose t k k') (hn : f '\n' = false) (hr : f '\r' = false) :
    Inked loose t ((Pattern.char f).run k) ((Pattern.char f).run k') where
  aligned := by
    apply Aligned.of_plain
    · exact fun l r ht hhead => h.char_plain f ht hhead
    · intro l r ht
      rw [crlf_newline, run_char_cons, run_char_cons, hn, hr]
      exact .none
  newline l r ht := by
    rw [run_char_cons, hn]
    rfl
  inside l r ht := by
    rw [middle, run_char_cons, hn]
    rfl

theorem Aligned.char_breaking (h : Aligned loose t k k') (hn : f '\n' = true)
    (hr : f '\r' = false) :
    Breaking loose t ((Pattern.char f).run k) ((Pattern.char f).run k') where
  plain l r ht hhead := h.char_plain f ht hhead
  newline l r ht := by
    rw [crlf_newline, run_char_cons, hr]
    rfl
  inside l r ht := by
    rw [middle, run_char_cons, run_char_cons, hn, if_pos rfl, if_pos rfl,
      ← crlf_concat_newline]
    exact h (l ++ ['\n']) r (by rw [ht, List.append_assoc]; rfl)

theorem Spanning.char_wide (h : Spanning loose t k k') (hn : f '\n' = true) (hr : f '\r' = true) :
    Wide loose t ((Pattern.char f).run k) ((Pattern.char f).run k') where
  aligned := by
    apply Aligned.of_plain
    · exact fun l r ht hhead => h.aligned.char_plain f ht hhead
    · intro l r ht
      rw [crlf_newline, run_char_cons, run_char_cons, hn, hr, if_pos rfl, if_pos rfl]
      exact h.spans l r ht
  inside l r ht := by
    rw [middle, run_char_cons, run_char_cons, hn, if_pos rfl, if_pos rfl,
      ← crlf_concat_newline]
    exact h.aligned (l ++ ['\n']) r (by rw [ht, List.append_assoc]; rfl)

theorem isSome_run_many {x : Place} (h : (k x).isSome = true) (p : Pattern γ) :
    ((Pattern.many p).run k x).isSome = true := by
  rw [Pattern.run, rounds, Option.isSome_or, h, Bool.or_true]

theorem isSome_run_manyLazy {x : Place} (h : (k x).isSome = true) (p : Pattern γ) :
    ((Pattern.manyLazy p).run k x).isSome = true := by
  rw [Pattern.run, rounds, Option.isSome_or, h, Bool.true_or]

theorem same_or {a b b' : Option (Match γ)} (h : Same loose t a b) (hb : a = none → b' = none) :
    Same loose t a (b.or b') := by
  cases h with
  | some hs => exact .some hs
  | none =>
    rw [Option.none_or, hb rfl]
    exact .none

theorem aligned_many_char
    (hplain : ∀ l r, t = l ++ r → r.head? ≠ some '\n' →
      Same loose t (k (.between l r)) (k' (.between (crlf l) (crlf r))))
    (hnewline : ∀ l r, t = l ++ '\n' :: r →
      Same loose t ((Pattern.many (.char f)).run k (.between (l ++ ['\n']) r))
        ((Pattern.many (.char f)).run k' (.between (crlf (l ++ ['\n'])) (crlf r))) →
      Same loose t ((Pattern.many (.char f)).run k (.between l ('\n' :: r)))
        ((Pattern.many (.char f)).run k' (.between (crlf l) (crlf ('\n' :: r))))) :
    Aligned loose t ((Pattern.many (.char f)).run k) ((Pattern.many (.char f)).run k') := by
  intro l r ht
  induction r generalizing l with
  | nil =>
    rw [run_many_char_nil, crlf, run_many_char_nil]
    exact hplain l [] ht (Option.some_ne_none _).symm
  | cons c r ih =>
    have ih := ih (l ++ [c]) (by rw [ht, List.append_assoc]; rfl)
    by_cases hc : c = '\n'
    · subst c
      exact hnewline l r ht ih
    · rw [crlf_cons hc, run_many_char_cons, run_many_char_cons, ← crlf_concat hc, ← crlf_cons hc]
      apply rel_or
      · split
        · exact ih
        · exact .none
      · exact hplain l (c :: r) ht fun he => hc (Option.some.inj he)

theorem run_many_char_inside (hn : f '\n' = true) (k : Place → Option (Match γ)) (l r : List Char) :
    (Pattern.many (.char f)).run k (middle l r) =
      ((Pattern.many (.char f)).run k (.between (crlf (l ++ ['\n'])) (crlf r))).or
        (k (middle l r)) := by
  rw [middle, run_many_char_cons, hn, if_pos rfl, ← crlf_concat_newline]

theorem run_many_char_inside_of_false (hn : f '\n' = false) (k : Place → Option (Match γ))
    (l r : List Char) : (Pattern.many (.char f)).run k (middle l r) = k (middle l r) := by
  rw [middle, run_many_char_cons, hn, if_neg Bool.false_ne_true, Option.none_or]

theorem run_many_char_crlf (hr : f '\r' = true) (k : Place → Option (Match γ)) (l r : List Char) :
    (Pattern.many (.char f)).run k (.between (crlf l) (crlf ('\n' :: r))) =
      ((Pattern.many (.char f)).run k (middle l r)).or
        (k (.between (crlf l) (crlf ('\n' :: r)))) := by
  rw [crlf_newline, run_many_char_cons, hr, if_pos rfl, middle]

theorem Agreeing.middle_eq_none_of_many (h : Agreeing loose t k k') (ht : t = l ++ '\n' :: r)
    (p : Pattern γ) (hnone : (Pattern.many p).run k (.between (l ++ ['\n']) r) = none) :
    k' (middle l r) = none := by
  apply h.middle_eq_none ht
  by_contra hk
  have hs := isSome_run_many (h.behind l r ht (Option.isSome_iff_ne_none.mpr hk)) p
  rw [hnone] at hs
  cases hs

theorem Agreeing.many_spanning (h : Agreeing loose t k k') (hn : f '\n' = true)
    (hr : f '\r' = true) :
    Spanning loose t ((Pattern.many (.char f)).run k) ((Pattern.many (.char f)).run k') := by
  have hspans (l r : List Char) (ht : t = l ++ '\n' :: r)
      (hrest : Same loose t ((Pattern.many (.char f)).run k (.between (l ++ ['\n']) r))
        ((Pattern.many (.char f)).run k' (.between (crlf (l ++ ['\n'])) (crlf r)))) :
      Same loose t ((Pattern.many (.char f)).run k (.between (l ++ ['\n']) r))
        ((Pattern.many (.char f)).run k' (middle l r)) := by
    rw [run_many_char_inside hn]
    exact same_or hrest fun hnone => h.middle_eq_none_of_many ht _ hnone
  have haligned : Aligned loose t ((Pattern.many (.char f)).run k)
      ((Pattern.many (.char f)).run k') := by
    apply aligned_many_char fun l r ht _ => h.aligned l r ht
    intro l r ht hrest
    rw [run_many_char_crlf hr, run_many_char_cons, hn, if_pos rfl]
    exact rel_or (hspans l r ht hrest) (h.aligned l ('\n' :: r) ht)
  have hnext {l r : List Char} (ht : t = l ++ '\n' :: r) : t = l ++ ['\n'] ++ r := by
    rw [ht, List.append_assoc]
    rfl
  refine ⟨⟨haligned, ?_, ?_⟩, fun l r ht => hspans l r ht (haligned _ _ (hnext ht))⟩
  · intro l r ht
    rw [run_many_char_inside hn, run_many_char_cons, hn, if_pos rfl, Option.isSome_or,
      Option.isSome_or, h.inside l r ht, isSome_eq_of_rel (haligned _ _ (hnext ht))]
  · intro l r ht hs
    rw [run_many_char_cons, hn, if_pos rfl, Option.isSome_or, Bool.or_eq_true] at hs
    rcases hs with hs | hs
    · exact hs
    · exact isSome_run_many (h.behind l r ht hs) _

theorem Wide.many_aligned (h : Wide loose t k k') (hn : f '\n' = true) (hr : f '\r' = true) :
    Aligned loose t ((Pattern.many (.char f)).run k) ((Pattern.many (.char f)).run k') := by
  apply aligned_many_char fun l r ht _ => h.aligned l r ht
  intro l r ht hrest
  rw [run_many_char_crlf hr, run_many_char_inside hn, run_many_char_cons, hn, if_pos rfl,
    Option.or_assoc]
  apply rel_or hrest
  apply same_or (h.inside l r ht)
  intro hnone
  have haligned := h.aligned l ('\n' :: r) ht
  rw [hnone] at haligned
  exact eq_none_of_rel haligned

theorem Breaking.many_aligned (h : Breaking loose t k k') (hn : f '\n' = false)
    (hr : f '\r' = true) :
    Aligned loose t ((Pattern.many (.char f)).run k) ((Pattern.many (.char f)).run k') := by
  apply aligned_many_char h.plain
  intro l r ht _
  rw [run_many_char_crlf hr, run_many_char_inside_of_false hn, h.newline l r ht, Option.or_none,
    run_many_char_cons, hn, if_neg Bool.false_ne_true, Option.none_or]
  exact h.inside l r ht

theorem Inked.many (h : Inked loose t k k') (hn : f '\n' = false) :
    Inked loose t ((Pattern.many (.char f)).run k) ((Pattern.many (.char f)).run k') := by
  have hinside (l r : List Char) (ht : t = l ++ '\n' :: r) :
      (Pattern.many (.char f)).run k' (middle l r) = none := by
    rw [run_many_char_inside_of_false hn, h.inside l r ht]
  have hnewline (l r : List Char) (ht : t = l ++ '\n' :: r) :
      (Pattern.many (.char f)).run k (.between l ('\n' :: r)) = none := by
    rw [run_many_char_cons, hn, if_neg Bool.false_ne_true, Option.none_or, h.newline l r ht]
  refine ⟨?_, hnewline, hinside⟩
  apply aligned_many_char fun l r ht _ => h.aligned l r ht
  intro l r ht _
  have haligned := h.aligned l ('\n' :: r) ht
  rw [h.newline l r ht] at haligned
  have hcrlf : (Pattern.many (.char f)).run k' (.between (crlf l) (crlf ('\n' :: r))) = none := by
    cases hr : f '\r' with
    | true => rw [run_many_char_crlf hr, hinside l r ht, Option.none_or, eq_none_of_rel haligned]
    | false =>
      rw [crlf_newline] at haligned ⊢
      rw [run_many_char_cons, hr, if_neg Bool.false_ne_true, Option.none_or,
        eq_none_of_rel haligned]
  rw [hnewline l r ht, hcrlf]
  exact .none

theorem Aligned.many (h : Aligned loose t k k') (hn : f '\n' = false) (hr : f '\r' = false) :
    Aligned loose t ((Pattern.many (.char f)).run k) ((Pattern.many (.char f)).run k') := by
  apply aligned_many_char fun l r ht _ => h l r ht
  intro l r ht _
  have haligned := h l ('\n' :: r) ht
  rw [crlf_newline] at haligned ⊢
  rwa [run_many_char_cons, run_many_char_cons, hn, hr, if_neg Bool.false_ne_true, Option.none_or,
    if_neg Bool.false_ne_true, Option.none_or]

theorem Agreeing.many (h : Agreeing loose t k k') (hn : f '\n' = false) (hr : f '\r' = false) :
    Agreeing loose t ((Pattern.many (.char f)).run k) ((Pattern.many (.char f)).run k') := by
  have hnewline (l r : List Char) :
      (Pattern.many (.char f)).run k (.between l ('\n' :: r)) = k (.between l ('\n' :: r)) := by
    rw [run_many_char_cons, hn, if_neg Bool.false_ne_true, Option.none_or]
  refine ⟨h.aligned.many hn hr, ?_, ?_⟩
  · intro l r ht
    rw [run_many_char_inside_of_false hn, hnewline, h.inside l r ht]
  · intro l r ht hs
    rw [hnewline] at hs
    exact isSome_run_many (h.behind l r ht hs) _

theorem Agreeing.manyLazy (h : Agreeing loose t k k') (hn : f '\n' = true) (hr : f '\r' = true) :
    Agreeing loose t ((Pattern.manyLazy (.char f)).run k)
      ((Pattern.manyLazy (.char f)).run k') := by
  have hinside (l r : List Char) : (Pattern.manyLazy (.char f)).run k' (middle l r) =
      (k' (middle l r)).or
        ((Pattern.manyLazy (.char f)).run k' (.between (crlf (l ++ ['\n'])) (crlf r))) := by
    rw [middle, run_manyLazy_char_cons, hn, if_pos rfl, ← crlf_concat_newline]
  have hnewline (l r : List Char) : (Pattern.manyLazy (.char f)).run k (.between l ('\n' :: r)) =
      (k (.between l ('\n' :: r))).or
        ((Pattern.manyLazy (.char f)).run k (.between (l ++ ['\n']) r)) := by
    rw [run_manyLazy_char_cons, hn, if_pos rfl]
  have haligned : Aligned loose t ((Pattern.manyLazy (.char f)).run k)
      ((Pattern.manyLazy (.char f)).run k') := by
    intro l r ht
    induction r generalizing l with
    | nil =>
      rw [run_manyLazy_char_nil, crlf, run_manyLazy_char_nil]
      exact h.aligned l [] ht
    | cons c r ih =>
      have ih := ih (l ++ [c]) (by rw [ht, List.append_assoc]; rfl)
      by_cases hc : c = '\n'
      · subst c
        have hfront := h.aligned l ('\n' :: r) ht
        rw [hnewline]
        rw [crlf_newline] at hfront ⊢
        rw [run_manyLazy_char_cons, hr, if_pos rfl, ← middle, hinside]
        cases hk : k (.between l ('\n' :: r)) with
        | none =>
          rw [hk] at hfront
          rw [eq_none_of_rel hfront, h.middle_eq_none ht hk]
          exact ih
        | some s =>
          rw [hk] at hfront
          obtain ⟨s', hs', hss⟩ := exists_of_rel hfront
          rw [hs']
          exact .some hss
      · rw [crlf_cons hc, run_manyLazy_char_cons, run_manyLazy_char_cons, ← crlf_concat hc,
          ← crlf_cons hc]
        apply rel_or (h.aligned l (c :: r) ht)
        split
        · exact ih
        · exact .none
  refine ⟨haligned, ?_, ?_⟩
  · intro l r ht
    have hrest := haligned (l ++ ['\n']) r (by rw [ht, List.append_assoc]; rfl)
    rw [hinside, hnewline, Option.isSome_or, Option.isSome_or, h.inside l r ht,
      isSome_eq_of_rel hrest]
  · intro l r ht hs
    rw [hnewline, Option.isSome_or, Bool.or_eq_true] at hs
    rcases hs with hs | hs
    · exact isSome_run_manyLazy (h.behind l r ht hs) _
    · exact hs

section Rounds

variable {l₂ r₂ : List Char}

theorem length_crlf_lt_iff (h : l ++ r = l₂ ++ r₂) :
    (crlf r₂).length < (crlf r).length ↔ r₂.length < r.length := by
  rcases List.append_eq_append_iff.mp h with ⟨m, _, rfl⟩ | ⟨m, _, rfl⟩
  · have hle := length_le_length_crlf m
    rw [crlf_append, List.length_append, List.length_append]
    cases m with
    | nil => simp [crlf]
    | cons c m =>
      rw [List.length_cons] at hle ⊢
      omega
  · rw [crlf_append, List.length_append, List.length_append]
    omega

theorem length_middle_lt_iff (h : l ++ r = l₂ ++ '\n' :: r₂) (hr : r.head? ≠ some '\n') :
    ('\n' :: crlf r₂).length < (crlf r).length ↔ ('\n' :: r₂).length < r.length := by
  have hlt := length_crlf_lt_iff h
  rw [crlf_newline] at hlt
  simp only [List.length_cons] at hlt ⊢
  rcases List.append_eq_append_iff.mp h with ⟨m, _, rfl⟩ | ⟨m, _, hm⟩
  · cases m with
    | nil => exact absurd rfl hr
    | cons c m =>
      have hle := length_le_length_crlf (c :: m)
      simp only [crlf_append, crlf_newline, List.length_append, List.length_cons] at hle hlt ⊢
      omega
  · cases m with
    | nil => exact absurd (congrArg List.head? hm.symm) hr
    | cons c m =>
      obtain rfl : r₂ = m ++ r := (List.cons.inj hm).2
      simp only [crlf_append, List.length_append]
      omega

end Rounds

theorem rejects_of_inked (h : Inked loose t (p.run accept) (p.run accept))
    (ht : t = l ++ '\n' :: r) :
    p.Rejects l ('\n' :: r) ∧ p.Rejects (crlf l) (crlf ('\n' :: r)) ∧
      p.Rejects (crlf l ++ ['\r']) ('\n' :: crlf r) := by
  have hrejects {l r : List Char} (hnone : p.run accept (.between l r) = none) : p.Rejects l r :=
    foundAt?_eq_none_iff.mp (by rw [foundAt?, hnone, Option.map_none])
  have haligned := h.aligned l ('\n' :: r) ht
  rw [h.newline l r ht] at haligned
  exact ⟨hrejects (h.newline l r ht), hrejects (eq_none_of_rel haligned),
    hrejects (h.inside l r ht)⟩

theorem run_many_of_rejects {l r : List Char} (h : p.Rejects l r) :
    (Pattern.many p).run k (.between l r) = k (.between l r) := by
  rw [Pattern.run, rounds, h.run_eq_none, Option.none_or]

theorem Agreeing.rounds (hp : ∀ {k k'}, Agreeing loose t k k' → Inked loose t (p.run k) (p.run k'))
    (h : Agreeing loose t k k') :
    Agreeing loose t ((Pattern.many p).run k) ((Pattern.many p).run k') := by
  have hinside (l r : List Char) (ht : t = l ++ '\n' :: r) :
      ((Pattern.many p).run k' (middle l r)).isSome =
        ((Pattern.many p).run k (.between l ('\n' :: r))).isSome := by
    obtain ⟨hnewline, _, hmiddle⟩ := rejects_of_inked (hp agreeing_accept) ht
    rw [middle, run_many_of_rejects hmiddle, run_many_of_rejects hnewline]
    exact h.inside l r ht
  have hbehind (l r : List Char) (ht : t = l ++ '\n' :: r)
      (hs : ((Pattern.many p).run k (.between l ('\n' :: r))).isSome = true) :
      ((Pattern.many p).run k (.between (l ++ ['\n']) r)).isSome = true := by
    rw [run_many_of_rejects (rejects_of_inked (hp agreeing_accept) ht).1] at hs
    exact isSome_run_many (h.behind l r ht hs) p
  refine ⟨?_, hinside, hbehind⟩
  intro l r ht
  induction hlen : r.length using Nat.strongRecOn generalizing l r with
  | ind N ih =>
    subst hlen
    by_cases hr : r.head? = some '\n'
    · cases r with
      | nil => cases hr
      | cons c r =>
        cases hr
        obtain ⟨hnewline, hcrlf, _⟩ := rejects_of_inked (hp agreeing_accept) ht
        rw [run_many_of_rejects hnewline, run_many_of_rejects hcrlf]
        exact h.aligned l ('\n' :: r) ht
    · rw [Pattern.run, Pattern.run, Pattern.rounds, Pattern.rounds]
      refine rel_or ((hp ⟨?_, ?_, ?_⟩).aligned l r ht) (h.aligned l r ht)
      · intro l₂ r₂ ht₂
        have hiff := length_crlf_lt_iff (ht.symm.trans ht₂)
        by_cases hlt : r₂.length < r.length
        · simp only [Place.between_rest, hlt, hiff.mpr hlt, ↓reduceDIte]
          exact ih r₂.length hlt l₂ r₂ ht₂ rfl
        · simp only [Place.between_rest, hlt, mt hiff.mp hlt, ↓reduceDIte]
          exact .none
      · intro l₂ r₂ ht₂
        have hiff := length_middle_lt_iff (ht.symm.trans ht₂) hr
        by_cases hlt : ('\n' :: r₂).length < r.length
        · simp only [middle, Place.between_rest, hlt, hiff.mpr hlt, ↓reduceDIte]
          exact hinside l₂ r₂ ht₂
        · simp only [middle, Place.between_rest, hlt, mt hiff.mp hlt, ↓reduceDIte]
      · intro l₂ r₂ ht₂ hs
        by_cases hlt : ('\n' :: r₂).length < r.length
        · have hlt₂ : r₂.length < r.length := Nat.lt_of_succ_lt hlt
          simp only [Place.between_rest, hlt, ↓reduceDIte] at hs
          simp only [Place.between_rest, hlt₂, ↓reduceDIte]
          exact hbehind l₂ r₂ ht₂ hs
        · simp only [Place.between_rest, hlt, ↓reduceDIte] at hs
          cases hs

theorem Inked.rounds (hp : ∀ {k k'}, Agreeing loose t k k' → Inked loose t (p.run k) (p.run k'))
    (h : Inked loose t k k') :
    Inked loose t ((Pattern.many p).run k) ((Pattern.many p).run k') where
  aligned := (h.agreeing.rounds hp).aligned
  newline l r ht := by
    rw [run_many_of_rejects (rejects_of_inked (hp agreeing_accept) ht).1, h.newline l r ht]
  inside l r ht := by
    rw [middle, run_many_of_rejects (rejects_of_inked (hp agreeing_accept) ht).2.2]
    exact h.inside l r ht

theorem Aligned.mark (h : Aligned loose t k k') (m : Mark γ) :
    Aligned loose t ((Pattern.mark m).run k) ((Pattern.mark m).run k') := by
  intro l r ht
  exact rel_map (h l r ht) fun s s' hs => hs.record (.inl (Change.carries_between ht))

theorem Agreeing.mark (h : Agreeing loose t k k') (m : Mark γ) :
    Agreeing loose t ((Pattern.mark m).run k) ((Pattern.mark m).run k') where
  aligned := h.aligned.mark m
  inside l r ht := by
    simp only [Pattern.run, Option.isSome_map]
    exact h.inside l r ht
  behind l r ht := by
    simp only [Pattern.run, Option.isSome_map]
    exact h.behind l r ht

theorem Inked.mark (h : Inked loose t k k') (m : Mark γ) :
    Inked loose t ((Pattern.mark m).run k) ((Pattern.mark m).run k') where
  aligned := h.aligned.mark m
  newline l r ht := by rw [Pattern.run, h.newline l r ht, Option.map_none]
  inside l r ht := by rw [Pattern.run, h.inside l r ht, Option.map_none]

theorem Wide.mark {m : Mark γ} (h : Wide loose t k k') (hm : loose m = true) :
    Wide loose t ((Pattern.mark m).run k) ((Pattern.mark m).run k') where
  aligned := h.aligned.mark m
  inside l r ht :=
    rel_map (h.inside l r ht) fun _ _ hs => hs.record (.inr ⟨hm, l, r, ht, rfl, rfl⟩)

theorem holds_crlf (a : Anchor) (l r : List Char) :
    a.holds (.between (crlf l) (crlf r)) = a.holds (.between l r) := by
  cases a with
  | lineStart => simp only [Anchor.holds, Place.between_before, getLast?_crlf]
  | wordEdge =>
    simp only [Anchor.holds, Place.between_before, Place.between_after, getLast?_crlf]
    rw [any_head?_crlf rfl]

theorem Inked.anchor (h : Inked loose t k k') (a : Anchor) :
    Inked loose t ((Pattern.anchor a).run k) ((Pattern.anchor a).run k') where
  aligned l r ht := by
    simp only [Pattern.run, holds_crlf]
    split
    · exact h.aligned l r ht
    · exact .none
  newline l r ht := by rw [Pattern.run, h.newline l r ht, ite_self]
  inside l r ht := by rw [Pattern.run, h.inside l r ht, ite_self]

section Alternatives

variable {j j' : Place → Option (Match γ)}

theorem Aligned.or (h : Aligned loose t k k') (h₂ : Aligned loose t j j') :
    Aligned loose t (fun x => (k x).or (j x)) (fun x => (k' x).or (j' x)) :=
  fun l r ht => rel_or (h l r ht) (h₂ l r ht)

theorem Agreeing.or (h : Agreeing loose t k k') (h₂ : Agreeing loose t j j') :
    Agreeing loose t (fun x => (k x).or (j x)) (fun x => (k' x).or (j' x)) where
  aligned := h.aligned.or h₂.aligned
  inside l r ht := by rw [Option.isSome_or, Option.isSome_or, h.inside l r ht, h₂.inside l r ht]
  behind l r ht hs := by
    rw [Option.isSome_or, Bool.or_eq_true] at hs ⊢
    exact hs.imp (h.behind l r ht) (h₂.behind l r ht)

theorem Inked.or (h : Inked loose t k k') (h₂ : Inked loose t j j') :
    Inked loose t (fun x => (k x).or (j x)) (fun x => (k' x).or (j' x)) where
  aligned := h.aligned.or h₂.aligned
  newline l r ht := by rw [h.newline l r ht, h₂.newline l r ht, Option.none_or]
  inside l r ht := by rw [h.inside l r ht, h₂.inside l r ht, Option.none_or]

end Alternatives

end LineEnd

end RefDoc
