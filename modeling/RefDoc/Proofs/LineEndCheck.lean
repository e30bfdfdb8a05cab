import RefDoc.Proofs.LineEnd

namespace RefDoc

open Text Pattern

namespace LineEnd

variable {γ : Type} {loose : Mark γ → Bool} {t l r : List Char} {k k' : Place → Option (Match γ)}

/-- How well what follows a pattern corresponds in the two texts. -/
inductive Grade where
  | aligned
  | agreeing
  | spanning
  | inked
  | wide
  | breaking
deriving DecidableEq

namespace Grade

def Holds (loose : Mark γ → Bool) (t : List Char) (k k' : Place → Option (Match γ)) : Grade → Prop
  | .aligned => Aligned loose t k k'
  | .agreeing => Agreeing loose t k k'
  | .spanning => Spanning loose t k k'
  | .inked => Inked loose t k k'
  | .wide => Wide loose t k k'
  | .breaking => Breaking loose t k k'

def isAligned : Grade → Bool
  | .breaking => false
  | _ => true

def isAgreeing : Grade → Bool
  | .agreeing | .spanning | .inked => true
  | _ => false

theorem Holds.aligned {c : Grade} (h : c.Holds loose t k k') (hc : c.isAligned = true) :
    Aligned loose t k k' := by
  cases c with
  | aligned => exact h
  | agreeing => exact Agreeing.aligned h
  | spanning => exact (Spanning.toAgreeing h).aligned
  | inked => exact Inked.aligned h
  | wide => exact Wide.aligned h
  | breaking => cases hc

theorem Holds.agreeing {c : Grade} (h : c.Holds loose t k k') (hc : c.isAgreeing = true) :
    Agreeing loose t k k' := by
  cases c with
  | agreeing => exact h
  | spanning => exact Spanning.toAgreeing h
  | inked => exact Inked.agreeing h
  | aligned => cases hc
  | wide => cases hc
  | breaking => cases hc

def both (c d : Grade) : Option Grade :=
  if c = .inked ∧ d = .inked then some .inked
  else if c.isAgreeing && d.isAgreeing then some .agreeing
  else if c.isAligned && d.isAligned then some .aligned
  else none

def ofChar (f : Char → Bool) (c : Grade) : Option Grade :=
  match f '\n', f '\r' with
  | false, false => if c.isAligned then some .inked else none
  | true, false => if c.isAligned then some .breaking else none
  | true, true => if c = .spanning then some .wide else none
  | false, true => none

def ofMany (f : Char → Bool) (c : Grade) : Option Grade :=
  match f '\n', f '\r' with
  | true, true =>
    if c = .wide then some .aligned else if c.isAgreeing then some .spanning else none
  | false, true =>
    if c = .inked then some .inked else if c = .breaking then some .aligned else none
  | false, false =>
    if c = .inked then some .inked else if c.isAgreeing then some .agreeing
    else if c.isAligned then some .aligned else none
  | true, false => none

def ofManyLazy (f : Char → Bool) (c : Grade) : Option Grade :=
  if f '\n' && f '\r' && c.isAgreeing then some .agreeing else none

def ofMark (loose : Bool) (c : Grade) : Option Grade :=
  if c = .inked then some .inked
  else if c = .wide ∧ loose then some .wide
  else if c.isAgreeing then some .agreeing
  else if c.isAligned then some .aligned
  else none

end Grade

def charTest? : Pattern γ → Option (Char → Bool)
  | .char f => some f
  | _ => none

/-- The grade of a pattern in front of what has the grade `c`. -/
def grade? (loose : Mark γ → Bool) : Pattern γ → Grade → Option Grade
  | .empty, c => some c
  | .char f, c => c.ofChar f
  | .anchor _, c => if c = .inked then some .inked else none
  | .mark m, c => c.ofMark (loose m)
  | .seq p q, c => (grade? loose q c).bind (grade? loose p)
  | .alt p q, c => (grade? loose p c).bind fun a => (grade? loose q c).bind a.both
  | .many p, c =>
    match charTest? p with
    | some f => c.ofMany f
    | none =>
      if grade? loose p .agreeing = some .inked then
        if c = .inked then some .inked else if c.isAgreeing then some .agreeing else none
      else none
  | .manyLazy p, c => (charTest? p).bind c.ofManyLazy

namespace Grade.Holds

variable {c d : Grade} {f : Char → Bool} {p q : Pattern γ}

theorem ofChar (h : c.Holds loose t k k') (hd : c.ofChar f = some d) :
    d.Holds loose t ((Pattern.char f).run k) ((Pattern.char f).run k') := by
  cases hn : f '\n' with
  | false =>
    cases hr : f '\r' with
    | false =>
      simp only [Grade.ofChar, hn, hr, Option.ite_none_right_eq_some, Option.some.injEq] at hd
      obtain ⟨hc, rfl⟩ := hd
      exact (h.aligned hc).char_inked hn hr
    | true =>
      simp only [Grade.ofChar, hn, hr] at hd
      cases hd
  | true =>
    cases hr : f '\r' with
    | false =>
      simp only [Grade.ofChar, hn, hr, Option.ite_none_right_eq_some, Option.some.injEq] at hd
      obtain ⟨hc, rfl⟩ := hd
      exact (h.aligned hc).char_breaking hn hr
    | true =>
      simp only [Grade.ofChar, hn, hr, Option.ite_none_right_eq_some, Option.some.injEq] at hd
      obtain ⟨rfl, rfl⟩ := hd
      exact Spanning.char_wide h hn hr

theorem ofMany (h : c.Holds loose t k k') (hd : c.ofMany f = some d) :
    d.Holds loose t ((Pattern.many (.char f)).run k) ((Pattern.many (.char f)).run k') := by
  cases hn : f '\n' with
  | false =>
    cases hr : f '\r' with
    | false =>
      simp only [Grade.ofMany, hn, hr] at hd
      split at hd
      · next hc =>
        subst hc
        cases hd
        exact Inked.many h hn
      · split at hd
        · next hc =>
          cases hd
          exact (h.agreeing hc).many hn hr
        · simp only [Option.ite_none_right_eq_some, Option.some.injEq] at hd
          obtain ⟨hc, rfl⟩ := hd
          exact (h.aligned hc).many hn hr
    | true =>
      simp only [Grade.ofMany, hn, hr] at hd
      split at hd
      · next hc =>
        subst hc
        cases hd
        exact Inked.many h hn
      · simp only [Option.ite_none_right_eq_some, Option.some.injEq] at hd
        obtain ⟨rfl, rfl⟩ := hd
        exact Breaking.many_aligned h hn hr
  | true =>
    cases hr : f '\r' with
    | false =>
      simp only [Grade.ofMany, hn, hr] at hd
      cases hd
    | true =>
      simp only [Grade.ofMany, hn, hr] at hd
      split at hd
      · next hc =>
        subst hc
        cases hd
        exact Wide.many_aligned h hn hr
      · simp only [Option.ite_none_right_eq_some, Option.some.injEq] at hd
        obtain ⟨hc, rfl⟩ := hd
        exact (h.agreeing hc).many_spanning hn hr

theorem ofManyLazy (h : c.Holds loose t k k') (hd : c.ofManyLazy f = some d) :
    d.Holds loose t ((Pattern.manyLazy (.char f)).run k) ((Pattern.manyLazy (.char f)).run k') := by
  simp only [Grade.ofManyLazy, Option.ite_none_right_eq_some, Option.some.injEq,
    Bool.and_eq_true] at hd
  obtain ⟨⟨⟨hn, hr⟩, hc⟩, rfl⟩ := hd
  exact (h.agreeing hc).manyLazy hn hr

theorem ofMark {m : Mark γ} (h : c.Holds loose t k k') (hd : c.ofMark (loose m) = some d) :
    d.Holds loose t ((Pattern.mark m).run k) ((Pattern.mark m).run k') := by
  simp only [Grade.ofMark] at hd
  split at hd
  · next hc =>
    subst hc
    cases hd
    exact Inked.mark h m
  · split at hd
    · next hc =>
      obtain ⟨rfl, hm⟩ := hc
      cases hd
      exact Wide.mark h hm
    · split at hd
      · next hc =>
        cases hd
        exact (h.agreeing hc).mark m
      · simp only [Option.ite_none_right_eq_some, Option.some.injEq] at hd
        obtain ⟨hc, rfl⟩ := hd
        exact (h.aligned hc).mark m

theorem both {a b : Grade} {j j' : Place → Option (Match γ)} (ha : a.Holds loose t k k')
    (hb : b.Holds loose t j j') (hd : a.both b = some d) :
    d.Holds loose t (fun x => (k x).or (j x)) (fun x => (k' x).or (j' x)) := by
  simp only [Grade.both] at hd
  split at hd
  · next hc =>
    obtain ⟨rfl, rfl⟩ := hc
    cases hd
    exact Inked.or ha hb
  · split at hd
    · next hc =>
      obtain ⟨hca, hcb⟩ := Bool.and_eq_true_iff.mp hc
      cases hd
      exact (ha.agreeing hca).or (hb.agreeing hcb)
    · simp only [Option.ite_none_right_eq_some, Option.some.injEq, Bool.and_eq_true] at hd
      obtain ⟨⟨hca, hcb⟩, rfl⟩ := hd
      exact (ha.aligned hca).or (hb.aligned hcb)

theorem rounds
    (hp : ∀ {k k'}, Agreeing loose t k k' → Inked loose t (p.run k) (p.run k'))
    (h : c.Holds loose t k k')
    (hd : (if c = .inked then some .inked else if c.isAgreeing then some .agreeing else none) =
      some d) :
    d.Holds loose t ((Pattern.many p).run k) ((Pattern.many p).run k') := by
  split at hd
  · next hc =>
    subst hc
    cases hd
    exact Inked.rounds hp h
  · simp only [Option.ite_none_right_eq_some, Option.some.injEq] at hd
    obtain ⟨hc, rfl⟩ := hd
    exact (h.agreeing hc).rounds hp

end Grade.Holds

theorem eq_char_of_charTest? {p : Pattern γ} {f : Char → Bool} (h : charTest? p = some f) :
    p = .char f := by
  cases p with
  | char g => exact congrArg Pattern.char (Option.some.inj h)
  | _ => cases h

/-- The check is sound: what it says of a pattern in front of what follows holds. -/
theorem holds_of_grade? {p : Pattern γ} {c d : Grade} (hd : grade? loose p c = some d)
    (h : c.Holds loose t k k') : d.Holds loose t (p.run k) (p.run k') := by
  induction p generalizing c d k k' with
  | empty =>
    cases hd
    exact h
  | char f => exact h.ofChar hd
  | anchor a =>
    simp only [grade?, Option.ite_none_right_eq_some, Option.some.injEq] at hd
    obtain ⟨rfl, rfl⟩ := hd
    exact Inked.anchor h a
  | mark m => exact h.ofMark hd
  | seq p q ihp ihq =>
    obtain ⟨a, ha, hd⟩ := Option.bind_eq_some_iff.mp hd
    exact ihp hd (ihq ha h)
  | alt p q ihp ihq =>
    obtain ⟨a, ha, hd⟩ := Option.bind_eq_some_iff.mp hd
    obtain ⟨b, hb, hd⟩ := Option.bind_eq_some_iff.mp hd
    exact (ihp ha h).both (ihq hb h) hd
  | many p ih =>
    rw [grade?] at hd
    split at hd
    · next f hf =>
      obtain rfl := eq_char_of_charTest? hf
      exact h.ofMany hd
    · split at hd
      · next hp => exact h.rounds (fun hk => ih hp (c := .agreeing) hk) hd
      · cases hd
  | manyLazy p ih =>
    obtain ⟨f, hf, hd⟩ := Option.bind_eq_some_iff.mp hd
    obtain rfl := eq_char_of_charTest? hf
    exact h.ofManyLazy hd

theorem grade?_sequence_append (ps qs : List (Pattern γ)) (c : Grade) :
    grade? loose (sequence (ps ++ qs)) c =
      (grade? loose (sequence qs) c).bind (grade? loose (sequence ps)) := by
  induction qs using List.reverseRecOn generalizing c with
  | nil =>
    rw [List.append_nil]
    rfl
  | append_singleton qs q ih =>
    rw [← List.append_assoc, sequence_concat, sequence_concat, grade?, grade?, Option.bind_assoc]
    exact congrArg _ (funext ih)

theorem grade?_charList {n : List Char} {c : Grade} (hne : n ≠ [])
    (hn : ∀ x ∈ n, x ≠ '\n' ∧ x ≠ '\r') (hc : c.isAligned = true) :
    grade? loose (charList n) c = some .inked := by
  induction n with
  | nil => exact absurd rfl hne
  | cons x n ih =>
    obtain ⟨⟨hnewline, hreturn⟩, hn⟩ := List.forall_mem_cons.mp hn
    have hx (d : Grade) (hd : d.isAligned = true) :
        grade? loose (sequence [.char (· == x)]) d = some .inked := by
      have hchar : d.ofChar (· == x) = some .inked := by
        simp [Grade.ofChar, beq_eq_false_iff_ne.mpr hnewline.symm,
          beq_eq_false_iff_ne.mpr hreturn.symm, hd]
      exact congrArg (Option.bind · _) hchar
    rw [charList, List.map_cons, ← List.singleton_append, grade?_sequence_append]
    cases n with
    | nil => exact hx c hc
    | cons y n =>
      have hrest : grade? loose (sequence ((y :: n).map fun c => .char (· == c))) c = some .inked :=
        ih (List.cons_ne_nil y n) hn
      rw [hrest]
      exact hx .inked rfl

theorem rejects_of_same {p : Pattern γ} {l r l' r' : List Char}
    (h : Same loose t (p.run accept (.between l r)) (p.run accept (.between l' r')))
    (hr : p.Rejects l r) : p.Rejects l' r' := by
  rw [hr.run_eq_none] at h
  apply foundAt?_eq_none_iff.mp
  rw [foundAt?, eq_none_of_rel h, Option.map_none]

/-- A pattern of which all places agree is found at corresponding places of both texts. -/
theorem Agreeing.forall₂_findAll {p : Pattern γ} (hp : ∀ l r, ¬p.Accepts l [] r)
    (h : Agreeing loose t (p.run accept) (p.run accept)) :
    List.Forall₂ (Found.Corresponds (Carries loose t) (Change.lineEnds.Carries t)) (p.findAll t)
      (p.findAll (crlf t)) := by
  rw [findAll_eq_findFrom, findAll_eq_findFrom]
  apply Pattern.forall₂_findFrom (e := .lineEnds) (l := []) hp _ _ _ rfl
  · intro l r ht
    exact rel_foundAt? (h.aligned l r ht) (Change.carries_between ht)
  · intro l c r ht hr
    have hfirst := rejects_of_same (h.aligned l (c :: r) ht) hr
    by_cases hc : c = '\n'
    · subst c
      have hsecond : p.Rejects (crlf l ++ ['\r']) ('\n' :: crlf r) := by
        apply foundAt?_eq_none_iff.mp
        rw [foundAt?, ← middle, h.middle_eq_none ht (hr.run_eq_none _), Option.map_none]
      change p.findFrom (crlf l) (crlf ('\n' :: r)) = p.findFrom (crlf (l ++ ['\n'])) (crlf r)
      rw [crlf_newline] at hfirst ⊢
      rw [findFrom_cons hfirst, findFrom_cons hsecond, crlf_concat_newline]
    · change p.findFrom (crlf l) (crlf (c :: r)) = p.findFrom (crlf (l ++ [c])) (crlf r)
      rw [crlf_cons hc] at hfirst ⊢
      rw [findFrom_cons hfirst, crlf_concat hc]
  · intro hr
    exact findFrom_nil (rejects_of_same (h.aligned t [] (List.append_nil t).symm) hr)

end LineEnd

end RefDoc
