import RefDoc.Proofs.Correspondence
import RefDoc.Proofs.FunctionRoundTrip
import RefDoc.Proofs.StructRoundTrip

namespace RefDoc

open Text Pattern DocComment Scan

variable {γ : Type} {p q : Pattern γ} {ps : List (Pattern γ)} {l r t v w : List Char}
  {k k' : Place → Option (Match γ)}

def Change.padding (w v : List Char) : Change where
  left l := w ++ l
  inner m := m
  right r := r ++ v
  left_append l m := (List.append_assoc w l m).symm
  right_append m r := List.append_assoc m r v

namespace Padding

/-- What follows a pattern finds the same at a place of the text `t` as at this place between `w`
and `v`. If there is a `v`, it finds nothing where only white space is left. -/
structure Agrees (w v t : List Char) (k k' : Place → Option (Match γ)) : Prop where
  carried : ∀ l r, t = l ++ r → Option.Rel
    (Match.Corresponds (fun _ => (Change.padding w v).Carries t) ((Change.padding w v).Carries t))
    (k (.between l r)) (k' (.between (w ++ l) (r ++ v)))
  blank : v ≠ [] → ∀ l r, Blank r → k' (.between l r) = none

theorem agrees_accept (w t : List Char) :
    Agrees w [] t (accept : Place → Option (Match γ)) accept where
  carried l r ht := by
    refine .some ⟨.nil, l, r, ht, rfl, ?_⟩
    rfl
  blank h := absurd rfl h

theorem holds_padded (hw : AtLineStart w) (hr : v = [] ∨ r ≠ []) (a : Anchor) :
    a.holds (.between (w ++ l) (r ++ v)) = a.holds (.between l r) := by
  have hafter : (r ++ v).head? = r.head? := by
    rcases hr with rfl | hr
    · rw [List.append_nil]
    · obtain ⟨c, r, rfl⟩ := List.exists_cons_of_ne_nil hr
      rfl
  by_cases hl : l = []
  · subst l
    rw [List.append_nil]
    cases a with
    | lineStart =>
      rw [Bool.eq_iff_iff, Anchor.holds_between, Anchor.holds_between]
      exact ⟨fun _ => .inl rfl, fun _ => hw⟩
    | wordEdge =>
      have hbefore : w.getLast?.any isWord = false := by
        rw [Option.any_eq_false]
        intro c hc
        rw [hw.endsOutsideWord c hc]
      simp only [Anchor.holds, Place.between_before, Place.between_after, hafter, hbefore]
      rfl
  · have hbefore : (w ++ l).getLast? = l.getLast? := List.getLast?_append_of_ne_nil w hl
    cases a with
    | lineStart => simp only [Anchor.holds, Place.between_before, hbefore]
    | wordEdge =>
      simp only [Anchor.holds, Place.between_before, Place.between_after, hbefore, hafter]

theorem run_blank (h : ∀ l r, Blank r → k (.between l r) = none) (p : Pattern γ) (hr : Blank r) :
    p.run k (.between l r) = none := by
  cases hs : p.run k (.between l r) with
  | none => rfl
  | some s =>
    obtain ⟨m, n, _, _, rfl, _, hk, _⟩ := followsReading_of_run p k l r s hs
    rw [h _ n fun c hc => hr c (List.mem_append_right m hc)] at hk
    cases hk

theorem Agrees.rounds {choose : Option (Match γ) → Option (Match γ) → Option (Match γ)}
    (hq : ∀ k, q.run k = Pattern.rounds p.run choose k)
    (hc : ∀ {P : Match γ → Match γ → Prop} {a b a' b'}, Option.Rel P a a' → Option.Rel P b b' →
      Option.Rel P (choose a b) (choose a' b'))
    (hp : ∀ {k k'}, Agrees w v t k k' → Agrees w v t (p.run k) (p.run k'))
    (h : Agrees w v t k k') : Agrees w v t (q.run k) (q.run k') where
  blank hne l r hr := run_blank (h.blank hne) q hr
  carried := by
    intro l r ht
    rw [hq, hq]
    induction hn : r.length using Nat.strongRecOn generalizing l r with
    | ind N ih =>
      subst hn
      rw [Pattern.rounds, Pattern.rounds]
      refine hc ((hp ⟨?_, ?_⟩).carried l r ht) (h.carried l r ht)
      · intro l' r' ht'
        by_cases hlt : r'.length < r.length
        · have hlt' : (r' ++ v).length < (r ++ v).length := by
            simp only [List.length_append]
            omega
          simp only [Place.between_rest, hlt, hlt', ↓reduceDIte]
          exact ih _ hlt l' r' ht' rfl
        · have hlt' : ¬(r' ++ v).length < (r ++ v).length := by
            simp only [List.length_append]
            omega
          simp only [Place.between_rest, hlt, hlt', ↓reduceDIte]
          exact .none
      · intro hne l' r' hr'
        have hnone := run_blank (h.blank hne) q (l := l') hr'
        rw [hq] at hnone
        simp only [hnone, dite_eq_ite, ite_self]

/-- Every pattern agrees with itself in front of what does. -/
theorem Agrees.run (hw : AtLineStart w) (hv : Blank v) (p : Pattern γ) (h : Agrees w v t k k') :
    Agrees w v t (p.run k) (p.run k') := by
  induction p generalizing k k' with
  | empty => exact h
  | char f =>
    refine ⟨?_, fun hne l r hr => run_blank (h.blank hne) _ hr⟩
    intro l r ht
    cases r with
    | nil =>
      have hnone : (Pattern.char f).run k' (.between (w ++ l) v) = none := by
        by_cases hne : v = []
        · subst v
          rfl
        · exact run_blank (h.blank hne) _ hv
      rw [List.nil_append, hnone]
      exact .none
    | cons c r =>
      simp only [Pattern.run, List.cons_append, Place.between_after, List.head?_cons,
        Option.any_some, Place.next?_cons, Option.bind_some]
      split
      · rw [List.append_assoc]
        exact h.carried (l ++ [c]) r (by rw [ht, List.append_assoc]; rfl)
      · exact .none
  | anchor a =>
    refine ⟨?_, fun hne l r hr => run_blank (h.blank hne) _ hr⟩
    intro l r ht
    by_cases hr : v = [] ∨ r ≠ []
    · simp only [Pattern.run, holds_padded hw hr]
      split
      · exact h.carried l r ht
      · exact .none
    · obtain ⟨hne, hr⟩ := not_or.mp hr
      obtain rfl := not_not.mp hr
      have hk := h.carried l [] ht
      rw [List.nil_append, run_blank (h.blank hne) _ hv]
      rw [List.nil_append, h.blank hne _ v hv] at hk
      simp only [Pattern.run]
      generalize k (.between l []) = a at hk
      cases hk
      rw [ite_self]
      exact .none
  | mark m =>
    refine ⟨?_, fun hne l r hr => run_blank (h.blank hne) _ hr⟩
    intro l r ht
    exact rel_map (h.carried l r ht) fun s s' hs => hs.record (Change.carries_between ht)
  | seq p q ihp ihq => exact ihp (ihq h)
  | alt p q ihp ihq =>
    refine ⟨?_, fun hne l r hr => run_blank (h.blank hne) _ hr⟩
    intro l r ht
    exact rel_or ((ihp h).carried l r ht) ((ihq h).carried l r ht)
  | many p ih => exact h.rounds (fun _ => rfl) rel_or ih
  | manyLazy p ih => exact h.rounds (fun _ => rfl) (fun ha hb => rel_or hb ha) ih

theorem agrees_char {f : Char → Bool} (hf : ∀ c, isBlank c = true → f c = false) (hv : Blank v) :
    Agrees w v t ((Pattern.char f : Pattern γ).run accept) ((Pattern.char f).run accept) := by
  have hblank (l r : List Char) (hr : Blank r) :
      (Pattern.char f : Pattern γ).run accept (.between l r) = none := by
    apply Rejects.run_eq_none
    apply rejects_char
    intro c hc
    exact hf c (hr c (List.mem_of_mem_head? hc))
  refine ⟨?_, fun _ => hblank⟩
  intro l r ht
  cases r with
  | nil =>
    rw [List.nil_append, hblank _ v hv]
    exact .none
  | cons c r =>
    simp only [Pattern.run, List.cons_append, Place.between_after, List.head?_cons,
      Option.any_some, Place.next?_cons, Option.bind_some]
    split
    · refine .some ⟨.nil, l ++ [c], r, by rw [ht, List.append_assoc]; rfl, rfl, ?_⟩
      simp only [Change.padding, List.append_assoc]
    · exact .none

theorem findFrom_of_blank (h : ∀ l r, Blank r → p.run accept (.between l r) = none) (hv : Blank v) :
    p.findFrom l v = [] := by
  have hrejects {l r : List Char} (hr : Blank r) : p.Rejects l r :=
    foundAt?_eq_none_iff.mp (by rw [foundAt?, h l r hr, Option.map_none])
  induction v generalizing l with
  | nil => exact findFrom_nil (hrejects hv)
  | cons c v ih =>
    rw [findFrom_cons (hrejects hv)]
    exact ih (List.forall_mem_cons.mp hv).2

theorem agrees_sequence (hw : AtLineStart w) (hv : Blank v) (hlast : ps.getLast? = some q)
    (hq : Agrees w v t (q.run accept) (q.run accept)) :
    Agrees w v t ((sequence ps).run accept) ((sequence ps).run accept) := by
  obtain ⟨qs, rfl⟩ := List.getLast?_eq_some_iff.mp hlast
  have hrun : (sequence (qs ++ [q])).run accept = (sequence qs).run (q.run accept) := by
    rw [sequence_concat]
    rfl
  rw [hrun]
  exact hq.run hw hv _

theorem forall₂_findFrom (hp : ∀ l r, ¬p.Accepts l [] r) (hv : Blank v)
    (h : Agrees w v t (p.run accept) (p.run accept)) (ht : t = l ++ r) :
    List.Forall₂ (Found.Corresponds (fun _ => (Change.padding w v).Carries t)
      ((Change.padding w v).Carries t)) (p.findFrom l r) (p.findFrom (w ++ l) (r ++ v)) := by
  have hfound (l r : List Char) (ht : t = l ++ r) : Option.Rel
      (Found.Corresponds (fun _ => (Change.padding w v).Carries t) ((Change.padding w v).Carries t))
      (p.foundAt? (.between l r)) (p.foundAt? (.between (w ++ l) (r ++ v))) :=
    rel_foundAt? (h.carried l r ht) (Change.carries_between ht)
  apply Pattern.forall₂_findFrom (e := .padding w v) hp hfound _ _ ht
  · intro l c r ht hr
    have hrel := hfound l (c :: r) ht
    rw [foundAt?_eq_none_iff.mpr hr] at hrel
    have hr' : p.Rejects (w ++ l) (c :: (r ++ v)) :=
      foundAt?_eq_none_iff.mp (eq_none_of_rel hrel)
    change p.findFrom (w ++ l) (c :: (r ++ v)) = p.findFrom (w ++ (l ++ [c])) (r ++ v)
    rw [findFrom_cons hr', List.append_assoc]
  · intro hr
    by_cases hne : v = []
    · subst v
      have hrel := hfound t [] (List.append_nil t).symm
      rw [foundAt?_eq_none_iff.mpr hr] at hrel
      exact findFrom_nil (foundAt?_eq_none_iff.mp (eq_none_of_rel hrel))
    · exact findFrom_of_blank (h.blank hne) hv

end Padding

theorem run_many_char_of_none {f : Char → Bool} {a b : List Char} (ha : ∀ c ∈ a, f c = true)
    (hb : Stops f b)
    (hk : ∀ x y, a = x ++ y → y ≠ [] → k (.between (l ++ x) (y ++ b)) = none) :
    (Pattern.many (.char f)).run k (.between l (a ++ b)) = k (.between (l ++ a) b) := by
  induction a generalizing l with
  | nil =>
    rw [List.nil_append, List.append_nil, Pattern.run, rounds, (rejects_char hb).run_eq_none,
      Option.none_or]
  | cons c a ih =>
    obtain ⟨hc, ha⟩ := List.forall_mem_cons.mp ha
    have hnone : k (.between l (c :: (a ++ b))) = none := by
      simpa only [List.append_nil, List.cons_append] using hk [] (c :: a) rfl (List.cons_ne_nil c a)
    rw [List.cons_append, run_many_char_cons, if_pos hc, hnone, Option.or_none, ih ha,
      List.append_assoc, List.singleton_append]
    intro x y hxy hy
    rw [List.append_assoc, List.singleton_append]
    exact hk (c :: x) y (by rw [hxy, List.cons_append]) hy

namespace Scan

variable {P : List Char → Prop} {g : γ} {a b : List Char}

theorem Opening.run_documented (h : Opening P ps) (ha : Blank a) (hb : Stops isBlank b)
    (hd : (docLine : Pattern γ).Rejects l (a ++ b)) :
    (documented g ps).run k (.between l (a ++ b)) =
      ((sequence ps).run k (.between (l ++ a) b)).map (·.behind (captured g l [] (a ++ b))) := by
  have hblanks : (Pattern.blanks : Pattern γ).run ((sequence ps).run k) (.between l (a ++ b)) =
      (sequence ps).run k (.between (l ++ a) b) := by
    apply run_many_char_of_none ha hb
    intro x y hxy hy
    apply (h.rejects _ _ _).run_eq_none
    intro hP
    obtain ⟨c, z, hz, hc, _⟩ := h.ink _ hP
    cases y with
    | nil => exact hy rfl
    | cons d y =>
      obtain ⟨rfl, _⟩ := List.cons.inj hz
      rw [ha d (hxy ▸ List.mem_append_right x List.mem_cons_self)] at hc
      cases hc
  have hdocs (k : Place → Option (Match γ)) :
      (docLines : Pattern γ).run k (.between l (a ++ b)) = k (.between l (a ++ b)) := by
    rw [docLines, Pattern.run, rounds, hd.run_eq_none, Option.none_or]
  rw [documented, run_sequence_cons]
  change ((docLines.run _ (.between l (a ++ b))).map _) = _
  rw [hdocs, Pattern.run, run_sequence_cons, hblanks, Option.map_map]
  simp only [captured, List.append_nil, List.nil_append]
  rfl

theorem rejects_docLine_of_newline (ha : Blank a) (hn : '\n' ∈ a) :
    (docLine : Pattern γ).Rejects l (a ++ b) := by
  intro m r hw ha'
  obtain ⟨ms, hm⟩ := ha'
  obtain ⟨_, i, x, rfl, hi, _⟩ := reads_docLine hm
  rw [List.append_assoc] at hw
  rcases List.append_eq_append_iff.mp hw with ⟨y, rfl, _⟩ | ⟨y, rfl, hy⟩
  · exact newline_not_mem_indent hi (List.mem_append_left y hn)
  · cases y with
    | nil => exact newline_not_mem_indent hi (by rwa [List.append_nil] at hn)
    | cons c y =>
      obtain ⟨rfl, _⟩ := List.cons.inj hy
      have hslash := ha '/' (List.mem_append_right i List.mem_cons_self)
      revert hslash
      decide

theorem not_accepts_documented (hps : ∀ l r, ¬(sequence ps).Accepts l [] r) (l r : List Char) :
    ¬(documented g ps).Accepts l [] r := by
  intro ha
  obtain ⟨_, ha⟩ := ha
  obtain ⟨d, n, _, _, hn, _, _, ha⟩ := reads_sequence_cons.mp ha
  obtain ⟨rfl, rfl⟩ := List.append_eq_nil_iff.mp hn.symm
  obtain ⟨d, n, _, _, hn, _, _, ha⟩ := reads_sequence_cons.mp ha
  obtain ⟨rfl, rfl⟩ := List.append_eq_nil_iff.mp hn.symm
  exact hps _ _ ⟨_, ha⟩

theorem Opening.exists_findAll_of_run {s : Match γ} (h : Opening P ps)
    (hps : ∀ l r, ¬(sequence ps).Accepts l [] r) (ha : Blank a)
    (hs : (sequence ps).run accept (.between a b) = some s) :
    ∃ f m r, b = m ++ r ∧
      (documented g ps).findFrom [] (a ++ b) = f :: (documented g ps).findFrom (a ++ m) r ∧
      s.stop = .between (a ++ m) r ∧ f.marks = captured g [] [] (a ++ b) ++ s.marks ∧
      lineOf f = a.count '\n' + 1 := by
  have hs' : (sequence ps).run accept (.between ([] ++ comments [] ++ a) b) = some s := hs
  obtain ⟨f, m, r, hb, hfind, hstop, _, hmarks, hline⟩ :=
    h.exists_findFrom_of_run (g := g) hps (.inl rfl) (by simp) (by simp) ha hs'
  refine ⟨f, m, r, hb, hfind, hstop, hmarks, ?_⟩
  rw [hline, show comments [] ++ a = a from rfl, List.takeWhile_eq_self_iff.mpr ha, List.count_nil]
  omega

theorem Opening.rejects_padding {x y : List Char} (h : Opening P ps) (hxy : Blank (x ++ y))
    (ha : Blank a) (hb : Stops isBlank b) (hv : Blank v) (hn : '\n' ∈ y)
    (hs : (sequence ps).run accept (.between (x ++ (y ++ a)) (b ++ v)) = none) :
    (documented g ps).Rejects x (y ++ (a ++ (b ++ v))) := by
  have hy : Blank y := fun c hc => hxy c (List.mem_append_right x hc)
  by_cases hne : b = []
  · subst b
    exact h.rejects_blank (hy.append (ha.append hv)) x
  · apply foundAt?_eq_none_iff.mp
    rw [foundAt?, ← List.append_assoc, h.run_documented (hy.append ha) (hb.append hne v)
      (rejects_docLine_of_newline (hy.append ha) (List.mem_append_left a hn)), hs]
    rfl

variable [DecidableEq γ]

/-- The same declaration is found `n` lines further down. -/
def MovedDown (n : Nat) (f f' : Found γ) : Prop :=
  (∀ g, f'.group? g = f.group? g) ∧ lineOf f' = lineOf f + n

theorem capture_padded {ms ns : List (Mark γ × Place)}
    (h : List.Forall₂ (fun a b => a.1 = b.1 ∧ (Change.padding w v).Carries t a.2 b.2) ms ns)
    (g : γ) :
    capture ns g = capture ms g := by
  have hg := capture_eq_map (R := fun _ => (Change.padding w v).Carries t) (g := g) h
    (fun _ _ hx => hx) (fun _ _ hx => hx)
  rwa [show (Change.padding w v).inner = id from rfl, Option.map_id] at hg

theorem movedDown_of_corresponds {f f' : Found γ}
    (h : f.Corresponds (fun _ => (Change.padding w v).Carries t)
      ((Change.padding w v).Carries t) f') : MovedDown (w.count '\n') f f' := by
  refine ⟨capture_padded h.marks, ?_⟩
  obtain ⟨l, r, _, hx, hy⟩ := h.start
  have hline : f'.start.line = f.start.line + w.count '\n' := by
    rw [hx, hy]
    simp only [Change.padding, Place.between_line, List.count_append]
    omega
  have htext : f'.text = f.text := h.text_eq
  rw [lineOf, lineOf, htext, hline]
  omega

theorem Opening.exists_findFrom_moved {s s' : Match γ} (h : Opening P ps)
    (hps : ∀ l r, ¬(sequence ps).Accepts l [] r) (hw : Blank w) (ha : Blank a)
    (hs : (sequence ps).run accept (.between a b) = some s)
    (hs' : (sequence ps).run accept (.between (w ++ a) (b ++ v)) = some s')
    (hss : s.Corresponds (fun _ => (Change.padding w v).Carries (a ++ b))
      ((Change.padding w v).Carries (a ++ b)) s') :
    ∃ f f' m r, b = m ++ r ∧
      (documented g ps).findFrom [] (a ++ b) = f :: (documented g ps).findFrom (a ++ m) r ∧
      (documented g ps).findFrom [] (w ++ a ++ (b ++ v)) =
        f' :: (documented g ps).findFrom (w ++ (a ++ m)) (r ++ v) ∧
      MovedDown (w.count '\n') f f' := by
  obtain ⟨f, m, r, rfl, hfind, hstop, hmarks, hline⟩ := h.exists_findAll_of_run (g := g) hps ha hs
  obtain ⟨f', m', r', hr', hfind', hstop', hmarks', hline'⟩ :=
    h.exists_findAll_of_run (g := g) hps (hw.append ha) hs'
  have hgroup (g' : γ) : f'.group? g' = f.group? g' := by
    rw [Found.group?, Found.group?, hmarks, hmarks']
    by_cases hg : g = g'
    · subst g'
      rw [capture_captured, capture_captured]
    · rw [capture_captured_ne hg, capture_captured_ne hg, capture_padded hss.marks]
  refine ⟨f, f', m, r, rfl, hfind, ?_, hgroup, ?_⟩
  · -- Both matches end in front of the same rest of the text.
    obtain ⟨l₁, r₁, ht₁, hx, hy⟩ := hss.stop
    rw [← List.append_assoc] at ht₁
    obtain ⟨rfl, rfl⟩ := Place.eq_of_between_eq ht₁ (hstop.symm.trans hx)
    have htext : w ++ a ++ m' ++ r' = w ++ (a ++ m) ++ (r ++ v) := by
      rw [List.append_assoc (w ++ a), ← hr']
      simp only [List.append_assoc]
    obtain ⟨hl, rfl⟩ := Place.eq_of_between_eq htext (hstop'.symm.trans hy)
    rw [hfind', ← hl]
  · rw [hline, hline', List.count_append]
    omega

/-- White space around a text moves the declarations in it down, and does nothing else. -/
theorem Opening.forall₂_findAll (h : Opening P ps) (hps : ∀ l r, ¬(sequence ps).Accepts l [] r)
    (hagree : Padding.Agrees w v t ((sequence ps).run accept) ((sequence ps).run accept))
    (hw : Blank w) (hw' : AtLineStart w) (hv : Blank v) :
    List.Forall₂ (MovedDown (w.count '\n')) ((documented g ps).findAll t)
      ((documented g ps).findAll (w ++ (t ++ v))) := by
  have hwhole : Padding.Agrees w v t ((documented g ps).run accept)
      ((documented g ps).run accept) := by
    have hrun : (documented g ps).run accept =
        (Pattern.group g docLines).run ((Pattern.blanks).run ((sequence ps).run accept)) := by
      funext x
      rw [documented, run_sequence_cons]
      congr 1
      funext y
      rw [run_sequence_cons]
    rw [hrun]
    exact (hagree.run hw' hv _).run hw' hv _
  have hrest {l r : List Char} (ht : t = l ++ r) :
      List.Forall₂ (MovedDown (w.count '\n')) ((documented g ps).findFrom l r)
        ((documented g ps).findFrom (w ++ l) (r ++ v)) :=
    (Padding.forall₂_findFrom (not_accepts_documented hps) hv hwhole ht).imp
      fun _ _ => movedDown_of_corresponds
  rw [findAll_eq_findFrom, findAll_eq_findFrom]
  rcases hw' with rfl | hlast
  · exact hrest (List.nil_append t).symm
  have htext : t.takeWhile isBlank ++ trimStart t = t := List.takeWhile_append_dropWhile
  have hblank : Blank (t.takeWhile isBlank) := fun c hc => List.mem_takeWhile_imp hc
  have hstops : Stops isBlank (trimStart t) := fun c hc => head_trimStart hc
  generalize t.takeWhile isBlank = a at htext hblank
  generalize trimStart t = b at htext hstops
  subst t
  have hcarried := hagree.carried a b rfl
  cases hs : (sequence ps).run accept (.between a b) with
  | none =>
    rw [hs] at hcarried
    have hskip : (documented g ps).findFrom [] (w ++ (a ++ b ++ v)) =
        (documented g ps).findFrom w (a ++ b ++ v) := by
      apply findFrom_append
      intro x c y hxy
      rw [List.nil_append, List.append_assoc a]
      apply h.rejects_padding (by rwa [← hxy]) hblank hstops hv
      · rw [hxy, List.getLast?_append_cons] at hlast
        exact List.mem_of_getLast? hlast
      · rw [← List.append_assoc, ← hxy]
        exact eq_none_of_rel hcarried
    have hfirst := hrest (l := []) (r := a ++ b) rfl
    rwa [List.append_nil, ← hskip] at hfirst
  | some s =>
    rw [hs] at hcarried
    obtain ⟨s', hs', hss⟩ := exists_of_rel hcarried
    obtain ⟨f, f', m, r, rfl, hfind, hfind', hmoved⟩ :=
      h.exists_findFrom_moved (g := g) hps hw hblank hs hs' hss
    rw [hfind, List.append_assoc a, ← List.append_assoc w, hfind']
    exact .cons hmoved (hrest (List.append_assoc a m r).symm)

theorem MovedDown.group_eq {n : Nat} {f f' : Found γ} (h : MovedDown n f f') (g : γ) :
    f'.group g = f.group g := by
  rw [Found.group, Found.group, h.1]

end Scan

/-- The record of a struct that stands `n` lines further down. -/
def StructDecl.moveDown (n : Nat) (s : StructDecl) : StructDecl :=
  { s with line := s.line + n }

def FunctionDecl.moveDown (n : Nat) (f : FunctionDecl) : FunctionDecl :=
  { f with line := f.line + n }

def Declaration.moveDown (n : Nat) : Declaration → Declaration
  | .struct s => .struct (s.moveDown n)
  | .function f => .function (f.moveDown n)

namespace Scan

theorem structDecl_of_movedDown {n : Nat} {f f' : Found StructPart} (h : MovedDown n f f')
    (t : List Char) (file : String) : structDecl t file f' = (structDecl t file f).moveDown n := by
  simp only [structDecl, StructDecl.moveDown, h.group_eq, h.2]

theorem functionDecl_of_movedDown {n : Nat} {f f' : Found FunctionPart} (h : MovedDown n f f')
    (file : String) : functionDecl file f' = (functionDecl file f).moveDown n := by
  simp only [functionDecl, FunctionDecl.moveDown, h.group_eq, h.1, h.2]

theorem beq_eq_false_of_isBlank {d : Char} (hd : isBlank d = false) (c : Char)
    (hc : isBlank c = true) : (c == d) = false := by
  rw [beq_eq_false_iff_ne]
  rintro rfl
  rw [hc] at hd
  cases hd

theorem agrees_brace (hv : Blank v) :
    Padding.Agrees w v t ((literal "\x7d" : Pattern γ).run accept) ((literal "\x7d").run accept) :=
  Padding.agrees_char (f := (· == '}')) (beq_eq_false_of_isBlank (by decide)) hv

theorem rejects_sizePattern_of_blank {n : List Char} {c : Char} (hc : isBlank c = true)
    (l r : List Char) : (sizePattern n).Rejects l (c :: r) := by
  apply Rejects.cons
  intro m r' hr ha
  obtain ⟨_, ha⟩ := ha
  obtain ⟨⟨rfl, _⟩, _⟩ := reads_anchor.mp ha
  apply Rejects.head
  apply rejects_literal
  rw [← List.nil_append r', ← hr]
  rintro ⟨_, hi⟩
  obtain ⟨rfl, _⟩ := List.cons.inj hi
  revert hc
  decide

theorem sizeBody_padded (hw : Blank w) (hw' : AtLineStart w) (hv : Blank v) (t n : List Char) :
    sizeBody (w ++ (t ++ v)) n = sizeBody t n := by
  have hagree : Padding.Agrees w v t ((sizePattern n).run accept) ((sizePattern n).run accept) :=
    Padding.agrees_sequence hw' hv rfl (agrees_brace hv)
  have hskip : (sizePattern n).findFrom [] (w ++ (t ++ v)) =
      (sizePattern n).findFrom w (t ++ v) := by
    apply findFrom_append
    intro a c b hab
    apply rejects_sizePattern_of_blank
    apply hw
    rw [hab]
    exact List.mem_append_right a List.mem_cons_self
  have hfound := Padding.forall₂_findFrom (not_accepts_sizePattern n) hv hagree
    (List.nil_append t).symm
  rw [List.append_nil, ← hskip] at hfound
  rw [sizeBody, sizeBody, find?_eq_head?, find?_eq_head?, findAll_eq_findFrom, findAll_eq_findFrom]
  apply bind_eq_of_rel (rel_head? hfound)
  intro f f' hf
  rw [(movedDown_of_corresponds hf).group_eq]

theorem structs_padded {w v : String} (hw : Blank w.toList) (hw' : AtLineStart w.toList)
    (hv : Blank v.toList) (t file : String) :
    structs (w ++ t ++ v) file =
      (structs t file).map (StructDecl.moveDown (w.toList.count '\n')) := by
  have hagree : Padding.Agrees w.toList v.toList t.toList ((sequence structParts).run accept)
      ((sequence structParts).run accept) :=
    Padding.agrees_sequence hw' hv rfl (agrees_brace hv)
  have hfound :=
    opening_struct.forall₂_findAll (g := .doc) not_accepts_structParts hagree hw hw' hv
  rw [structs, structs, List.map_map, structPattern, String.toList_append, String.toList_append,
    List.append_assoc]
  apply map_eq_of_forall₂ hfound
  intro f f' hf
  rw [Function.comp_apply, ← structDecl_of_movedDown hf, structDecl, sizeBody_padded hw hw' hv]
  rfl

theorem functions_padded {w v : String} (hw : Blank w.toList) (hw' : AtLineStart w.toList)
    (hv : Blank v.toList) (t file : String) :
    functions (w ++ t ++ v) file =
      (functions t file).map (FunctionDecl.moveDown (w.toList.count '\n')) := by
  have hend : ∀ c, isBlank c = true → (c == '{' || c == ';') = false := by
    intro c hc
    rw [beq_eq_false_of_isBlank (by decide) c hc, beq_eq_false_of_isBlank (by decide) c hc]
    rfl
  have hagree : Padding.Agrees w.toList v.toList t.toList ((sequence functionParts).run accept)
      ((sequence functionParts).run accept) :=
    Padding.agrees_sequence hw' hv rfl (Padding.agrees_char hend hv)
  have hfound :=
    opening_function.forall₂_findAll (g := .doc) not_accepts_functionParts hagree hw hw' hv
  rw [functions, functions, List.map_map, functionPattern, String.toList_append,
    String.toList_append, List.append_assoc]
  apply map_eq_of_forall₂ hfound
  exact fun f f' hf => functionDecl_of_movedDown hf file

/-- White space around a source, if it ends a line in front, moves the declarations down by the
lines in front and changes nothing else in them. -/
theorem declarations_padded (w t v file : String) (hw : Blank w.toList) (hw' : AtLineStart w.toList)
    (hv : Blank v.toList) :
    declarations (w ++ t ++ v) file =
      (declarations t file).map (Declaration.moveDown (w.toList.count '\n')) := by
  rw [declarations, declarations, structs_padded hw hw' hv, functions_padded hw hw' hv,
    List.map_append, List.map_map, List.map_map, List.map_map, List.map_map]
  rfl

theorem declarations_padded_empty : Blank "\n \n".toList ∧ AtLineStart "\n \n".toList ∧
    Blank "\t\n ".toList ∧
    declarations ("\n \n" ++ " pub struct E \x7b\x7d\n/// d\nfn f();" ++ "\t\n ") "e.rs" =
      (declarations " pub struct E \x7b\x7d\n/// d\nfn f();" "e.rs").map
        (Declaration.moveDown 2) := by
  have hw : Blank "\n \n".toList := forall_mem_of_all (by decide)
  have hw' : AtLineStart "\n \n".toList := .inr (by decide)
  have hv : Blank "\t\n ".toList := forall_mem_of_all (by decide)
  exact ⟨hw, hw', hv,
    declarations_padded "\n \n" " pub struct E \x7b\x7d\n/// d\nfn f();" "\t\n " "e.rs"
    hw hw' hv⟩

end Scan

end RefDoc
