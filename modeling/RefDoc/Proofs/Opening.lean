import RefDoc.Proofs.Layout

namespace RefDoc.Scan

open Text Pattern DocComment

variable {γ : Type} {ps : List (Pattern γ)} {P : List Char → Prop} {g : γ} {l m r w : List Char}
  {gs : List (γ × List Char)}

/-- Every text that begins with the patterns begins as `P` says: with a character that is neither
white space nor the start of a comment. -/
structure Opening (P : List Char → Prop) (ps : List (Pattern γ)) : Prop where
  ink : ∀ w, P w → ∃ c w', w = c :: w' ∧ isBlank c = false ∧ c ≠ '/'
  rejects : ∀ l w, ¬P w → (sequence ps).Rejects l w

theorem Opening.trimStart_eq (h : Opening P ps) (hw : P w) :
    trimStart w = w := by
  obtain ⟨c, w', rfl, hc, _⟩ := h.ink w hw
  exact trimStart_eq_self (.cons hc w')

theorem Opening.of_run {k : Place → Option (Match γ)} {s : Match γ} (h : Opening P ps)
    (hs : (sequence ps).run k (.between l w) = some s) : P w := by
  by_contra hP
  rw [(h.rejects l w hP).run_eq_none] at hs
  cases hs

theorem Opening.of_takes (h : Opening P ps)
    (hw : Takes (sequence ps) l w r gs) : P (w ++ r) := by
  obtain ⟨ms, hw, _⟩ := hw
  exact h.of_run (hw accept _ rfl)

theorem Opening.head_of_takes (h : Opening P ps) (hw : Takes (sequence ps) l w r gs)
    (hne : w ≠ []) : ∃ c z, w = c :: z ∧ isBlank c = false := by
  obtain ⟨c, _, hc, hb, _⟩ := h.ink _ (h.of_takes hw)
  cases w with
  | nil => exact absurd rfl hne
  | cons d z =>
    cases hc
    exact ⟨_, z, rfl, hb⟩

theorem Opening.rejects_docLine_of_run {k : Place → Option (Match γ)} {s : Match γ} {ws : List Char}
    (h : Opening P ps) (hws : Blank ws) (hs : (sequence ps).run k (.between l w) = some s)
    (l' : List Char) : (docLine : Pattern γ).Rejects l' (ws ++ w) := by
  obtain ⟨c, z, hc, hb, hslash⟩ := h.ink _ (h.of_run hs)
  apply Scan.rejects_docLine
  right
  rw [trimStart_append hws, hc, trimStart_eq_self (.cons hb z)]
  intro he
  cases he
  exact hslash rfl

theorem Opening.rejects_docLine (h : Opening P ps) {ws : List Char} (hws : Blank ws)
    (hw : Takes (sequence ps) l w r gs) (l' : List Char) :
    (docLine : Pattern γ).Rejects l' (ws ++ (w ++ r)) := by
  obtain ⟨ms, hw, _⟩ := hw
  exact h.rejects_docLine_of_run hws (hw accept _ rfl) l'

theorem Opening.rejects_documented (h : Opening P ps)
    (hl : ¬AtLineStart l ∨ (trimStart w).head? ≠ some '/') (hw : ¬P (trimStart w)) :
    (documented g ps).Rejects l w := by
  apply Rejects.cons
  intro d w' he ha
  obtain ⟨ms, hd⟩ := ha
  obtain ⟨hd, _⟩ := (reads_group rfl).mp hd
  rw [docLines] at hd
  rcases reads_many.mp hd with ⟨rfl, _⟩ | ⟨m, n, as, bs, rfl, _, hm, _⟩
  · apply Rejects.cons
    intro a b hb ha
    obtain ⟨ms, ha⟩ := ha
    apply h.rejects
    intro hPb
    apply hw
    rw [he, List.nil_append, hb, trimStart_append (reads_many_char.mp ha).1, h.trimStart_eq hPb]
    exact hPb
  · rw [List.append_assoc] at he
    exact absurd ⟨as, hm⟩ (Scan.rejects_docLine hl m (n ++ w') he)

theorem Opening.rejects_blank (h : Opening P ps) (hw : Blank w) (l : List Char) :
    (documented g ps).Rejects l w := by
  have hnil : trimStart w = [] := List.dropWhile_eq_nil_iff.mpr hw
  apply h.rejects_documented
  · rw [hnil]
    exact .inr nofun
  · rw [hnil]
    intro hP
    obtain ⟨c, w', hc, _⟩ := h.ink _ hP
    cases hc

theorem Opening.findFrom_eq_nil (h : Opening P ps) (hw : Blank w) :
    (documented g ps).findFrom l w = [] := by
  induction w generalizing l with
  | nil => exact findFrom_nil (h.rejects_blank hw l)
  | cons c w ih =>
    rw [findFrom_cons (h.rejects_blank hw l)]
    exact ih (List.forall_mem_cons.mp hw).2

theorem takes_documented {ls : List (List Char × List Char)} {ws : List Char}
    (hl : ls = [] ∨ AtLineStart l) (hi : ∀ x ∈ ls, ∀ c ∈ x.1, c = ' ' ∨ c = '\t')
    (ht : ∀ x ∈ ls, '\n' ∉ x.2) (hws : Blank ws) (h : Opening P ps)
    (hr : (docLine : Pattern γ).Rejects (l ++ comments ls) (ws ++ (w ++ r)))
    (hw : Takes (sequence ps) (l ++ comments ls ++ ws) w r gs) :
    Takes (documented g ps) l (comments ls ++ (ws ++ w)) r ((g, comments ls) :: gs) := by
  rw [← List.append_assoc ws w r] at hr
  apply Takes.keep (prefers_docLines hl hi ht hr)
  apply Takes.skip _ hw
  apply Prefers.blanks hws
  obtain ⟨c, w', hc, hb, _⟩ := h.ink _ (h.of_takes hw)
  rw [hc]
  exact .cons hb w'

theorem takeWhile_isBlank_append {a : List Char} {c : Char} (ha : Blank a)
    (hc : isBlank c = false) :
    (a ++ c :: w).takeWhile isBlank = a := by
  rw [List.takeWhile_append_of_pos ha, List.takeWhile_cons_of_neg (by simp [hc]), List.append_nil]

theorem lineOf_found {f : Found γ} {a : List Char} {c : Char}
    (hstart : f.start = .between l (m ++ r))
    (hstop : f.stop = .between (l ++ m) r) (ha : Blank a) (hc : isBlank c = false)
    (hm : m = a ++ c :: w) : lineOf f = (l ++ a).count '\n' + 1 := by
  rw [lineOf, Found.text, hstart, hstop, Place.textTo_between, hm, takeWhile_isBlank_append ha hc,
    Place.between_line, List.count_append]
  omega

theorem takeWhile_isBlank_append_ink {c : Char} (a : List Char) (hc : isBlank c = false) :
    (a ++ c :: w).takeWhile isBlank = a.takeWhile isBlank := by
  rw [List.takeWhile_append]
  split
  · next ha =>
    rw [List.takeWhile_cons_of_neg (by simp [hc]), List.append_nil]
    exact ((List.takeWhile_prefix isBlank).eq_of_length ha).symm
  · rfl

theorem Opening.exists_findFrom_of_run {ls : List (List Char × List Char)} {ws : List Char}
    {s : Match γ} (h : Opening P ps) (hps : ∀ l r, ¬(sequence ps).Accepts l [] r)
    (hl : ls = [] ∨ AtLineStart l) (hi : ∀ x ∈ ls, ∀ c ∈ x.1, c = ' ' ∨ c = '\t')
    (ht : ∀ x ∈ ls, '\n' ∉ x.2) (hws : Blank ws)
    (hs : (sequence ps).run accept (.between (l ++ comments ls ++ ws) w) = some s) :
    ∃ f m r, w = m ++ r ∧
      (documented g ps).findFrom l (comments ls ++ (ws ++ w)) =
        f :: (documented g ps).findFrom (l ++ comments ls ++ ws ++ m) r ∧
      s.stop = .between (l ++ comments ls ++ ws ++ m) r ∧ f.stop = s.stop ∧
      f.marks = captured g l (comments ls) (ws ++ w) ++ s.marks ∧
      lineOf f = l.count '\n' + 1 + ((comments ls ++ ws).takeWhile isBlank).count '\n' := by
  obtain ⟨c, z, hcz, hc, _⟩ := h.ink w (h.of_run hs)
  have hdoc := (prefers_docLines hl hi ht (h.rejects_docLine_of_run hws hs _)).group (g := g)
  have hblanks : Prefers (blanks : Pattern γ) (l ++ comments ls) ws w [] :=
    .blanks hws (hcz ▸ .cons hc z)
  have hrun : (documented g ps).run accept (.between l (comments ls ++ (ws ++ w))) =
      some (s.behind (captured g l (comments ls) (ws ++ w))) := by
    rw [documented, run_sequence_cons]
    apply hdoc
    rw [run_sequence_cons]
    exact hblanks _ s hs
  obtain ⟨m, r, ms, _, rfl, hm, hk, rfl⟩ := followsReading_of_run _ _ _ _ _ hs
  cases hk
  have hne : m ≠ [] := by
    rintro rfl
    exact hps _ _ ⟨ms, hm⟩
  obtain ⟨d, m, rfl⟩ := List.exists_cons_of_ne_nil hne
  obtain ⟨rfl, _⟩ := List.cons.inj hcz
  have htext : comments ls ++ (ws ++ (d :: m ++ r)) = comments ls ++ ws ++ d :: m ++ r := by
    simp only [List.append_assoc]
  have hbehind : l ++ comments ls ++ ws ++ d :: m = l ++ (comments ls ++ ws ++ d :: m) := by
    simp only [List.append_assoc]
  obtain ⟨f, hf, hstart, hstop, hmarks⟩ : ∃ f,
      (documented g ps).foundAt? (.between l (comments ls ++ ws ++ d :: m ++ r)) = some f ∧
      f.start = .between l (comments ls ++ ws ++ d :: m ++ r) ∧
      f.stop = .between (l ++ (comments ls ++ ws ++ d :: m)) r ∧
      f.marks = captured g l (comments ls) (ws ++ (d :: m ++ r)) ++ (ms ++ []) := by
    rw [foundAt?, ← htext, hrun, ← hbehind]
    exact ⟨_, rfl, rfl, rfl, rfl⟩
  refine ⟨f, d :: m, r, rfl, ?_, rfl, ?_, hmarks, ?_⟩
  · rw [htext, findFrom_of_foundAt? hf hstop (by simp), hbehind]
  · rw [hstop, ← hbehind]
    rfl
  · rw [lineOf, Found.text, hstart, hstop, Place.textTo_between, takeWhile_isBlank_append_ink _ hc]
    rfl

theorem head_comments {x : List Char × List Char} (ls : List (List Char × List Char)) :
    ∃ z, comments (x :: ls) = x.1 ++ '/' :: z :=
  ⟨_, by simp [comments, comment]; rfl⟩

theorem count_spaces {a : List Char} (h : ∀ c ∈ a, c = ' ') : a.count '\n' = 0 := by
  apply List.count_eq_zero_of_not_mem
  intro hn
  cases h _ hn

theorem Opening.findFrom_newline {x : List Char × List Char} {ls : List (List Char × List Char)}
    (h : Opening P ps) (hl : ¬AtLineStart l) (hx : ∀ c ∈ x.1, c = ' ') (w : List Char) :
    (documented g ps).findFrom l ('\n' :: (comments (x :: ls) ++ w)) =
      (documented g ps).findFrom (l ++ ['\n']) (comments (x :: ls) ++ w) := by
  apply findFrom_cons
  apply h.rejects_documented (.inl hl)
  obtain ⟨y, hy⟩ := head_comments (x := x) ls
  have hn : trimStart ('\n' :: (comments (x :: ls) ++ w)) = '/' :: (y ++ w) := by
    rw [hy, List.append_assoc, ← List.singleton_append, trimStart_append blank_newline,
      trimStart_append (blank_spaces hx)]
    rfl
  intro hP
  rw [hn] at hP
  obtain ⟨d, _, hd, _, hne⟩ := h.ink _ hP
  cases hd
  exact hne rfl

section Items

variable {ι δ : Type} {lines : ι → List Char} {record : ι → Nat → δ} {decl : Found γ → δ}

/-- The records of items that stand one below the other, from the line `n` on. -/
def recordsFrom (record : ι → Nat → δ) (source : ι → List Char) : Nat → List ι → List δ
  | _, [] => []
  | n, i :: is => record i n :: recordsFrom record source (n + (source i).count '\n') is

/-- If the search finds each item that stands alone on its lines, and goes on behind it, it finds
items that stand one below the other. -/
theorem Opening.map_findFrom {is : List ι} {gap : List Char} (h : Opening P ps)
    (hend : ∀ i ∈ is, ∀ l, ¬AtLineStart (l ++ lines i))
    (hfind : ∀ i ∈ is, ∀ l gap r, IsGap l gap →
      ((documented g ps).findFrom l (gap ++ lines i ++ r)).map decl =
        record i ((l ++ gap).count '\n' + 1) ::
          ((documented g ps).findFrom (l ++ (gap ++ lines i)) r).map decl)
    (hgap : IsGap l gap) :
    ((documented g ps).findFrom l (gap ++ is.flatMap (lines · ++ ['\n']))).map decl =
      recordsFrom record (lines · ++ ['\n']) ((l ++ gap).count '\n' + 1) is := by
  induction is generalizing l gap with
  | nil =>
    rw [List.flatMap_nil, List.append_nil, h.findFrom_eq_nil hgap.blank]
    rfl
  | cons i is ih =>
    obtain ⟨hend_i, hend⟩ := List.forall_mem_cons.mp hend
    obtain ⟨hfind_i, hfind⟩ := List.forall_mem_cons.mp hfind
    have hstart : ¬AtLineStart (l ++ (gap ++ lines i)) := by
      rw [← List.append_assoc]
      exact hend_i _
    have htext : gap ++ (i :: is).flatMap (lines · ++ ['\n']) =
        gap ++ lines i ++ (['\n'] ++ is.flatMap (lines · ++ ['\n'])) := by
      simp
    have hline : (l ++ (gap ++ lines i) ++ ['\n']).count '\n' + 1 =
        (l ++ gap).count '\n' + 1 + (lines i ++ ['\n']).count '\n' := by
      simp only [List.count_append]
      omega
    rw [htext, hfind_i l gap _ hgap, ih hend hfind (.inr ⟨rfl, hstart⟩), hline]
    rfl

end Items

variable [DecidableEq γ]

theorem Opening.exists_findFrom_blank {ws : List Char} (h : Opening P ps) (hws : Blank ws)
    (hl : ¬AtLineStart l ∨ (docLine : Pattern γ).Rejects l (ws ++ (w ++ r))) (hne : w ≠ [])
    (hw : Takes (sequence ps) (l ++ ws) w r gs) :
    ∃ f, (documented g ps).findFrom l (ws ++ w ++ r) =
        f :: (documented g ps).findFrom (l ++ (ws ++ w)) r ∧
      f.stop = .between (l ++ (ws ++ w)) r ∧ (∀ g', f.group? g' = ((g, []) :: gs).lookup g') ∧
      lineOf f = (l ++ ws).count '\n' + 1 := by
  obtain ⟨c, z, rfl, hc⟩ := h.head_of_takes hw hne
  have hr : (docLine : Pattern γ).Rejects (l ++ comments []) (ws ++ (c :: z ++ r)) := by
    rw [comments, List.flatMap_nil, List.append_nil]
    rcases hl with hl | hl
    · exact Scan.rejects_docLine (.inl hl)
    · exact hl
  have hw' : Takes (sequence ps) (l ++ comments [] ++ ws) (c :: z) r gs := by
    rwa [comments, List.flatMap_nil, List.append_nil]
  have ht := takes_documented (g := g) (.inl rfl) (by simp) (by simp) hws h hr hw'
  obtain ⟨f, hf, hstart, hstop, hgroup⟩ := ht.exists_findFrom (by simp)
  exact ⟨f, hf, hstop, hgroup, lineOf_found hstart hstop hws hc rfl⟩

theorem Opening.exists_findFrom_comments {ws : List Char} {x : List Char × List Char}
    {ls : List (List Char × List Char)} (h : Opening P ps) (hl : AtLineStart l)
    (hi : ∀ y ∈ x :: ls, ∀ c ∈ y.1, c = ' ') (ht : ∀ y ∈ x :: ls, '\n' ∉ y.2) (hws : Blank ws)
    (hw : Takes (sequence ps) (l ++ comments (x :: ls) ++ ws) w r gs) :
    ∃ f, (documented g ps).findFrom l (comments (x :: ls) ++ (ws ++ w) ++ r) =
        f :: (documented g ps).findFrom (l ++ (comments (x :: ls) ++ (ws ++ w))) r ∧
      f.stop = .between (l ++ (comments (x :: ls) ++ (ws ++ w))) r ∧
      (∀ g', f.group? g' = ((g, comments (x :: ls)) :: gs).lookup g') ∧
      lineOf f = l.count '\n' + 1 := by
  obtain ⟨y, hy⟩ := head_comments (x := x) ls
  have hx : ∀ c ∈ x.1, c = ' ' := hi x List.mem_cons_self
  have hm : comments (x :: ls) ++ (ws ++ w) = x.1 ++ '/' :: (y ++ (ws ++ w)) := by
    rw [hy, List.append_assoc, List.cons_append]
  have htakes := takes_documented (g := g) (.inr hl) (fun y hy c hc => .inl (hi y hy c hc)) ht hws h
    (h.rejects_docLine hws hw _) hw
  obtain ⟨f, hf, hstart, hstop, hgroup⟩ := htakes.exists_findFrom (by simp [hm])
  have hline := lineOf_found hstart hstop (blank_spaces hx) (by decide) hm
  rw [List.count_append, count_spaces hx, Nat.add_zero] at hline
  exact ⟨f, hf, hstop, hgroup, hline⟩

/-- The search comes to a declaration that stands alone on its lines, finds it whole and goes on
behind it. The line of the declaration is the one on which it begins. -/
theorem Opening.exists_findFrom {gap ws : List Char} {ls : List (List Char × List Char)}
    (h : Opening P ps) (hgap : IsGap l gap)
    (hi : ∀ x ∈ ls, ∀ c ∈ x.1, c = ' ') (ht : ∀ x ∈ ls, '\n' ∉ x.2) (hws : ∀ c ∈ ws, c = ' ')
    (hne : w ≠ []) (hw : Takes (sequence ps) (l ++ gap ++ comments ls ++ ws) w r gs) :
    ∃ f, (documented g ps).findFrom l (gap ++ (comments ls ++ (ws ++ w)) ++ r) =
        f :: (documented g ps).findFrom (l ++ (gap ++ (comments ls ++ (ws ++ w)))) r ∧
      f.stop = .between (l ++ (gap ++ (comments ls ++ (ws ++ w)))) r ∧
      (∀ g', f.group? g' = ((g, comments ls) :: gs).lookup g') ∧
      lineOf f = (l ++ gap).count '\n' + 1 := by
  have hblank := blank_spaces hws
  cases ls with
  | nil =>
    have hgapws := hgap.blank.append hblank
    have hl : ¬AtLineStart l ∨ (docLine : Pattern γ).Rejects l (gap ++ ws ++ (w ++ r)) := by
      rcases hgap with ⟨rfl, _⟩ | ⟨_, hl⟩
      · exact .inr (h.rejects_docLine hblank hw l)
      · exact .inl hl
    have hw' : Takes (sequence ps) (l ++ (gap ++ ws)) w r gs := by
      simpa only [comments, List.flatMap_nil, List.append_nil, List.append_assoc] using hw
    obtain ⟨f, hfind, hstop, hgroup, hline⟩ := h.exists_findFrom_blank (g := g) hgapws hl hne hw'
    simp only [comments, List.flatMap_nil, List.nil_append]
    rw [List.append_assoc gap] at hfind hstop
    rw [← List.append_assoc, List.count_append, count_spaces hws] at hline
    exact ⟨f, hfind, hstop, hgroup, hline⟩
  | cons x ls =>
    have hstart := hgap.atLineStart
    have hskip (w : List Char) : (documented g ps).findFrom l (gap ++ (comments (x :: ls) ++ w)) =
        (documented g ps).findFrom (l ++ gap) (comments (x :: ls) ++ w) := by
      rcases hgap with ⟨rfl, _⟩ | ⟨rfl, hl⟩
      · rw [List.nil_append, List.append_nil]
      · exact h.findFrom_newline hl (hi x List.mem_cons_self) w
    obtain ⟨f, hfind, hstop, hgroup, hline⟩ :=
      h.exists_findFrom_comments (g := g) hstart hi ht hblank hw
    rw [List.append_assoc l] at hfind hstop
    rw [List.append_assoc (comments _), ← hskip] at hfind
    rw [List.append_assoc gap, List.append_assoc (comments _)]
    exact ⟨f, hfind, hstop, hgroup, hline⟩

theorem Opening.exists_findFrom_ofText {gap d : List Char} (h : Opening P ps) (hgap : IsGap l gap)
    (hne : w ≠ []) (hw : Takes (sequence ps) (l ++ gap ++ comments (ofText [] d)) w r gs) :
    ∃ f, (documented g ps).findFrom l (gap ++ (comments (ofText [] d) ++ w) ++ r) =
        f :: (documented g ps).findFrom (l ++ (gap ++ (comments (ofText [] d) ++ w))) r ∧
      (∀ g', f.group? g' = ((g, comments (ofText [] d)) :: gs).lookup g') ∧
      lineOf f = (l ++ gap).count '\n' + 1 := by
  have hi : ∀ x ∈ ofText [] d, ∀ c ∈ x.1, c = ' ' := by
    intro x hx c hc
    rw [fst_of_mem_ofText hx] at hc
    cases hc
  have hw' : Takes (sequence ps) (l ++ gap ++ comments (ofText [] d) ++ []) w r gs := by
    rwa [List.append_nil]
  obtain ⟨f, hfind, _, hgroup, hline⟩ := h.exists_findFrom (g := g) hgap hi
    (fun x hx => newline_not_mem_ofText hx) (by simp) hne hw'
  exact ⟨f, hfind, hgroup, hline⟩

end RefDoc.Scan
