import RefDoc.Proofs.Padding

namespace RefDoc

open Text Pattern DocComment Scan

variable {γ : Type} {p : Pattern γ} {l m r w c ws : List Char} {ls : List (List Char × List Char)}

theorem Pattern.Prefers.run_round {k : Place → Option (Match γ)} {s : Match γ} (hm : m ≠ [])
    (hp : Prefers p l m r []) (hs : (Pattern.many p).run k (.between (l ++ m) r) = some s) :
    (Pattern.many p).run k (.between l (m ++ r)) = some s := by
  have hlt : r.length < (m ++ r).length := by
    have hpos := List.length_pos_iff.mpr hm
    rw [List.length_append]
    omega
  rw [run] at hs ⊢
  rw [rounds, hp _ s]
  · rfl
  · simp only [Place.between_rest, hlt, ↓reduceDIte, hs]

theorem Pattern.Takes.not_rejects {gs : List (γ × List Char)} (h : Takes p l m r gs) :
    ¬p.Rejects l (m ++ r) := by
  intro hr
  obtain ⟨ms, hp, _⟩ := h
  have hs := hp accept _ rfl
  rw [hr.run_eq_none] at hs
  cases hs

namespace Scan

variable {P : List Char → Prop} {ps : List (Pattern γ)} {g : γ}

theorem run_attributes_line {k : Place → Option (Match γ)} {s : Match γ} (hc : '\n' ∉ c)
    (hws : Blank ws) (hw : Stops isBlank w)
    (hs : (attributes : Pattern γ).run k (.between (l ++ (attributeLine c ++ ws)) w) = some s) :
    (attributes : Pattern γ).run k (.between l (attributeLine c ++ ws ++ w)) = some s := by
  rw [attributes] at hs ⊢
  exact (prefers_attributePart_append hc hws hw).run_round (by simp [attributeLine]) hs

theorem exists_findFrom_append {a : List Char} (hp : ∀ l r, ¬p.Accepts l [] r)
    (h : ∀ x y m s, a = x ++ y → y ++ r = m ++ s → p.Accepts (l ++ x) m s → m <+: y) :
    ∃ fs, p.findFrom l (a ++ r) = fs ++ p.findFrom (l ++ a) r ∧
      (fs ≠ [] → ∃ x m y, a = x ++ (m ++ y) ∧ p.Accepts (l ++ x) m (y ++ r)) := by
  induction hn : a.length using Nat.strongRecOn generalizing l a with
  | ind N ih =>
    subst hn
    cases hf : p.foundAt? (.between l (a ++ r)) with
    | none =>
      cases a with
      | nil => exact ⟨[], by simp, nofun⟩
      | cons c a =>
        have hr : p.Rejects l (c :: (a ++ r)) := foundAt?_eq_none_iff.mp hf
        obtain ⟨fs, hfs, hread⟩ := ih a.length (Nat.lt_succ_self _) (l := l ++ [c]) (a := a)
          (fun x y m s hxy hms ha => h (c :: x) y m s (by rw [hxy, List.cons_append]) hms
            (by rwa [List.append_assoc] at ha)) rfl
        refine ⟨fs, ?_, ?_⟩
        · rw [List.cons_append, findFrom_cons hr, hfs, List.append_assoc, List.singleton_append]
        · intro hne
          obtain ⟨x, m, y, rfl, hm⟩ := hread hne
          exact ⟨c :: x, m, y, rfl, by rwa [List.append_assoc] at hm⟩
    | some f =>
      obtain ⟨m, s, hms, hm, _, hstop⟩ := reads_of_foundAt? hf
      obtain ⟨y, rfl⟩ := h [] a m s rfl hms (by rw [List.append_nil]; exact ⟨_, hm⟩)
      rw [List.append_assoc] at hf hms ⊢
      obtain rfl := List.append_cancel_left hms
      have hne : m ≠ [] := by
        rintro rfl
        exact hp _ _ ⟨_, hm⟩
      have hlt : y.length < (m ++ y).length := by
        have hpos := List.length_pos_iff.mpr hne
        rw [List.length_append]
        omega
      obtain ⟨fs, hfs, _⟩ := ih y.length hlt (l := l ++ m) (a := y)
        (fun x y' m' s' hxy hms' ha => h (m ++ x) y' m' s' (by rw [hxy, List.append_assoc]) hms'
          (by rwa [List.append_assoc] at ha)) rfl
      refine ⟨f :: fs, ?_, fun _ => ⟨[], m, y, rfl, by rw [List.append_nil]; exact ⟨_, hm⟩⟩⟩
      rw [findFrom_of_foundAt? hf hstop hne, hfs, List.append_assoc]
      rfl

theorem prefix_of_reads_docLines {y : List Char} {ms : List (Mark γ × Place)} (hy : AtLineStart y)
    (hw : (trimStart w).head? ≠ some '/') (h : Reads (docLines : Pattern γ) l m r ms)
    (heq : y ++ w = m ++ r) : m <+: y := by
  induction hn : y.length using Nat.strongRecOn generalizing l m y ms with
  | ind N ih =>
    subst hn
    rw [docLines] at h
    rcases reads_many.mp h with ⟨rfl, _⟩ | ⟨a, b, as, bs, rfl, _, ha, hb⟩
    · exact List.nil_prefix
    · rw [List.append_assoc] at heq
      rcases hy with rfl | hy
      · exact absurd ⟨as, ha⟩ (rejects_docLine (.inr hw) a (b ++ r) heq)
      · obtain ⟨y, rfl⟩ := List.getLast?_eq_some_iff.mp hy
        obtain ⟨_, i, x, rfl, hi, hx⟩ := reads_docLine ha
        have hnewline : '\n' ∉ i ++ '/' :: '/' :: '/' :: x := by
          simp [newline_not_mem_indent hi, hx]
        have hline : i ++ '/' :: '/' :: '/' :: (x ++ ['\n']) =
            i ++ '/' :: '/' :: '/' :: x ++ ['\n'] := by
          simp
        rw [hline] at heq ⊢
        generalize i ++ '/' :: '/' :: '/' :: x = u at hnewline heq
        rw [List.append_assoc, List.append_assoc, List.singleton_append,
          List.singleton_append] at heq
        obtain ⟨e, rfl⟩ := prefix_of_not_mem heq hnewline
        rw [List.append_assoc] at heq
        have hrest := List.append_cancel_left heq
        obtain ⟨y, hye, hy, hyw⟩ :
            ∃ y, e ++ ['\n'] = '\n' :: y ∧ AtLineStart y ∧ y ++ w = b ++ r := by
          cases e with
          | nil => exact ⟨[], rfl, .inl rfl, (List.cons.inj hrest).2⟩
          | cons d e =>
            obtain ⟨rfl, htail⟩ := List.cons.inj hrest
            exact ⟨e ++ ['\n'], rfl, .inr (by simp), by rw [List.append_assoc]; exact htail⟩
        have hsplit : u ++ e ++ ['\n'] = u ++ ['\n'] ++ y := by
          rw [List.append_assoc, hye, List.append_assoc, List.singleton_append]
        have hlt : y.length < (u ++ e ++ ['\n']).length := by
          rw [hsplit]
          simp only [List.length_append, List.length_cons]
          omega
        rw [hsplit]
        exact (List.prefix_append_right_inj _).mpr (ih y.length hlt hy hb hyw rfl)

theorem prefix_of_reads_docs {x y z d : List Char} {ms : List (Mark γ × Place)}
    (hws : ∀ c ∈ ws, c = ' ' ∨ c = '\t') (hc : '\n' ∉ c)
    (hxy : comments ls ++ (ws ++ '#' :: '[' :: c) = x ++ y) (hms : y ++ ']' :: z = d ++ r)
    (hd : Reads (docLines : Pattern γ) (l ++ x) d r ms) : d <+: y := by
  have hhead (z : List Char) : (trimStart (ws ++ '#' :: '[' :: c ++ z)).head? ≠ some '/' := by
    rw [List.append_assoc, trimStart_append (blank_indent hws)]
    exact nofun
  rcases List.append_eq_append_iff.mp hxy with ⟨e, rfl, he⟩ | ⟨e, hx, rfl⟩
  · -- No line of documentation begins on the line of the attribute.
    have hreject : (docLine : Pattern γ).Rejects (l ++ (comments ls ++ e)) (d ++ r) := by
      apply rejects_docLine
      by_cases hne : e = []
      · subst e
        right
        rw [← hms, ← List.nil_append y, ← he]
        exact hhead _
      · left
        have hnewline : '\n' ∉ ws ++ '#' :: '[' :: c := by
          simp [newline_not_mem_indent hws, hc]
        rw [← List.append_assoc]
        apply not_atLineStart_append (List.getLast?_eq_some_getLast hne)
        intro hlast
        apply hnewline
        rw [he, ← hlast]
        exact List.mem_append_left y (List.getLast_mem hne)
    rw [docLines] at hd
    rcases reads_many.mp hd with ⟨rfl, _⟩ | ⟨a, b, as, _, rfl, _, ha, _⟩
    · exact List.nil_prefix
    · exact absurd ⟨as, ha⟩ (hreject a (b ++ r) (List.append_assoc a b r))
  · have hstart : AtLineStart e := by
      have h := atLineStart_append_comments (l := []) (.inl rfl) ls
      rw [List.nil_append, hx] at h
      exact h.of_append
    rw [List.append_assoc] at hms
    exact (prefix_of_reads_docLines hstart (hhead _) hd hms).trans (List.prefix_append e _)

theorem forall₂_findFrom_context {z : List Char} (hp : ∀ l r, ¬p.Accepts l [] r)
    (hz : AtLineStart z) (l r : List Char) :
    List.Forall₂ (Found.Corresponds (fun _ => (Change.padding z []).Carries (l ++ r))
      ((Change.padding z []).Carries (l ++ r))) (p.findFrom l r) (p.findFrom (z ++ l) r) := by
  have h := Padding.forall₂_findFrom hp blank_nil
    ((Padding.agrees_accept z (l ++ r)).run hz blank_nil p)
    rfl
  rwa [List.append_nil] at h

variable [DecidableEq γ]

theorem capture_opening_ne {g' : γ} (h : g ≠ g') (x : Place) (ms : List (Mark γ × Place)) :
    capture ((.opening g', x) :: ms) g = capture ms g := by
  have hopening : (Mark.opening g == Mark.opening g') = false := by
    rw [beq_eq_false_iff_ne]
    exact fun he => h (Mark.opening.inj he)
  have hclosing : (Mark.closing g == Mark.opening g') = false := rfl
  rw [capture, capture, List.lookup_cons, List.lookup_cons, hopening, hclosing]

/-- The parts of a declaration pass an attribute line in front of them, and all groups of which `Q`
holds stay as they are. -/
def PassesAttribute (ps : List (Pattern γ)) (Q : γ → Prop) : Prop :=
  ∀ {l c ws w : List Char} {s : Match γ}, '\n' ∉ c → Blank ws → Stops isBlank w →
    (sequence ps).run accept (.between (l ++ (attributeLine c ++ ws)) w) = some s →
    ∃ s', (sequence ps).run accept (.between l (attributeLine c ++ ws ++ w)) = some s' ∧
      s'.stop = s.stop ∧ ∀ g, Q g → capture s'.marks g = capture s.marks g

theorem passesAttribute_function : PassesAttribute functionParts fun _ => True := by
  intro l c ws w s hc hws hw hs
  rw [functionParts, run_sequence_cons] at hs
  refine ⟨s, ?_, rfl, fun _ _ => rfl⟩
  rw [functionParts, run_sequence_cons]
  exact run_attributes_line hc hws hw hs

theorem passesAttribute_struct : PassesAttribute structParts (· ≠ .attributes) := by
  intro l c ws w s hc hws hw hs
  rw [structParts, run_sequence_cons] at hs
  obtain ⟨s₀, hs₀, rfl⟩ := Option.map_eq_some_iff.mp hs
  refine ⟨s₀.record (.opening .attributes) (.between l (attributeLine c ++ ws ++ w)), ?_, rfl, ?_⟩
  · rw [structParts, run_sequence_cons]
    exact Option.map_eq_some_iff.mpr ⟨s₀, run_attributes_line hc hws hw hs₀, rfl⟩
  · intro g hg
    exact (capture_opening_ne hg _ s₀.marks).trans (capture_opening_ne hg _ s₀.marks).symm

theorem exists_run_of_context {z z' : List Char} {s : Match γ} (hz : AtLineStart z)
    (hz' : AtLineStart z') (hs : p.run accept (.between (z ++ l) (m ++ r)) = some s)
    (hstop : s.stop = .between (z ++ (l ++ m)) r) :
    ∃ s', p.run accept (.between (z' ++ l) (m ++ r)) = some s' ∧
      s'.stop = .between (z' ++ (l ++ m)) r ∧ ∀ g, capture s'.marks g = capture s.marks g := by
  have hrel {z : List Char} (hz : AtLineStart z) :=
    ((Padding.agrees_accept z (l ++ (m ++ r))).run hz blank_nil p).carried l (m ++ r) rfl
  have hbase := hrel hz
  rw [List.append_nil, hs] at hbase
  obtain ⟨s₀, hs₀, h⟩ := exists_of_rel_some hbase
  have hbase' := hrel hz'
  rw [List.append_nil, hs₀] at hbase'
  obtain ⟨s', hs', h'⟩ := exists_of_rel hbase'
  refine ⟨s', hs', ?_, fun g => (capture_padded h'.marks g).trans (capture_padded h.marks g).symm⟩
  obtain ⟨l₁, r₁, ht, hx, hy⟩ := h.stop
  obtain ⟨l₂, r₂, ht', hx', hy'⟩ := h'.stop
  obtain ⟨rfl, rfl⟩ := Place.eq_of_between_eq (ht.symm.trans ht') (hx.symm.trans hx')
  have htext : z ++ (l ++ m) ++ r = z ++ l₁ ++ (r₁ ++ []) := by
    rw [List.append_nil, List.append_assoc, List.append_assoc, List.append_assoc, ht]
  obtain ⟨hl, hr⟩ := Place.eq_of_between_eq htext (hstop.symm.trans hy)
  rw [List.append_cancel_left hl, hr]
  exact hy'

/-- An attribute line below the documentation of a declaration is passed over. The declarations
behind it move down by one line. -/
theorem Opening.findFrom_attributeLine {Q : γ → Prop} (h : Opening P ps)
    (hps : ∀ l r, ¬(sequence ps).Accepts l [] r) (hpass : PassesAttribute ps Q) (hl : AtLineStart l)
    (hi : ∀ x ∈ ls, ∀ c ∈ x.1, c = ' ' ∨ c = '\t') (ht : ∀ x ∈ ls, '\n' ∉ x.2)
    (hws : ∀ c ∈ ws, c = ' ' ∨ c = '\t') (hc : '\n' ∉ c)
    (hw : ¬(sequence ps).Rejects (l ++ comments ls ++ ws) w) :
    ∃ f f' fs fs', (documented g ps).findFrom l (comments ls ++ (ws ++ w)) = f :: fs ∧
      (documented g ps).findFrom l (comments ls ++ (ws ++ (attributeLine c ++ ws ++ w))) =
        f' :: fs' ∧
      f.group? g = some (comments ls) ∧ (∀ g', Q g' → f'.group? g' = f.group? g') ∧
      lineOf f' = lineOf f ∧ List.Forall₂ (MovedDown 1) fs fs' := by
  have hblank := blank_indent hws
  have hstart : AtLineStart (l ++ comments ls) := atLineStart_append_comments hl ls
  have hstart' : AtLineStart (l ++ comments ls ++ ws ++ attributeLine c) := by
    right
    simp [attributeLine, List.getLast?_append, List.getLast?_cons]
  obtain ⟨s, hs⟩ : ∃ s,
      (sequence ps).run accept (.between (l ++ comments ls ++ ws) w) = some s := by
    rw [← Option.ne_none_iff_exists']
    intro hnone
    apply hw
    apply foundAt?_eq_none_iff.mp
    rw [foundAt?, hnone, Option.map_none]
  obtain ⟨c₀, w₀, hw₀, hc₀, _⟩ := h.ink w (h.of_run hs)
  have hstops : Stops isBlank w := hw₀ ▸ .cons hc₀ w₀
  obtain ⟨f, m, r, rfl, hfind, hstop, _, hmarks, hline⟩ :=
    h.exists_findFrom_of_run (g := g) hps (.inr hl) hi ht hblank hs
  rw [List.append_assoc (l ++ comments ls)] at hfind hstop
  -- Behind the attribute line the parts are read as they are without it.
  obtain ⟨s₁, hs₁, hstop₁, hmarks₁⟩ := exists_run_of_context hstart hstart' hs hstop
  rw [List.append_assoc (l ++ comments ls ++ ws)] at hs₁
  obtain ⟨s₂, hs₂, hstop₂, hmarks₂⟩ := hpass hc hblank hstops hs₁
  obtain ⟨f', m', r', hr', hfind', hstop', _, hmarks', hline'⟩ :=
    h.exists_findFrom_of_run (g := g) hps (.inr hl) hi ht hblank hs₂
  have htext : l ++ comments ls ++ ws ++ m' ++ r' =
      l ++ comments ls ++ ws ++ attributeLine c ++ (ws ++ m) ++ r := by
    rw [List.append_assoc _ m', ← hr']
    simp only [List.append_assoc]
  obtain ⟨hm', rfl⟩ := Place.eq_of_between_eq htext
    (hstop'.symm.trans (hstop₂.trans hstop₁))
  have hgroup (g' : γ) (hg' : Q g') : f'.group? g' = f.group? g' := by
    rw [Found.group?, Found.group?, hmarks, hmarks']
    by_cases hg : g = g'
    · subst g'
      rw [capture_captured, capture_captured]
    · rw [capture_captured_ne hg, capture_captured_ne hg, hmarks₂ g' hg', hmarks₁]
  have hdoc : f.group? g = some (comments ls) := by
    rw [Found.group?, hmarks, capture_captured]
  have hcount : (l ++ comments ls ++ ws ++ attributeLine c).count '\n' =
      (l ++ comments ls).count '\n' + 1 := by
    have hattr : (attributeLine c).count '\n' = 1 := by
      simp [attributeLine, List.count_append, List.count_eq_zero_of_not_mem hc]
    simp only [List.count_append, List.count_eq_zero_of_not_mem (newline_not_mem_indent hws), hattr]
  refine ⟨f, f', _, _, hfind, hfind', hdoc, hgroup, hline'.trans hline.symm, ?_⟩
  rw [hm']
  apply forall₂_of_common
    (forall₂_findFrom_context (not_accepts_documented hps) hstart (ws ++ m) r')
    (forall₂_findFrom_context (not_accepts_documented hps) hstart' (ws ++ m) r')
  intro a b d hab had
  obtain ⟨hgroups, hlines⟩ := movedDown_of_corresponds hab
  obtain ⟨hgroups', hlines'⟩ := movedDown_of_corresponds had
  refine ⟨fun g => (hgroups' g).trans (hgroups g).symm, ?_⟩
  rw [hlines, hlines', hcount]
  omega

theorem reads_fieldParts {ms : List (Mark FieldPart × Place)}
    (h : Reads (sequence fieldParts) l m r ms) : ∃ a n b e, m = "pub".toList ++ (a ++ (n ++ (b ++
      (":".toList ++ e)))) ∧ Blank a ∧ IsName n ∧ Blank b ∧ Blank e := by
  obtain ⟨_, m, _, _, rfl, _, h₁, h⟩ := reads_sequence_cons.mp h
  obtain ⟨a, m, _, _, rfl, _, h₂, h⟩ := reads_sequence_cons.mp h
  obtain ⟨n, m, _, _, rfl, _, h₃, h⟩ := reads_sequence_cons.mp h
  obtain ⟨b, m, _, _, rfl, _, h₄, h⟩ := reads_sequence_cons.mp h
  obtain ⟨_, m, _, _, rfl, _, h₅, h⟩ := reads_sequence_cons.mp h
  obtain ⟨e, m, _, _, rfl, _, h₆, h⟩ := reads_sequence_cons.mp h
  obtain ⟨rfl, _⟩ := (reads_literal _).mp h₁
  obtain ⟨rfl, _⟩ := (reads_literal _).mp h₅
  obtain ⟨rfl, _⟩ := reads_sequence_nil.mp h
  refine ⟨a, n, b, e, by rw [List.append_nil], (reads_many1_char.mp h₂).1.2, ?_,
    (reads_many_char.mp h₄).1, (reads_many_char.mp h₆).1⟩
  exact (reads_many1_char.mp ((reads_group rfl).mp h₃).1).1

theorem bracket_not_mem_fieldParts {ms : List (Mark FieldPart × Place)}
    (h : Reads (sequence fieldParts) l m r ms) : ']' ∉ m := by
  obtain ⟨a, n, b, e, rfl, ha, hn, hb, he⟩ := reads_fieldParts h
  have hname : ']' ∉ n := by
    intro hw
    cases hn.2 _ hw
  simp [ha.not_mem (c := ']') rfl, hname, hb.not_mem (c := ']') rfl, he.not_mem (c := ']') rfl]

theorem prefix_of_accepts_field {x y z : List Char}
    (hws : ∀ c ∈ ws, c = ' ' ∨ c = '\t') (hc : '\n' ∉ c)
    (hxy : comments ls ++ (ws ++ '#' :: '[' :: c) = x ++ y) (hms : y ++ ']' :: z = m ++ r)
    (h : fieldPattern.Accepts (l ++ x) m r) : m <+: y := by
  obtain ⟨_, h⟩ := h
  obtain ⟨d, n, _, _, rfl, _, hd, h⟩ := reads_sequence_cons.mp h
  obtain ⟨hd, _⟩ := (reads_group rfl).mp hd
  obtain ⟨b, n, _, _, rfl, _, hb, h⟩ := reads_sequence_cons.mp h
  have hbracket : ']' ∉ b ++ n := by
    simp [Blank.not_mem (c := ']') (reads_many_char.mp hb).1 rfl, bracket_not_mem_fieldParts h]
  rw [List.append_assoc d] at hms
  obtain ⟨y, rfl⟩ := prefix_of_reads_docs hws hc hxy hms hd
  rw [List.append_assoc] at hms
  exact (List.prefix_append_right_inj d).mpr
    (prefix_of_not_mem (List.append_cancel_left hms) hbracket)

theorem filterMap_findFrom_context {z : List Char} (hz : AtLineStart z) (l r : List Char) :
    (fieldPattern.findFrom (z ++ l) r).filterMap fieldAt? =
      (fieldPattern.findFrom l r).filterMap fieldAt? := by
  apply filterMap_eq_of_forall₂ (forall₂_findFrom_context not_accepts_fieldPattern hz l r)
  intro f f' hf
  have hgroup := (movedDown_of_corresponds hf).group_eq
  obtain ⟨l₁, r₁, _, hx, hy⟩ := hf.stop
  have hrest : f'.stop.rest = f.stop.rest := by
    rw [hx, hy]
    exact List.append_nil r₁
  rw [fieldAt?, fieldAt?, hrest, hgroup, hgroup]

theorem filterMap_findFrom_field {n : List Char} (hl : AtLineStart l)
    (hi : ∀ x ∈ ls, ∀ c ∈ x.1, c = ' ' ∨ c = '\t') (ht : ∀ x ∈ ls, '\n' ∉ x.2)
    (hws : ∀ c ∈ ws, c = ' ' ∨ c = '\t') (hn : IsName n) (hr : Stops isBlank r)
    (htype : fieldType r ≠ []) :
    (fieldPattern.findFrom l (comments ls ++ (ws ++ ("pub ".toList ++
        (n ++ ": ".toList) ++ r)))).filterMap fieldAt? =
      ⟨String.ofList n, String.ofList (fieldType r), String.ofList (clean (comments ls))⟩ ::
        (fieldPattern.findFrom (ws ++ ("pub ".toList ++ (n ++ ": ".toList))) r).filterMap
          fieldAt? := by
  have hblank := blank_indent hws
  have hfield := takes_fieldParts (l := l ++ comments ls ++ ws) hn hr
  have hrejects := opening_field.rejects_docLine hblank hfield (l ++ comments ls)
  have htakes := takes_documented (g := .doc) (.inr hl) hi ht hblank opening_field hrejects hfield
  obtain ⟨f, hf, _, hstop, hgroup⟩ := htakes.exists_findFrom (by simp)
  rw [List.append_assoc (comments ls), List.append_assoc ws, ← List.append_assoc l] at hf
  rw [fieldPattern, hf, ← fieldPattern, List.filterMap_cons_some (fieldAt?_eq (by rw [hstop]; rfl)
    (hgroup .name) (hgroup .doc) htype),
    filterMap_findFrom_context (atLineStart_append_comments hl ls)]

theorem exists_filterMap_attributeLine {n : List Char}
    (hws : ∀ c ∈ ws, c = ' ' ∨ c = '\t') (hc : '\n' ∉ c) (hn : IsName n) (hr : Stops isBlank r)
    (htype : fieldType r ≠ []) (l : List Char) (ls : List (List Char × List Char)) :
    ∃ xs, (fieldPattern.findFrom l (comments ls ++ (ws ++ (attributeLine c ++ ws ++
          ("pub ".toList ++ (n ++ ": ".toList) ++ r))))).filterMap fieldAt? =
        xs ++ ⟨String.ofList n, String.ofList (fieldType r), ""⟩ ::
          (fieldPattern.findFrom (ws ++ ("pub ".toList ++ (n ++ ": ".toList))) r).filterMap
            fieldAt? ∧
      (¬"pub".toList <:+: comments ls ++ (ws ++ attributeLine c) → xs = []) := by
  have hfield := takes_fieldParts
    (l := l ++ (comments ls ++ (ws ++ '#' :: '[' :: c)) ++ [']'] ++ '\n' :: ws) hn hr
  have hstart : ¬AtLineStart (l ++ (comments ls ++ (ws ++ '#' :: '[' :: c)) ++ [']']) :=
    not_atLineStart_append rfl (by decide) _
  have hstart' : AtLineStart (l ++ (comments ls ++ (ws ++ attributeLine c))) := by
    right
    simp [attributeLine, List.getLast?_append, List.getLast?_cons]
  obtain ⟨f, hf, hstop, hgroup, _⟩ := opening_field.exists_findFrom_blank (g := .doc)
    (blank_newline.append (blank_indent hws)) (.inl hstart) (by simp) hfield
  obtain ⟨fs, hfs, hread⟩ := exists_findFrom_append (l := l)
    (a := comments ls ++ (ws ++ '#' :: '[' :: c))
    (r := ']' :: (['\n'] ++ ws ++ ("pub ".toList ++ (n ++ ": ".toList)) ++ r))
    not_accepts_fieldPattern
    (fun x y m s hxy hms => prefix_of_accepts_field hws hc hxy hms)
  have hbracket (l z : List Char) : fieldPattern.Rejects l (']' :: z) := by
    have htrim : trimStart (']' :: z) = ']' :: z := trimStart_eq_self (.cons rfl z)
    apply opening_field.rejects_documented
    · rw [htrim]
      exact .inr (by simp)
    · rw [htrim]
      simp
  have htext : comments ls ++ (ws ++ (attributeLine c ++ ws ++ ("pub ".toList ++
      (n ++ ": ".toList) ++ r))) = comments ls ++ (ws ++ '#' :: '[' :: c) ++
        ']' :: (['\n'] ++ ws ++ ("pub ".toList ++ (n ++ ": ".toList)) ++ r) := by
    simp [attributeLine]
  have hbehind : l ++ (comments ls ++ (ws ++ '#' :: '[' :: c)) ++ [']'] ++
      (['\n'] ++ ws ++ ("pub ".toList ++ (n ++ ": ".toList))) =
        l ++ (comments ls ++ (ws ++ attributeLine c)) ++
          (ws ++ ("pub ".toList ++ (n ++ ": ".toList))) := by
    simp [attributeLine]
  refine ⟨fs.filterMap fieldAt?, ?_, ?_⟩
  · rw [htext, hfs, findFrom_cons (hbracket _ _), fieldPattern, hf, ← fieldPattern,
      List.filterMap_append, List.filterMap_cons_some (fieldAt?_eq (by rw [hstop]; rfl)
        (hgroup .name) (hgroup .doc) htype), hbehind, filterMap_findFrom_context hstart']
    rfl
  · intro hpub
    by_cases hfs : fs = []
    · rw [hfs, List.filterMap_nil]
    · obtain ⟨x, m, y, hx, ms, hm⟩ := hread hfs
      obtain ⟨a, q, b, as, rfl, hq⟩ := hm.part (p := literal "pub") (by simp [fieldParts])
      obtain ⟨rfl, _⟩ := (reads_literal _).mp hq
      refine absurd ⟨x ++ a, b ++ y ++ [']', '\n'], ?_⟩ hpub
      have hline : comments ls ++ (ws ++ attributeLine c) =
          comments ls ++ (ws ++ '#' :: '[' :: c) ++ [']', '\n'] := by
        simp [attributeLine]
      rw [hline, hx]
      simp only [List.append_assoc]

/-- The record of a struct keeps the documentation above an attribute line, and all else in it but
the attributes. -/
theorem exists_structDecl_attributeLine (hl : AtLineStart l)
    (hi : ∀ x ∈ ls, ∀ c ∈ x.1, c = ' ' ∨ c = '\t') (ht : ∀ x ∈ ls, '\n' ∉ x.2)
    (hws : ∀ c ∈ ws, c = ' ' ∨ c = '\t') (hc : '\n' ∉ c)
    (hw : ¬(sequence structParts).Rejects (l ++ comments ls ++ ws) w) (t : List Char)
    (file : String) :
    ∃ s ss as, s.doc = String.ofList (clean (comments ls)) ∧
      (structPattern.findFrom l (comments ls ++ (ws ++ w))).map (structDecl t file) = s :: ss ∧
      (structPattern.findFrom l (comments ls ++ (ws ++ (attributeLine c ++ ws ++ w)))).map
        (structDecl t file) = { s with attributes := as } :: ss.map (StructDecl.moveDown 1) := by
  obtain ⟨f, f', fs, fs', hf, hf', hdoc, hgroup, hline, hrest⟩ :=
    opening_struct.findFrom_attributeLine
    (g := .doc) not_accepts_structParts passesAttribute_struct hl hi ht hws hc hw
  have hsame (g : StructPart) (hg : g ≠ .attributes) : f'.group g = f.group g := by
    rw [Found.group, Found.group, hgroup g hg]
  refine ⟨structDecl t file f, fs.map (structDecl t file), attributeList (f'.group .attributes),
    ?_, ?_, ?_⟩
  · change String.ofList (clean (f.group .doc)) = _
    rw [Found.group, hdoc, Option.getD_some]
  · rw [structPattern, hf, List.map_cons]
  · rw [structPattern, hf', List.map_cons, List.map_map]
    congr 1
    · simp only [structDecl, hsame .name (by decide), hsame .doc (by decide),
        hsame .fields (by decide), hline]
    · exact map_eq_of_forall₂ hrest fun f f' hff => structDecl_of_movedDown hff t file

theorem exists_functionDecl_attributeLine (hl : AtLineStart l)
    (hi : ∀ x ∈ ls, ∀ c ∈ x.1, c = ' ' ∨ c = '\t') (ht : ∀ x ∈ ls, '\n' ∉ x.2)
    (hws : ∀ c ∈ ws, c = ' ' ∨ c = '\t') (hc : '\n' ∉ c)
    (hw : ¬(sequence functionParts).Rejects (l ++ comments ls ++ ws) w) (file : String) :
    ∃ f fs, f.doc = String.ofList (clean (comments ls)) ∧
      (functionPattern.findFrom l (comments ls ++ (ws ++ w))).map (functionDecl file) = f :: fs ∧
      (functionPattern.findFrom l (comments ls ++ (ws ++ (attributeLine c ++ ws ++ w)))).map
        (functionDecl file) = f :: fs.map (FunctionDecl.moveDown 1) := by
  obtain ⟨f, f', fs, fs', hf, hf', hdoc, hgroup, hline, hrest⟩ :=
    opening_function.findFrom_attributeLine (g := .doc) not_accepts_functionParts
      passesAttribute_function hl hi ht hws hc hw
  have hsame : MovedDown 0 f f' := ⟨fun g => hgroup g trivial, hline⟩
  refine ⟨functionDecl file f, fs.map (functionDecl file), ?_, ?_, ?_⟩
  · change String.ofList (clean (f.group .doc)) = _
    rw [Found.group, hdoc, Option.getD_some]
  · rw [functionPattern, hf, List.map_cons]
  · rw [functionPattern, hf', List.map_cons, functionDecl_of_movedDown hsame, List.map_map]
    congr 1
    exact map_eq_of_forall₂ hrest fun f f' hff => functionDecl_of_movedDown hff file

/-- An attribute line between the documentation `d` of an item and the item, at any indentation. The
record of a struct or a function keeps the documentation, and nothing else in it changes but the
attributes. The record of a field loses it. -/
theorem doc_above_attributeLine {l d c ws : List Char} {ls : List (List Char × List Char)}
    (hl : AtLineStart l) (hd : CleanForm d) (hls : ls.map (·.2) = (ofText [] d).map (·.2))
    (hi : ∀ x ∈ ls, ∀ c ∈ x.1, c = ' ' ∨ c = '\t') (hws : ∀ c ∈ ws, c = ' ' ∨ c = '\t')
    (hc : '\n' ∉ c) :
    (∀ w t file, ¬(sequence structParts).Rejects (l ++ comments ls ++ ws) w →
      ∃ s ss as, s.doc = String.ofList d ∧
        (structPattern.findFrom l (comments ls ++ (ws ++ w))).map (structDecl t file) = s :: ss ∧
        (structPattern.findFrom l (comments ls ++ (ws ++ (attributeLine c ++ ws ++ w)))).map
          (structDecl t file) = { s with attributes := as } :: ss.map (StructDecl.moveDown 1)) ∧
    (∀ w file, ¬(sequence functionParts).Rejects (l ++ comments ls ++ ws) w →
      ∃ f fs, f.doc = String.ofList d ∧
        (functionPattern.findFrom l (comments ls ++ (ws ++ w))).map (functionDecl file) = f :: fs ∧
        (functionPattern.findFrom l (comments ls ++ (ws ++ (attributeLine c ++ ws ++ w)))).map
          (functionDecl file) = f :: fs.map (FunctionDecl.moveDown 1)) ∧
    ∀ n r, IsName n → Stops isBlank r → fieldType r ≠ [] →
      ∃ xs ys, (fieldPattern.findFrom l (comments ls ++ (ws ++ ("pub ".toList ++
            (n ++ ": ".toList) ++ r)))).filterMap fieldAt? =
          ⟨String.ofList n, String.ofList (fieldType r), String.ofList d⟩ :: xs ∧
        (fieldPattern.findFrom l (comments ls ++ (ws ++ (attributeLine c ++ ws ++ ("pub ".toList ++
            (n ++ ": ".toList) ++ r))))).filterMap fieldAt? =
          ys ++ ⟨String.ofList n, String.ofList (fieldType r), ""⟩ :: xs ∧
        (¬"pub".toList <:+: comments ls ++ (ws ++ attributeLine c) → ys = []) := by
  have ht : ∀ x ∈ ls, '\n' ∉ x.2 := mem_ofText_of_map_eq hls
  have hclean : clean (comments ls) = d :=
    hd.clean_comments hls fun x hx => ⟨blank_indent (hi x hx), newline_not_mem_indent (hi x hx)⟩
  subst hclean
  refine ⟨?_, ?_, ?_⟩
  · intro w t file hw
    exact exists_structDecl_attributeLine hl hi ht hws hc hw t file
  · intro w file hw
    exact exists_functionDecl_attributeLine hl hi ht hws hc hw file
  · intro n r hn hr htype
    obtain ⟨ys, hys, hpub⟩ := exists_filterMap_attributeLine hws hc hn hr htype l ls
    exact ⟨_, ys, filterMap_findFrom_field hl hi ht hws hn hr htype, hys, hpub⟩

theorem doc_above_inline : CleanForm "d".toList ∧
    (∃ s ss as, s.doc = "d" ∧
      (structPattern.findFrom [] "/// d\npub struct A \x7b\x7d".toList).map (structDecl [] "") =
        s :: ss ∧
      (structPattern.findFrom [] "/// d\n#[inline]\npub struct A \x7b\x7d".toList).map
        (structDecl [] "") = { s with attributes := as } :: ss.map (StructDecl.moveDown 1)) ∧
    (∃ f fs, f.doc = "d" ∧
      (functionPattern.findFrom [] "/// d\nfn f();".toList).map (functionDecl "") = f :: fs ∧
      (functionPattern.findFrom [] "/// d\n#[inline]\nfn f();".toList).map (functionDecl "") =
        f :: fs.map (FunctionDecl.moveDown 1)) ∧
    ∃ xs, (fieldPattern.findFrom [] "/// d\npub x: u8".toList).filterMap fieldAt? =
        ⟨"x", "u8", "d"⟩ :: xs ∧
      (fieldPattern.findFrom [] "/// d\n#[inline]\npub x: u8".toList).filterMap fieldAt? =
        ⟨"x", "u8", ""⟩ :: xs := by
  have hd : CleanForm "d".toList := by decide
  have hindent : ∀ c ∈ ([] : List Char), c = ' ' ∨ c = '\t' := nofun
  have hspace : ∀ c ∈ ([] : List Char), c = ' ' := nofun
  have hattributes : ∀ a ∈ ([] : List String), '\n' ∉ a.toList := nofun
  have hstruct : ¬(sequence structParts).Rejects "/// d\n".toList "pub struct A \x7b\x7d".toList :=
    (takes_structParts (n := ['A']) (x := []) (r := []) hattributes (by decide) nofun).not_rejects
  have hfunction : ¬(sequence functionParts).Rejects "/// d\n".toList "fn f();".toList :=
    (takes_functionParts (f := ⟨"", [], false, [], "f", none, [], none, false⟩) (r := [])
      (by decide +kernel) (.inr (by decide)) hspace (.inr rfl)).not_rejects
  have hlines : (ofText [] "d".toList).map (·.2) = (ofText [] "d".toList).map (·.2) := rfl
  have hleft : ∀ x ∈ ofText [] "d".toList, ∀ c ∈ x.1, c = ' ' ∨ c = '\t' := by
    intro x hx
    rw [fst_of_mem_ofText hx]
    exact hindent
  obtain ⟨h₁, h₂, h₃⟩ :=
    doc_above_attributeLine (l := []) (c := "inline".toList) (.inl rfl) hd hlines
    hleft hindent (by decide)
  obtain ⟨xs, ys, hxs, hys, hpub⟩ := h₃ ['x'] ['u', '8'] (by decide) (.cons rfl _) (by decide)
  obtain rfl := hpub (by decide)
  exact ⟨hd, h₁ _ [] "" hstruct, h₂ _ "" hfunction, xs, hxs, hys⟩

/-- The documentation of a field is lost. -/
theorem structs_fieldAttribute :
    (structs "pub struct A \x7b\n/// d\npub x: u8,\n\x7d" "").map (·.fields) =
    [[⟨"x", "u8", "d"⟩]] ∧
    (structs "pub struct A \x7b\n/// d\n#[inline]\npub x: u8,\n\x7d" "").map (·.fields) =
      [[⟨"x", "u8", ""⟩]] := by
  decide +kernel

end Scan

end RefDoc
