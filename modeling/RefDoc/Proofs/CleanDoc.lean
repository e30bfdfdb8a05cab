import RefDoc.DocComment
import RefDoc.Proofs.Trim

namespace RefDoc

open Text

theorem Text.unlines_cons (x : List Char) {ls : List (List Char)} (h : ls ≠ []) :
    unlines (x :: ls) = x ++ '\n' :: unlines ls := by
  cases ls with
  | nil => exact absurd rfl h
  | cons y ls =>
    rw [unlines, List.intercalate_cons_cons, List.append_assoc, List.singleton_append]
    rfl

theorem Text.unlines_concat {ls : List (List Char)} (h : ls ≠ []) (x : List Char) :
    unlines (ls ++ [x]) = unlines ls ++ '\n' :: x := by
  induction ls with
  | nil => exact absurd rfl h
  | cons y ls ih =>
    cases ls with
    | nil => simp [unlines, List.intercalate]
    | cons z ls =>
      have hne := List.cons_ne_nil z ls
      rw [List.cons_append, unlines_cons y (List.append_ne_nil_of_left_ne_nil hne _),
        unlines_cons y hne, ih hne, List.append_assoc, List.cons_append]

theorem Text.exists_trimStart_unlines (ls : List (List Char)) (h : ∀ x ∈ ls, Trimmed x) :
    ∃ ls', trimStart (unlines ls) = unlines ls' ∧ ls' ⊆ ls := by
  induction ls with
  | nil => exact ⟨[], rfl, List.Subset.refl _⟩
  | cons x ls ih =>
    obtain ⟨hx, hls⟩ := List.forall_mem_cons.mp h
    cases hl : ls with
    | nil =>
      refine ⟨[x], ?_, List.Subset.refl _⟩
      rw [unlines, List.intercalate_singleton]
      exact trimStart_eq_self (trimmed_iff.mp hx).1
    | cons y ys =>
      have hne : ls ≠ [] := by simp [hl]
      rw [← hl]
      cases x with
      | nil =>
        obtain ⟨ls', he, hs⟩ := ih hls
        refine ⟨ls', ?_, List.Subset.trans hs (List.subset_cons_self _ _)⟩
        rw [unlines_cons [] hne, ← he]
        exact trimStart_append (a := ['\n']) blank_newline
      | cons c x =>
        refine ⟨(c :: x) :: ls, ?_, List.Subset.refl _⟩
        apply trimStart_eq_self
        rw [unlines_cons _ hne]
        intro d hd
        exact (trimmed_iff.mp hx).1 d hd

theorem Text.exists_trimEnd_unlines (ls : List (List Char)) (h : ∀ x ∈ ls, Trimmed x) :
    ∃ ls', trimEnd (unlines ls) = unlines ls' ∧ ls' ⊆ ls := by
  induction ls using List.reverseRecOn with
  | nil => exact ⟨[], rfl, List.Subset.refl _⟩
  | append_singleton ls x ih =>
    have hx := h x (List.mem_append_right ls List.mem_cons_self)
    have hls : ∀ y ∈ ls, Trimmed y := fun y hy => h y (List.mem_append_left [x] hy)
    by_cases hne : ls = []
    · subst ls
      refine ⟨[x], ?_, List.Subset.refl _⟩
      rw [List.nil_append, unlines, List.intercalate_singleton]
      exact trimEnd_eq_self (trimmed_iff.mp hx).2
    · rw [unlines_concat hne]
      cases x with
      | nil =>
        obtain ⟨ls', he, hs⟩ := ih hls
        refine ⟨ls', ?_, List.Subset.trans hs (List.subset_append_left _ _)⟩
        rw [← he]
        exact trimEnd_append blank_newline
      | cons c x =>
        refine ⟨ls ++ [c :: x], ?_, List.Subset.refl _⟩
        rw [unlines_concat hne]
        apply trimEnd_eq_self
        intro d hd
        apply (trimmed_iff.mp hx).2
        rw [List.getLast?_append, List.getLast?_cons_cons] at hd
        cases hl : (c :: x).getLast? with
        | none => simp at hl
        | some e =>
          rw [hl] at hd
          exact hd

namespace DocComment

variable {d t x : List Char}

/-- A text as it stands in a catalog: neither the text nor one of its lines has white space at an
end, and no line has a leader. -/
structure IsClean (d : List Char) : Prop where
  trimmed : Trimmed d
  lines : ∀ x ∈ Text.lines d, Trimmed x ∧ hasLeader x = false

theorem IsClean.clean_eq (h : IsClean d) : clean d = d := by
  have hmap : (Text.lines d).map trim = Text.lines d := by
    rw [List.map_congr_left fun x hx => (h.lines x hx).1, List.map_id']
  have hany : (Text.lines d).any hasLeader = false := by
    rw [List.any_eq_false]
    intro x hx
    simp [(h.lines x hx).2]
  simp only [clean, hmap, hany, Bool.false_eq_true, ↓reduceIte, unlines_lines]
  exact h.trimmed

theorem dropLeaders_eq_self (h : hasLeader x = false) : dropLeaders x = x := by
  rw [dropLeaders.eq_def]
  split
  · rw [hasLeader] at h
    rw [h]
    rfl
  · rfl

theorem hasLeader_dropLeaders (x : List Char) : hasLeader (dropLeaders x) = false := by
  fun_induction dropLeaders x with
  | case1 c rest h ih => exact ih
  | case2 c rest h => simpa [hasLeader] using h
  | case3 x h =>
    rw [hasLeader.eq_def]
    split
    · next c rest => exact absurd rfl (h c rest)
    · rfl

theorem trimmed_dropLeaders (h : Trimmed x) : Trimmed (dropLeaders x) := by
  fun_induction dropLeaders x with
  | case1 c rest _ ih => exact ih (trimmed_trim rest)
  | case2 c rest _ => exact h
  | case3 x _ => exact h

theorem mem_of_mem_dropLeaders {c : Char} (h : c ∈ dropLeaders x) : c ∈ x := by
  fun_induction dropLeaders x with
  | case1 d rest _ ih =>
    have hr := mem_of_mem_trim (ih h)
    simp [hr]
  | case2 d rest _ => exact h
  | case3 x _ => exact h

theorem isClean_trim_unlines {ls : List (List Char)}
    (h : ∀ x ∈ ls, Trimmed x ∧ hasLeader x = false ∧ '\n' ∉ x) : IsClean (trim (unlines ls)) := by
  obtain ⟨ls₁, he₁, hs₁⟩ := exists_trimStart_unlines ls fun x hx => (h x hx).1
  obtain ⟨ls₂, he₂, hs₂⟩ := exists_trimEnd_unlines ls₁ fun x hx => (h x (hs₁ hx)).1
  refine ⟨trimmed_trim _, ?_⟩
  rw [trim, he₁, he₂]
  by_cases hne : ls₂ = []
  · subst ls₂
    intro x hx
    obtain rfl := List.mem_singleton.mp hx
    exact ⟨trimmed_nil, rfl⟩
  · rw [lines_unlines hne fun x hx => (h x (hs₁ (hs₂ hx))).2.2]
    intro x hx
    have hx := h x (hs₁ (hs₂ hx))
    exact ⟨hx.1, hx.2.1⟩

theorem isClean_clean (t : List Char) : IsClean (clean t) := by
  have hlines : ∀ x ∈ (Text.lines t).map trim, Trimmed x ∧ '\n' ∉ x := by
    intro x hx
    obtain ⟨y, hy, rfl⟩ := List.mem_map.mp hx
    exact ⟨trimmed_trim y, fun hn => newline_not_mem_of_mem_lines hy (mem_of_mem_trim hn)⟩
  rw [clean]
  apply isClean_trim_unlines
  intro x hx
  split at hx
  · obtain ⟨y, hy, rfl⟩ := List.mem_map.mp hx
    obtain ⟨htrim, hnew⟩ := hlines y (List.mem_filter.mp hy).1
    exact ⟨trimmed_dropLeaders htrim, hasLeader_dropLeaders y,
      fun hn => hnew (mem_of_mem_dropLeaders hn)⟩
  · next hany =>
    obtain ⟨htrim, hnew⟩ := hlines x hx
    rw [List.any_eq_true] at hany
    refine ⟨htrim, ?_, hnew⟩
    cases hl : hasLeader x with
    | false => rfl
    | true => exact absurd ⟨x, hx, hl⟩ hany

theorem hasLeader_iff : hasLeader x = true ↔ "///".toList <+: x ∨ "//!".toList <+: x := by
  rw [hasLeader.eq_def]
  split
  · next c rest => simp [@eq_comm _ c]
  · next h =>
    have hslash : ¬"///".toList <+: x := by
      rintro ⟨rest, rfl⟩
      exact h '/' rest rfl
    have hbang : ¬"//!".toList <+: x := by
      rintro ⟨rest, rfl⟩
      exact h '!' rest rfl
    exact iff_of_false Bool.false_ne_true (not_or_intro hslash hbang)

theorem isClean_iff : IsClean d ↔ Trimmed d ∧
    ∀ x ∈ Text.lines d, Trimmed x ∧ ¬"///".toList <+: x ∧ ¬"//!".toList <+: x := by
  have hline (x : List Char) :
      hasLeader x = false ↔ ¬"///".toList <+: x ∧ ¬"//!".toList <+: x := by
    rw [← Bool.not_eq_true, hasLeader_iff, not_or]
  constructor
  · intro h
    exact ⟨h.trimmed, fun x hx => ⟨(h.lines x hx).1, (hline x).mp (h.lines x hx).2⟩⟩
  · intro h
    exact ⟨h.1, fun x hx => ⟨(h.2 x hx).1, (hline x).mpr (h.2 x hx).2⟩⟩

/-- Cleaning is a projection. The texts that it leaves are those without white space at an end, of
which no line has white space at an end or begins with a leader. -/
theorem clean_projection :
    (∀ t, clean (clean t) = clean t) ∧
    ∀ d, (∃ t, clean t = d) ↔ Trimmed d ∧
      ∀ x ∈ Text.lines d, Trimmed x ∧ ¬"///".toList <+: x ∧ ¬"//!".toList <+: x := by
  constructor
  · intro t
    exact (isClean_clean t).clean_eq
  · intro d
    rw [← isClean_iff]
    constructor
    · rintro ⟨t, rfl⟩
      exact isClean_clean t
    · intro h
      exact ⟨d, h.clean_eq⟩

/-- A line of documentation as it is written in a source: white space, the leader, a space and the
text. -/
def comment (indent text : List Char) : List Char :=
  indent ++ '/' :: '/' :: '/' :: ' ' :: (text ++ ['\n'])

def comments (ls : List (List Char × List Char)) : List Char :=
  ls.flatMap fun l => comment l.1 l.2

theorem lines_comments {ls : List (List Char × List Char)}
    (h : ∀ l ∈ ls, '\n' ∉ l.1 ∧ '\n' ∉ l.2) :
    Text.lines (comments ls) =
      ls.map (fun l => l.1 ++ '/' :: '/' :: '/' :: ' ' :: l.2) ++ [[]] := by
  induction ls with
  | nil => rfl
  | cons l ls ih =>
    obtain ⟨⟨hi, ht⟩, hls⟩ := List.forall_mem_cons.mp h
    have hn : '\n' ∉ l.1 ++ '/' :: '/' :: '/' :: ' ' :: l.2 := by
      simp [hi, ht]
    have hc : comments (l :: ls) =
        l.1 ++ '/' :: '/' :: '/' :: ' ' :: l.2 ++ '\n' :: comments ls := by
      simp [comments, comment]
    rw [hc, lines_append hn, ih hls]
    rfl

theorem clean_comments {ls : List (List Char × List Char)}
    (hindent : ∀ l ∈ ls, Blank l.1 ∧ '\n' ∉ l.1)
    (htext : ∀ l ∈ ls, Trimmed l.2 ∧ hasLeader l.2 = false ∧ '\n' ∉ l.2) :
    clean (comments ls) = trim (unlines (ls.map (·.2))) := by
  have hlines := lines_comments fun l hl => ⟨(hindent l hl).2, (htext l hl).2.2⟩
  have hleader : ∀ l ∈ ls,
      hasLeader (trim (l.1 ++ '/' :: '/' :: '/' :: ' ' :: l.2)) = true ∧
        dropLeaders (trim (l.1 ++ '/' :: '/' :: '/' :: ' ' :: l.2)) = l.2 := by
    intro l hl
    have hleader : Trimmed ['/', '/', '/'] := rfl
    obtain ⟨z, he, hz⟩ := hleader.exists_trim_append (List.cons_ne_nil _ _) (htext l hl).1
      (hindent l hl).1
    change trim (l.1 ++ '/' :: '/' :: '/' :: ' ' :: l.2) = '/' :: '/' :: '/' :: z at he
    rw [he, dropLeaders]
    refine ⟨rfl, ?_⟩
    simp only [BEq.rfl, Bool.true_or, ↓reduceIte, hz]
    exact dropLeaders_eq_self (htext l hl).2.1
  have hkept : ((Text.lines (comments ls)).map trim).filter hasLeader =
      ls.map fun l => trim (l.1 ++ '/' :: '/' :: '/' :: ' ' :: l.2) := by
    rw [hlines, List.map_append, List.map_map, List.filter_append, List.filter_eq_self.mpr]
    · exact List.append_nil _
    · intro x hx
      obtain ⟨l, hl, rfl⟩ := List.mem_map.mp hx
      exact (hleader l hl).1
  have hdrop : (((Text.lines (comments ls)).map trim).filter hasLeader).map dropLeaders =
      ls.map (·.2) := by
    rw [hkept, List.map_map]
    exact List.map_congr_left fun l hl => (hleader l hl).2
  cases ls with
  | nil => rfl
  | cons l ls =>
    have hany : ((Text.lines (comments (l :: ls))).map trim).any hasLeader = true := by
      have hmem : trim (l.1 ++ '/' :: '/' :: '/' :: ' ' :: l.2) ∈
          ((Text.lines (comments (l :: ls))).map trim).filter hasLeader := by
        rw [hkept]
        exact List.mem_cons_self
      obtain ⟨hm, hl⟩ := List.mem_filter.mp hmem
      exact List.any_eq_true.mpr ⟨_, hm, hl⟩
    simp only [clean, hany, ↓reduceIte, hdrop]

/-- A text in the form in which documentation is kept: empty, or made of lines without white space
at their ends and without leaders, of which the first and the last are not empty. -/
def CleanForm (d : List Char) : Prop :=
  d = [] ∨ (∀ x ∈ Text.lines d, Trimmed x ∧ hasLeader x = false) ∧
    (Text.lines d).head? ≠ some [] ∧ (Text.lines d).getLast? ≠ some []

instance (d : List Char) : Decidable (CleanForm d) :=
  inferInstanceAs (Decidable (_ ∨ _))

/-- The lines of documentation for a text, all with one indentation. There are none for the empty
text. -/
def ofText (indent d : List Char) : List (List Char × List Char) :=
  if d = [] then [] else (Text.lines d).map (indent, ·)

theorem CleanForm.trimmed (h : CleanForm d) : Trimmed d := by
  rcases h with rfl | ⟨hlines, hfirst, hlast⟩
  · exact trimmed_nil
  · have hd := unlines_lines d
    generalize Text.lines d = ls at hlines hfirst hlast hd
    subst d
    apply trimmed_iff.mpr
    refine ⟨fun c hc => ?_, fun c hc => ?_⟩
    · cases ls with
      | nil => cases hc
      | cons x ls =>
        cases x with
        | nil => exact absurd rfl hfirst
        | cons b x =>
          apply (trimmed_iff.mp (hlines (b :: x) List.mem_cons_self).1).1
          cases ls with
          | nil => exact hc
          | cons y ls => exact hc
    · induction ls using List.reverseRecOn with
      | nil => cases hc
      | append_singleton ls x _ =>
        have hx := (hlines x (List.mem_append_right ls List.mem_cons_self)).1
        rw [List.getLast?_append] at hlast
        apply (trimmed_iff.mp hx).2
        by_cases hne : ls = []
        · subst ls
          rw [List.nil_append, unlines, List.intercalate_singleton] at hc
          exact hc
        · rw [unlines_concat hne, List.getLast?_append] at hc
          cases x with
          | nil => exact absurd rfl hlast
          | cons b x =>
            rw [List.getLast?_cons_cons, List.getLast?_cons, Option.some_or] at hc
            rw [List.getLast?_cons]
            exact hc

theorem CleanForm.isClean (h : CleanForm d) : IsClean d := by
  refine ⟨h.trimmed, ?_⟩
  rcases h with rfl | ⟨hlines, _⟩
  · intro x hx
    rw [List.mem_singleton.mp hx]
    exact ⟨trimmed_nil, rfl⟩
  · exact hlines

/-- Documentation written line by line, with any indentation of each line, is cleaned to its
text. -/
theorem CleanForm.clean_comments {indent : List Char} {ls : List (List Char × List Char)}
    (h : CleanForm d) (hls : ls.map (·.2) = (ofText indent d).map (·.2))
    (hindent : ∀ l ∈ ls, Blank l.1 ∧ '\n' ∉ l.1) : clean (comments ls) = d := by
  by_cases hd : d = []
  · subst d
    rw [ofText, if_pos rfl, List.map_nil, List.map_eq_nil_iff] at hls
    subst ls
    rfl
  · rw [ofText, if_neg hd, List.map_map] at hls
    change ls.map (·.2) = (Text.lines d).map id at hls
    rw [List.map_id] at hls
    rw [DocComment.clean_comments hindent, hls, unlines_lines]
    · exact h.trimmed
    · intro l hl
      have hmem : l.2 ∈ Text.lines d := hls ▸ List.mem_map_of_mem hl
      have hclean := h.isClean.lines l.2 hmem
      exact ⟨hclean.1, hclean.2, newline_not_mem_of_mem_lines hmem⟩

theorem newline_not_mem_ofText {indent : List Char} {x : List Char × List Char}
    (hx : x ∈ ofText indent d) : '\n' ∉ x.2 := by
  rw [ofText] at hx
  split at hx
  · cases hx
  · obtain ⟨y, hy, rfl⟩ := List.mem_map.mp hx
    exact newline_not_mem_of_mem_lines hy

theorem fst_of_mem_ofText {indent : List Char} {x : List Char × List Char}
    (hx : x ∈ ofText indent d) : x.1 = indent := by
  rw [ofText] at hx
  split at hx
  · cases hx
  · obtain ⟨y, hy, rfl⟩ := List.mem_map.mp hx
    rfl

theorem CleanForm.clean_ofText (h : CleanForm d) : clean (comments (ofText [] d)) = d := by
  apply h.clean_comments rfl
  intro x hx
  rw [fst_of_mem_ofText hx]
  exact ⟨blank_nil, List.not_mem_nil⟩

theorem mem_comments_ofText {indent : List Char} {c : Char} (hc : c ∈ comments (ofText indent d)) :
    c ∈ indent ∨ c ∈ "/// \n".toList ∨ c ∈ d := by
  obtain ⟨x, hx, hc⟩ := List.mem_flatMap.mp hc
  rw [comment, fst_of_mem_ofText hx] at hc
  rw [ofText] at hx
  split at hx
  · cases hx
  · obtain ⟨y, hy, rfl⟩ := List.mem_map.mp hx
    have hd := @mem_of_mem_lines _ _ hy c
    simp only [List.mem_append, List.mem_cons, List.not_mem_nil, or_false] at hc
    simp
    tauto

end DocComment

end RefDoc
