import RefDoc.Proofs.Grammar
import RefDoc.Scan.Source

namespace RefDoc

variable {γ : Type} {p : Pattern γ} {l m r t : List Char} {f : Found γ}

theorem Place.exists_between_of_mem {x : Place} (h : x ∈ placesFrom l r) :
    ∃ a b, r = a ++ b ∧ x = between (l ++ a) b := by
  induction r generalizing l with
  | nil =>
    rw [placesFrom_nil, List.mem_singleton] at h
    exact ⟨[], [], rfl, by rw [h, List.append_nil]⟩
  | cons c r ih =>
    rw [placesFrom_cons, List.mem_cons] at h
    rcases h with h | h
    · exact ⟨[], c :: r, rfl, by rw [h, List.append_nil]⟩
    · obtain ⟨a, b, rfl, rfl⟩ := ih h
      exact ⟨c :: a, b, rfl, by rw [List.append_assoc, List.singleton_append]⟩

/-- The match is a reading of the pattern off a part of the text. -/
def Found.IsReading (f : Found γ) (p : Pattern γ) (t : List Char) : Prop :=
  ∃ l m r, t = l ++ m ++ r ∧ f.start = .between l (m ++ r) ∧ f.stop = .between (l ++ m) r ∧
    p.Reads l m r f.marks

def Found.span (f : Found γ) : Nat × Nat :=
  (f.start.index, f.stop.index)

namespace Pattern

theorem disjointFrom_subset (i : Nat) (fs : List (Found γ)) : disjointFrom i fs ⊆ fs := by
  induction fs generalizing i with
  | nil => exact List.Subset.refl _
  | cons f fs ih =>
    rw [disjointFrom]
    split
    · exact List.Subset.trans (ih i) (List.subset_cons_self f fs)
    · exact List.cons_subset_cons f (ih _)

theorem disjointFrom_eq_of_le {i j : Nat} {fs : List (Found γ)}
    (hi : ∀ f ∈ fs, i ≤ f.start.index) (hj : ∀ f ∈ fs, j ≤ f.start.index) :
    disjointFrom i fs = disjointFrom j fs := by
  cases fs with
  | nil => rfl
  | cons f fs =>
    have hfi := hi f List.mem_cons_self
    have hfj := hj f List.mem_cons_self
    rw [disjointFrom, disjointFrom, if_neg (Nat.not_lt.mpr hfi), if_neg (Nat.not_lt.mpr hfj)]

theorem disjointFrom_append_of_lt {i : Nat} {fs : List (Found γ)} (gs : List (Found γ))
    (h : ∀ f ∈ fs, f.start.index < i) : disjointFrom i (fs ++ gs) = disjointFrom i gs := by
  induction fs with
  | nil => rfl
  | cons f fs ih =>
    obtain ⟨hf, hfs⟩ := List.forall_mem_cons.mp h
    rw [List.cons_append, disjointFrom, if_pos hf, ih hfs]

theorem start_of_foundAt? {x : Place} (h : p.foundAt? x = some f) : f.start = x := by
  simp only [foundAt?, Option.map_eq_some_iff] at h
  obtain ⟨s, _, rfl⟩ := h
  rfl

/-- What the search finds in the text `l ++ r` from the place behind `l` on. -/
def findFrom (p : Pattern γ) (l r : List Char) : List (Found γ) :=
  disjointFrom l.length ((Place.placesFrom l r).filterMap p.foundAt?)

theorem findAll_eq_findFrom (p : Pattern γ) (t : List Char) : p.findAll t = p.findFrom [] t := by
  rw [findAll, candidates_eq_filterMap, Place.ascending_eq_placesFrom]
  rfl

theorem findFrom_nil (h : p.Rejects l []) : p.findFrom l [] = [] := by
  simp only [findFrom, Place.placesFrom_nil, List.filterMap_cons, foundAt?_eq_none_iff.mpr h,
    List.filterMap_nil, disjointFrom]

theorem findFrom_cons {c : Char} (h : p.Rejects l (c :: r)) :
    p.findFrom l (c :: r) = p.findFrom (l ++ [c]) r := by
  have hle : ∀ f ∈ (Place.placesFrom (l ++ [c]) r).filterMap p.foundAt?,
      (l ++ [c]).length ≤ f.start.index := by
    intro f hf
    obtain ⟨x, hx, hfx⟩ := List.mem_filterMap.mp hf
    rw [start_of_foundAt? hfx]
    exact Place.length_le_of_mem_placesFrom hx
  simp only [findFrom, Place.placesFrom_cons, List.filterMap_cons, foundAt?_eq_none_iff.mpr h]
  apply disjointFrom_eq_of_le _ hle
  intro f hf
  have hl := hle f hf
  rw [List.length_append] at hl
  omega

theorem findFrom_append {w : List Char}
    (h : ∀ a c b, w = a ++ c :: b → p.Rejects (l ++ a) (c :: b ++ r)) :
    p.findFrom l (w ++ r) = p.findFrom (l ++ w) r := by
  induction w generalizing l with
  | nil => rw [List.nil_append, List.append_nil]
  | cons c w ih =>
    have hc : p.Rejects l (c :: (w ++ r)) := by
      simpa only [List.append_nil, List.cons_append] using h [] c w rfl
    rw [List.cons_append, findFrom_cons hc, ih, List.append_assoc, List.singleton_append]
    intro a d b hw
    rw [List.append_assoc, List.singleton_append]
    exact h (c :: a) d b (by rw [hw, List.cons_append])

theorem findFrom_of_foundAt? (h : p.foundAt? (.between l (m ++ r)) = some f)
    (hs : f.stop = .between (l ++ m) r) (hm : m ≠ []) :
    p.findFrom l (m ++ r) = f :: p.findFrom (l ++ m) r := by
  cases m with
  | nil => exact absurd rfl hm
  | cons c m =>
    obtain ⟨xs, hxs, hlt⟩ := Place.placesFrom_append (l ++ [c]) m r
    have hf : ¬f.start.index < l.length := by
      rw [start_of_foundAt? h]
      exact Nat.lt_irrefl _
    rw [List.cons_append] at h
    rw [List.append_assoc, List.singleton_append] at hxs
    rw [findFrom, List.cons_append, Place.placesFrom_cons, List.filterMap_cons, h, disjointFrom,
      if_neg hf, hs, hxs, List.filterMap_append]
    rw [disjointFrom_append_of_lt, findFrom]
    · rfl
    · intro g hg
      obtain ⟨x, hx, hgx⟩ := List.mem_filterMap.mp hg
      have hl := hlt x hx
      rw [start_of_foundAt? hgx, Place.between_index]
      simp only [List.length_append, List.length_cons, List.length_nil] at hl ⊢
      omega

theorem exists_of_mem_candidates (h : f ∈ p.candidates t) :
    ∃ l w, t = l ++ w ∧ p.foundAt? (.between l w) = some f := by
  rw [candidates_eq_filterMap, Place.ascending_eq_placesFrom] at h
  obtain ⟨x, hx, hfx⟩ := List.mem_filterMap.mp h
  obtain ⟨l, w, rfl, rfl⟩ := Place.exists_between_of_mem hx
  exact ⟨l, w, rfl, hfx⟩

theorem isReading_of_mem_candidates (h : f ∈ p.candidates t) : f.IsReading p t := by
  obtain ⟨l, w, rfl, hfx⟩ := exists_of_mem_candidates h
  obtain ⟨m, r, rfl, hm, hstart, hstop⟩ := reads_of_foundAt? hfx
  exact ⟨l, m, r, by rw [List.append_assoc], hstart, hstop, hm⟩

theorem isReading_of_mem_findAll (h : f ∈ p.findAll t) : f.IsReading p t :=
  isReading_of_mem_candidates (disjointFrom_subset _ _ h)

theorem isReading_of_find? (h : p.find? t = some f) : f.IsReading p t :=
  isReading_of_mem_candidates (List.mem_of_mem_head? h)

/-- The pattern can be read off the text from the offset `b` up to the offset `e`, in the context
that the rest of the text gives. -/
def MatchesAt (p : Pattern γ) (t : List Char) (b e : Nat) : Prop :=
  b ≤ e ∧ e ≤ t.length ∧ p.Accepts (t.take b) ((t.take e).drop b) (t.drop e)

/-- The spans, from the offset `i` on, are those of matches, each of which starts at the first
offset behind the one before where there is a match, and behind the last no match starts. -/
def LeftmostSpans (p : Pattern γ) (t : List Char) : Nat → List (Nat × Nat) → Prop
  | i, [] => ∀ b e, i ≤ b → ¬p.MatchesAt t b e
  | i, (b, e) :: spans =>
    i ≤ b ∧ p.MatchesAt t b e ∧ (∀ b' e', i ≤ b' → b' < b → ¬p.MatchesAt t b' e') ∧
      p.LeftmostSpans t e spans

theorem matchesAt_append :
    p.MatchesAt (l ++ m ++ r) l.length (l ++ m).length ↔ p.Accepts l m r := by
  have he : (l ++ m).length ≤ (l ++ m ++ r).length := by
    simp only [List.length_append]
    omega
  have hb : l.length ≤ (l ++ m).length := by
    rw [List.length_append]
    exact Nat.le_add_right _ _
  have ht : (l ++ m ++ r).take l.length = l := by rw [List.append_assoc, List.take_left]
  simp only [MatchesAt, he, hb, true_and, ht, List.take_left, List.drop_left]

theorem Rejects.not_matchesAt (h : p.Rejects l r) (e : Nat) : ¬p.MatchesAt (l ++ r) l.length e := by
  intro h'
  obtain ⟨hb, he, ha⟩ := h'
  rw [List.length_append] at he
  have hr : r = ((l ++ r).take e).drop l.length ++ (l ++ r).drop e := by
    rw [List.take_append, List.take_of_length_le hb, List.drop_left, List.drop_append,
      List.drop_of_length_le hb, List.nil_append, List.take_append_drop]
  rw [List.take_left] at ha
  exact h _ _ hr ha

theorem LeftmostSpans.of_succ {i : Nat} {spans : List (Nat × Nat)}
    (h : p.LeftmostSpans t (i + 1) spans) (hi : ∀ e, ¬p.MatchesAt t i e) :
    p.LeftmostSpans t i spans := by
  cases spans with
  | nil =>
    intro b e hb
    rcases Nat.eq_or_lt_of_le hb with rfl | hb
    · exact hi e
    · exact h b e hb
  | cons s spans =>
    obtain ⟨hs, hm, hgap, hrest⟩ := h
    refine ⟨Nat.le_of_succ_le hs, hm, ?_, hrest⟩
    intro b e hb hlt
    rcases Nat.eq_or_lt_of_le hb with rfl | hb
    · exact hi e
    · exact hgap b e hb hlt

/-- The search finds the leftmost matches that do not overlap, if no match is empty. -/
theorem leftmostSpans_findFrom (hp : ∀ l r, ¬p.Accepts l [] r) (l r : List Char) :
    p.LeftmostSpans (l ++ r) l.length ((p.findFrom l r).map Found.span) := by
  induction hn : r.length using Nat.strongRecOn generalizing l r with
  | ind N ih =>
    subst hn
    cases hf : p.foundAt? (.between l r) with
    | none =>
      have hr := foundAt?_eq_none_iff.mp hf
      cases r with
      | nil =>
        rw [findFrom_nil hr]
        intro b e hb hm
        obtain rfl : b = l.length := by
          obtain ⟨hbe, he, _⟩ := hm
          rw [List.append_nil] at he
          omega
        exact hr.not_matchesAt e hm
      | cons c r =>
        have hrest := ih r.length (Nat.lt_succ_self _) (l ++ [c]) r rfl
        rw [List.append_assoc, List.singleton_append, List.length_append] at hrest
        rw [findFrom_cons hr]
        exact hrest.of_succ hr.not_matchesAt
    | some f =>
      obtain ⟨m, r, rfl, hm, hstart, hstop⟩ := reads_of_foundAt? hf
      have hne : m ≠ [] := by
        intro he
        subst m
        exact hp l r ⟨_, hm⟩
      have hlt : r.length < (m ++ r).length := by
        have hpos := List.length_pos_iff.mpr hne
        rw [List.length_append]
        omega
      have hrest := ih r.length hlt (l ++ m) r rfl
      rw [findFrom_of_foundAt? hf hstop hne, List.map_cons, Found.span, hstart, hstop,
        ← List.append_assoc]
      refine ⟨Nat.le_refl _, matchesAt_append.mpr ⟨_, hm⟩, ?_, hrest⟩
      intro b e hb hlt
      exact absurd hlt (Nat.not_lt.mpr hb)

theorem not_accepts_nil_of_literal {ps : List (Pattern γ)} {s : String} (hs : literal s ∈ ps)
    (hne : s.toList ≠ []) (l r : List Char) : ¬(sequence ps).Accepts l [] r := by
  intro ha
  obtain ⟨ms, h⟩ := ha
  obtain ⟨a, m, b, as, hw, hm⟩ := h.part hs
  obtain ⟨rfl, _⟩ := (reads_literal s).mp hm
  simp only [List.nil_eq, List.append_eq_nil_iff] at hw
  exact hne hw.1.2

end Pattern

namespace Scan

open Pattern

theorem not_accepts_fieldPattern (l r : List Char) : ¬fieldPattern.Accepts l [] r :=
  not_accepts_nil_of_literal (s := "pub") (by simp [fieldParts]) (by simp) l r

theorem not_accepts_structParts (l r : List Char) : ¬(sequence structParts).Accepts l [] r :=
  not_accepts_nil_of_literal (s := "pub") (by simp [structParts]) (by simp) l r

theorem not_accepts_structPattern (l r : List Char) : ¬structPattern.Accepts l [] r :=
  not_accepts_nil_of_literal (s := "pub") (by simp [structParts]) (by simp) l r

theorem not_accepts_functionParts (l r : List Char) : ¬(sequence functionParts).Accepts l [] r :=
  not_accepts_nil_of_literal (s := "fn") (by simp [functionParts, signatureParts]) (by simp) l r

theorem not_accepts_functionPattern (l r : List Char) : ¬functionPattern.Accepts l [] r :=
  not_accepts_nil_of_literal (s := "fn") (by simp [functionParts, signatureParts]) (by simp) l r

theorem not_accepts_sizePattern (n l r : List Char) : ¬(sizePattern n).Accepts l [] r :=
  not_accepts_nil_of_literal (s := "impl") (by simp [implParts]) (by simp) l r

/-- The records of a scan are, one for one and in order, read off the leftmost parts of the source
that the pattern of a declaration accepts and that do not overlap. -/
theorem scan_leftmost (text file : String) :
    (∃ found : List (Found StructPart),
      structs text file = found.map (structDecl text.toList file) ∧
      (∀ f ∈ found, f.IsReading structPattern text.toList) ∧
      structPattern.LeftmostSpans text.toList 0 (found.map Found.span)) ∧
    ∃ found : List (Found FunctionPart),
      functions text file = found.map (functionDecl file) ∧
      (∀ f ∈ found, f.IsReading functionPattern text.toList) ∧
      functionPattern.LeftmostSpans text.toList 0 (found.map Found.span) := by
  refine ⟨⟨structPattern.findAll text.toList, rfl, fun f => isReading_of_mem_findAll, ?_⟩,
    functionPattern.findAll text.toList, rfl, fun f => isReading_of_mem_findAll, ?_⟩
  · rw [findAll_eq_findFrom]
    exact leftmostSpans_findFrom not_accepts_structPattern [] text.toList
  · rw [findAll_eq_findFrom]
    exact leftmostSpans_findFrom not_accepts_functionPattern [] text.toList

end Scan

end RefDoc
