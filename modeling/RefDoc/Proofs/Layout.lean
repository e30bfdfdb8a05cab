import RefDoc.Proofs.Capture
import RefDoc.Proofs.CleanDoc
import RefDoc.Scan.Piece

namespace RefDoc

open Text Pattern DocComment

variable {γ : Type} {p : Pattern γ} {ps : List (Pattern γ)} {l m n r w : List Char}

theorem Pattern.Prefers.skip (hp : Prefers p l m (n ++ r) [])
    (hps : Prefers (sequence ps) (l ++ m) n r []) : Prefers (sequence (p :: ps)) l (m ++ n) r [] :=
  hp.cons hps

theorem Pattern.Prefers.blanks (hm : Blank m) (hr : Stops isBlank r) :
    Prefers (blanks : Pattern γ) l m r [] :=
  .many_char hm hr

theorem Pattern.Prefers.space (hr : Stops isBlank r) :
    Prefers (blanks1 : Pattern γ) l [' '] r [] :=
  .many1_char (List.cons_ne_nil _ _) (blank_spaces (by simp)) hr

theorem Pattern.rejects_blanks {s : String} {c : Char} (hs : s.toList.head? = some c)
    (hc : isBlank c = false) (hw : ¬s.toList <+: trimStart w) :
    (sequence (Pattern.blanks :: literal s :: ps)).Rejects l w := by
  apply Rejects.cons
  intro a b hab ha
  obtain ⟨_, ha⟩ := ha
  apply Rejects.head
  apply rejects_literal
  intro h
  apply hw
  rw [hab, trimStart_append (reads_many_char.mp ha).1, trimStart_eq_self]
  · exact h
  · obtain ⟨b', rfl⟩ := h
    intro d hd
    rw [List.head?_append, hs, Option.some_or] at hd
    cases hd
    exact hc

theorem except_of_not_mem {c : Char} (h : c ∉ w) : ∀ d ∈ w, (!List.contains [c] d) = true := by
  intro d hd
  rw [List.contains_eq_mem, Bool.not_eq_true', decide_eq_false_iff_not, List.mem_singleton]
  intro he
  subst d
  exact h hd

/-- A name: word characters, and at least one. -/
def IsName (n : List Char) : Prop :=
  n ≠ [] ∧ ∀ c ∈ n, isWord c = true

theorem isName_iff {n : List Char} : IsName n ↔ (!n.isEmpty && n.all isWord) = true := by
  simp [IsName]

instance (n : List Char) : Decidable (IsName n) :=
  decidable_of_iff' _ isName_iff

theorem IsName.stops_isBlank {n : List Char} (h : IsName n) (r : List Char) :
    Stops isBlank (n ++ r) := by
  have hn : Stops isBlank n := by
    intro c hc
    exact isBlank_eq_false_of_isWord (h.2 c (List.mem_of_mem_head? hc))
  exact hn.append h.1 r

theorem IsName.prefers {γ : Type} {n : List Char} (h : IsName n) (hr : Stops isWord r) :
    Prefers (word : Pattern γ) l n r [] :=
  .many1_char h.1 h.2 hr

def Begins (cs w : List Char) : Prop :=
  ∃ c z, w = c :: z ∧ c ∈ cs

theorem Begins.append {cs : List Char} (h : Begins cs w) (r : List Char) : Begins cs (w ++ r) := by
  obtain ⟨c, z, rfl, hc⟩ := h
  exact ⟨c, z ++ r, rfl, hc⟩

theorem Begins.mono {cs ds : List Char} (h : Begins cs w) (hcs : ∀ c ∈ cs, c ∈ ds) :
    Begins ds w := by
  obtain ⟨c, z, rfl, hc⟩ := h
  exact ⟨c, z, rfl, hcs c hc⟩

theorem Begins.stops {f : Char → Bool} {cs : List Char} (h : Begins cs w)
    (hcs : ∀ c ∈ cs, f c = false) : Stops f w := by
  obtain ⟨c, z, rfl, hc⟩ := h
  exact .cons (hcs c hc) z

theorem begins_ink {cs : List Char} (hcs : ∀ c ∈ cs, isBlank c = false ∧ c ≠ '/') (w : List Char)
    (h : Begins cs w) : ∃ c w', w = c :: w' ∧ isBlank c = false ∧ c ≠ '/' := by
  obtain ⟨c, z, rfl, hc⟩ := h
  exact ⟨c, z, rfl, hcs c hc⟩

theorem Pattern.rejects_of_not_begins {cs : List Char}
    (hp : ∀ l m r ms, Reads p l m r ms → m = [] ∨ Begins cs m) (hw : ¬Begins cs w)
    (h : (sequence ps).Rejects l w) : (sequence (p :: ps)).Rejects l w := by
  apply Rejects.cons
  intro m r hm ha
  obtain ⟨ms, ha⟩ := ha
  rcases hp l m r ms ha with rfl | hb
  · rw [List.append_nil, ← show w = r from hm]
    exact h
  · exact absurd (hm ▸ hb.append r) hw

theorem Pattern.rejects_literal_of_not_begins {s : String} {cs : List Char}
    (hs : Begins cs s.toList) (hw : ¬Begins cs w) : (literal s : Pattern γ).Rejects l w := by
  apply rejects_literal
  intro h
  obtain ⟨r, rfl⟩ := h
  exact hw (hs.append r)

namespace Scan

def AtLineStart (l : List Char) : Prop :=
  l = [] ∨ l.getLast? = some '\n'

theorem atLineStart_append_comment (l i t : List Char) : AtLineStart (l ++ comment i t) := by
  right
  simp [comment, List.getLast?_append, List.getLast?_cons]

theorem atLineStart_append_comments (hl : AtLineStart l) (ls : List (List Char × List Char)) :
    AtLineStart (l ++ comments ls) := by
  induction ls generalizing l with
  | nil =>
    rw [comments, List.flatMap_nil, List.append_nil]
    exact hl
  | cons x ls ih =>
    have h := ih (atLineStart_append_comment l x.1 x.2)
    rwa [List.append_assoc] at h

theorem not_atLineStart_append {a : List Char} {c : Char} (ha : a.getLast? = some c)
    (hc : c ≠ '\n') (l : List Char) : ¬AtLineStart (l ++ a) := by
  intro h
  rcases h with h | h
  · rw [(List.append_eq_nil_iff.mp h).2] at ha
    cases ha
  · rw [List.getLast?_append, ha] at h
    exact hc (Option.some.inj h)

theorem AtLineStart.of_append {a : List Char} (h : AtLineStart (a ++ l)) : AtLineStart l := by
  by_cases hl : l = []
  · exact .inl hl
  · rcases h with h | h
    · exact absurd (List.append_eq_nil_iff.mp h).2 hl
    · rw [List.getLast?_append_of_ne_nil a hl] at h
      exact .inr h

/-- What stands between a text and the start of the next line. -/
def IsGap (l gap : List Char) : Prop :=
  gap = [] ∧ AtLineStart l ∨ gap = ['\n'] ∧ ¬AtLineStart l

theorem IsGap.atLineStart {gap : List Char} (h : IsGap l gap) : AtLineStart (l ++ gap) := by
  rcases h with ⟨rfl, hl⟩ | ⟨rfl, _⟩
  · rwa [List.append_nil]
  · right
    rw [List.getLast?_append]
    rfl

theorem IsGap.blank {gap : List Char} (h : IsGap l gap) : Blank gap := by
  rcases h with ⟨rfl, _⟩ | ⟨rfl, _⟩
  · exact blank_nil
  · exact blank_newline

theorem blank_indent {i : List Char} (h : ∀ c ∈ i, c = ' ' ∨ c = '\t') : Blank i := by
  intro c hc
  rcases h c hc with rfl | rfl
  · decide
  · decide

theorem newline_not_mem_indent {i : List Char} (h : ∀ c ∈ i, c = ' ' ∨ c = '\t') : '\n' ∉ i := by
  intro hn
  rcases h _ hn with hc | hc
  · cases hc
  · cases hc

theorem reads_docLine {ms : List (Mark γ × Place)} (h : Reads (docLine : Pattern γ) l m r ms) :
    AtLineStart l ∧ ∃ i x, m = i ++ '/' :: '/' :: '/' :: (x ++ ['\n']) ∧
      (∀ c ∈ i, c = ' ' ∨ c = '\t') ∧ '\n' ∉ x := by
  obtain ⟨_, m, _, _, rfl, _, ha, h⟩ := reads_sequence_cons.mp h
  obtain ⟨⟨rfl, hl⟩, _⟩ := reads_anchor.mp ha
  obtain ⟨i, m, _, _, rfl, _, hi, h⟩ := reads_sequence_cons.mp h
  obtain ⟨_, m, _, _, rfl, _, hs, h⟩ := reads_sequence_cons.mp h
  obtain ⟨rfl, _⟩ := (reads_literal _).mp hs
  obtain ⟨x, m, _, _, rfl, _, hx, h⟩ := reads_sequence_cons.mp h
  obtain ⟨e, m, _, _, rfl, _, he, h⟩ := reads_sequence_cons.mp h
  obtain ⟨rfl, _⟩ := (reads_literal _).mp he
  obtain ⟨rfl, _⟩ := reads_sequence_nil.mp h
  refine ⟨hl, i, x, rfl, ?_, ?_⟩
  · intro c hc
    have hf := (reads_many_char.mp hi).1 c hc
    rwa [Bool.or_eq_true, beq_iff_eq, beq_iff_eq] at hf
  · intro hn
    have hf := (reads_many_char.mp hx).1 _ hn
    simp at hf

theorem rejects_docLine (h : ¬AtLineStart l ∨ (trimStart w).head? ≠ some '/') :
    (docLine : Pattern γ).Rejects l w := by
  intro m r hw ha
  obtain ⟨ms, hm⟩ := ha
  obtain ⟨hl, i, x, rfl, hi, _⟩ := reads_docLine hm
  rcases h with h | h
  · exact h hl
  · apply h
    rw [hw, List.append_assoc, trimStart_append (blank_indent hi)]
    rfl

theorem prefers_docLine {i t : List Char} (hl : AtLineStart l)
    (hi : ∀ c ∈ i, c = ' ' ∨ c = '\t') (ht : '\n' ∉ t) :
    Prefers (docLine : Pattern γ) l (comment i t) r [] := by
  have hc : comment i t = [] ++ (i ++ ("///".toList ++ ((' ' :: t) ++ ("\n".toList ++ [])))) := by
    simp [comment]
  rw [hc]
  apply Prefers.skip (.anchor (a := .lineStart) hl)
  apply Prefers.skip
  · apply Prefers.many_char _ (.cons rfl _)
    intro c hc
    rcases hi c hc with rfl | rfl <;> decide
  apply Prefers.skip (.literal _)
  apply Prefers.skip
  · apply Prefers.many_char (except_of_not_mem _) (.cons rfl _)
    simp [ht]
  exact (Prefers.literal "\n").skip .nil

/-- Documentation is taken whole if nothing behind it is documentation too. -/
theorem prefers_docLines {ls : List (List Char × List Char)} (hl : ls = [] ∨ AtLineStart l)
    (hi : ∀ x ∈ ls, ∀ c ∈ x.1, c = ' ' ∨ c = '\t') (ht : ∀ x ∈ ls, '\n' ∉ x.2)
    (hr : (docLine : Pattern γ).Rejects (l ++ comments ls) r) :
    Prefers (docLines : Pattern γ) l (comments ls) r [] := by
  rw [docLines]
  induction ls generalizing l with
  | nil =>
    rw [comments, List.flatMap_nil, List.append_nil] at hr
    exact .stop hr
  | cons x ls ih =>
    have hl : AtLineStart l := by
      rcases hl with h | h
      · cases h
      · exact h
    obtain ⟨hix, hi⟩ := List.forall_mem_cons.mp hi
    obtain ⟨htx, ht⟩ := List.forall_mem_cons.mp ht
    have hc : comments (x :: ls) = comment x.1 x.2 ++ comments ls := rfl
    rw [hc] at hr ⊢
    rw [← List.append_assoc] at hr
    have hne : comment x.1 x.2 ≠ [] := by simp [comment]
    have hx : Prefers (docLine : Pattern γ) l (comment x.1 x.2) (comments ls ++ r) [] :=
      prefers_docLine hl hix htx
    exact hx.round hne (ih (.inr (atLineStart_append_comment _ _ _)) hi ht hr)

def attributeLine (c : List Char) : List Char :=
  '#' :: '[' :: (c ++ [']', '\n'])

theorem reads_attributePart {ms : List (Mark γ × Place)}
    (h : Reads (attributePart : Pattern γ) l m r ms) :
    ∃ x ws, m = '#' :: '[' :: (x ++ ']' :: ws) ∧ '\n' ∉ x ∧ Blank ws := by
  obtain ⟨_, m, _, _, rfl, _, hs, h⟩ := reads_sequence_cons.mp h
  obtain ⟨rfl, _⟩ := (reads_literal _).mp hs
  obtain ⟨x, m, _, _, rfl, _, hx, h⟩ := reads_sequence_cons.mp h
  obtain ⟨_, m, _, _, rfl, _, he, h⟩ := reads_sequence_cons.mp h
  obtain ⟨rfl, _⟩ := (reads_literal _).mp he
  obtain ⟨ws, m, _, _, rfl, _, hws, h⟩ := reads_sequence_cons.mp h
  obtain ⟨rfl, _⟩ := reads_sequence_nil.mp h
  refine ⟨x, ws, by simp, ?_, (reads_many_char.mp hws).1⟩
  intro hn
  have hf := (reads_many_char.mp hx).1 _ hn
  simp at hf

theorem begins_of_reads_attributes {ms : List (Mark γ × Place)} {cs : List Char}
    (h : Reads (attributes : Pattern γ) l m r ms) (hcs : '#' ∈ cs) : m = [] ∨ Begins cs m := by
  rw [attributes] at h
  rcases reads_many.mp h with ⟨rfl, _⟩ | ⟨a, b, _, _, rfl, _, ha, _⟩
  · exact .inl rfl
  · obtain ⟨_, _, _, _, rfl, _, hs, _⟩ := reads_sequence_cons.mp ha
    obtain ⟨rfl, _⟩ := (reads_literal _).mp hs
    exact .inr ⟨'#', _, rfl, hcs⟩

theorem prefers_attributePart_append {c ws : List Char} (hc : '\n' ∉ c) (hws : Blank ws)
    (hr : Stops isBlank r) :
    Prefers (attributePart : Pattern γ) l (attributeLine c ++ ws) r [] := by
  have ha : attributeLine c ++ ws =
      "#[".toList ++ (c ++ ("]".toList ++ ((['\n'] ++ ws) ++ []))) := by
    simp [attributeLine]
  rw [ha]
  apply Prefers.skip (.literal _)
  apply Prefers.greedy (except_of_not_mem hc)
  · apply Prefers.skip (.literal _)
    exact .skip (.blanks (blank_newline.append hws) hr) .nil
  · intro a b he ha hf
    -- Only the bracket itself stands between the content and the end of the line.
    obtain ⟨x, a, rfl⟩ := List.exists_cons_of_ne_nil ha
    have hx : ']' :: '\n' :: (ws ++ [] ++ r) = x :: (a ++ b) := he
    obtain ⟨rfl, hab⟩ := List.cons.inj hx
    cases a with
    | nil =>
      apply Rejects.head
      apply rejects_literal
      rw [List.nil_append] at hab
      rw [← hab]
      simp
    | cons y a =>
      obtain ⟨rfl, _⟩ := List.cons.inj hab
      have hy := hf '\n' (by simp)
      simp at hy

theorem prefers_attributePart {c : List Char} (hc : '\n' ∉ c) (hr : Stops isBlank r) :
    Prefers (attributePart : Pattern γ) l (attributeLine c) r [] := by
  have h := prefers_attributePart_append (γ := γ) (l := l) hc blank_nil hr
  rwa [List.append_nil] at h

theorem prefers_attributes {cs : List String} {ds : List Char} (hcs : ∀ c ∈ cs, '\n' ∉ c.toList)
    (hr : Begins ds r) (hds : ∀ d ∈ ds, d ≠ '#' ∧ isBlank d = false) :
    Prefers (attributes : Pattern γ) l (cs.flatMap (attributeLine ·.toList)) r [] := by
  rw [attributes]
  obtain ⟨d, r, rfl, hd⟩ := hr
  obtain ⟨hd, hb⟩ := hds d hd
  induction cs generalizing l with
  | nil =>
    apply Prefers.stop
    apply Rejects.head
    apply rejects_literal
    simp [Ne.symm hd]
  | cons c cs ih =>
    obtain ⟨hc, hcs⟩ := List.forall_mem_cons.mp hcs
    have hne : attributeLine c.toList ≠ [] := by simp [attributeLine]
    have hx : Prefers (attributePart : Pattern γ) l (attributeLine c.toList)
        (cs.flatMap (attributeLine ·.toList) ++ d :: r) [] := by
      apply prefers_attributePart hc
      cases cs with
      | nil => exact .cons hb r
      | cons c' cs => exact .cons rfl _
    rw [List.flatMap_cons]
    exact hx.round hne (ih hcs)

end Scan

end RefDoc
