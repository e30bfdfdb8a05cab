import RefDoc.Proofs.Reading
import RefDoc.Proofs.Trim

namespace RefDoc.Pattern

variable {γ : Type} {p q : Pattern γ} {ps qs : List (Pattern γ)} {l m n r w : List Char}
  {ms ns : List (Mark γ × Place)} {f : Char → Bool}

theorem reads_foldl_seq :
    Reads (ps.foldl .seq q) l w r ms ↔ ∃ m n as bs, w = m ++ n ∧ ms = as ++ bs ∧
      Reads q l m (n ++ r) as ∧ Reads (sequence ps) (l ++ m) n r bs := by
  induction ps generalizing q l w ms with
  | nil =>
    refine ⟨fun h => ?_, fun h => ?_⟩
    · exact ⟨w, [], ms, [], by simp, by simp, h, .empty _ _⟩
    · obtain ⟨m, n, as, bs, rfl, rfl, hq, h⟩ := h
      obtain ⟨rfl, rfl⟩ := reads_empty.mp h
      simpa only [List.append_nil, List.nil_append, List.foldl_nil] using hq
  | cons p ps ih =>
    rw [List.foldl_cons, ih]
    refine ⟨fun h => ?_, fun h => ?_⟩
    · obtain ⟨_, n, _, bs, rfl, rfl, h, hps⟩ := h
      obtain ⟨m, m', as, as', rfl, rfl, hq, hp⟩ := reads_seq.mp h
      refine ⟨m, m' ++ n, as, as' ++ bs, by simp, by simp, by simpa using hq, ?_⟩
      rw [sequence, List.foldl_cons, ih]
      refine ⟨m', n, as', bs, rfl, rfl, .seq (.empty _ _) ?_, by simpa using hps⟩
      simpa using hp
    · obtain ⟨m, _, as, _, rfl, rfl, hq, h⟩ := h
      rw [sequence, List.foldl_cons, ih] at h
      obtain ⟨_, n, _, bs, rfl, rfl, h, hps⟩ := h
      obtain ⟨_, m', _, as', rfl, rfl, he, hp⟩ := reads_seq.mp h
      obtain ⟨rfl, rfl⟩ := reads_empty.mp he
      refine ⟨m ++ m', n, as ++ as', bs, by simp, by simp, .seq (by simpa using hq) ?_, ?_⟩
      · simpa using hp
      · simpa using hps

theorem sequence_concat (ps : List (Pattern γ)) (p : Pattern γ) :
    sequence (ps ++ [p]) = .seq (sequence ps) p :=
  List.foldl_concat ..

theorem reads_sequence_nil : Reads (sequence []) l m r ms ↔ m = [] ∧ ms = [] :=
  reads_empty

theorem reads_sequence_cons :
    Reads (sequence (p :: ps)) l w r ms ↔ ∃ m n as bs, w = m ++ n ∧ ms = as ++ bs ∧
      Reads p l m (n ++ r) as ∧ Reads (sequence ps) (l ++ m) n r bs := by
  rw [sequence, List.foldl_cons, reads_foldl_seq]
  refine ⟨fun h => ?_, fun h => ?_⟩
  · obtain ⟨_, n, _, bs, rfl, rfl, h, hps⟩ := h
    obtain ⟨_, m, _, as, rfl, rfl, he, hp⟩ := reads_seq.mp h
    obtain ⟨rfl, rfl⟩ := reads_empty.mp he
    exact ⟨m, n, as, bs, rfl, rfl, by simpa using hp, hps⟩
  · obtain ⟨m, n, as, bs, rfl, rfl, hp, hps⟩ := h
    exact ⟨m, n, as, bs, rfl, rfl, .seq (.empty _ _) (by simpa using hp), hps⟩

theorem reads_sequence_append :
    Reads (sequence (ps ++ qs)) l w r ms ↔ ∃ m n as bs, w = m ++ n ∧ ms = as ++ bs ∧
      Reads (sequence ps) l m (n ++ r) as ∧ Reads (sequence qs) (l ++ m) n r bs := by
  rw [sequence, List.foldl_append, reads_foldl_seq]
  rfl

theorem reads_charList (cs : List Char) :
    Reads (charList cs : Pattern γ) l m r ms ↔ m = cs ∧ ms = [] := by
  induction cs generalizing l m ms with
  | nil => exact reads_empty
  | cons c cs ih =>
    have ih' {l m ms} : Reads (sequence (cs.map fun c => .char (· == c)) : Pattern γ) l m r ms ↔
      m = cs ∧ ms = [] := ih
    simp only [charList, List.map_cons, reads_sequence_cons, ih', reads_char, beq_iff_eq]
    refine ⟨fun h => ?_, fun h => ?_⟩
    · obtain ⟨_, _, _, _, rfl, rfl, ⟨⟨c', rfl, rfl⟩, rfl⟩, rfl, rfl⟩ := h
      exact ⟨rfl, rfl⟩
    · obtain ⟨rfl, rfl⟩ := h
      exact ⟨[c], cs, [], [], rfl, rfl, ⟨⟨c, rfl, rfl⟩, rfl⟩, rfl, rfl⟩

theorem reads_literal (s : String) :
    Reads (literal s : Pattern γ) l m r ms ↔ m = s.toList ∧ ms = [] :=
  reads_charList s.toList

theorem reads_many_char :
    Reads (.many (.char f) : Pattern γ) l m r ms ↔ (∀ c ∈ m, f c = true) ∧ ms = [] := by
  induction m generalizing l ms with
  | nil =>
    refine ⟨fun h => ?_, fun h => ?_⟩
    · refine ⟨by simp, ?_⟩
      rcases reads_many.mp h with ⟨_, rfl⟩ | ⟨m, n, as, bs, hw, _, hc, _⟩
      · rfl
      · obtain ⟨⟨c, rfl, _⟩, _⟩ := reads_char.mp hc
        cases hw
    · obtain ⟨_, rfl⟩ := h
      exact .stop _ _ _
  | cons c m ih =>
    refine ⟨fun h => ?_, fun h => ?_⟩
    · rcases reads_many.mp h with ⟨hw, _⟩ | ⟨_, n, as, bs, hw, rfl, hc, hn⟩
      · cases hw
      · obtain ⟨⟨c', rfl, hf⟩, rfl⟩ := reads_char.mp hc
        cases hw
        obtain ⟨ha, rfl⟩ := ih.mp hn
        exact ⟨List.forall_mem_cons.mpr ⟨hf, ha⟩, rfl⟩
    · obtain ⟨ha, rfl⟩ := h
      obtain ⟨hf, ha⟩ := List.forall_mem_cons.mp ha
      have hc : Reads (.char f : Pattern γ) l [c] (m ++ r) [] := .char _ _ hf
      exact hc.round (ih.mpr ⟨ha, rfl⟩)

theorem reads_many1_char :
    Reads (many1 (.char f) : Pattern γ) l m r ms ↔
      (m ≠ [] ∧ ∀ c ∈ m, f c = true) ∧ ms = [] := by
  rw [many1, reads_seq]
  refine ⟨fun h => ?_, fun h => ?_⟩
  · obtain ⟨_, n, _, bs, rfl, rfl, hc, hn⟩ := h
    obtain ⟨⟨c, rfl, hf⟩, rfl⟩ := reads_char.mp hc
    obtain ⟨ha, rfl⟩ := reads_many_char.mp hn
    exact ⟨⟨by simp, List.forall_mem_cons.mpr ⟨hf, ha⟩⟩, rfl⟩
  · obtain ⟨⟨hne, ha⟩, rfl⟩ := h
    cases m with
    | nil => exact absurd rfl hne
    | cons c m =>
      obtain ⟨hf, ha⟩ := List.forall_mem_cons.mp ha
      exact ⟨[c], m, [], [], rfl, rfl, .char _ _ hf, reads_many_char.mpr ⟨ha, rfl⟩⟩

theorem reads_maybe :
    Reads (maybe p) l m r ms ↔ Reads p l m r ms ∨ m = [] ∧ ms = [] := by
  rw [maybe, reads_alt, reads_empty]

def marks : Pattern γ → List (Mark γ)
  | .mark g => [g]
  | .seq p q => p.marks ++ q.marks
  | .alt p q => p.marks ++ q.marks
  | .many p => p.marks
  | .manyLazy p => p.marks
  | .empty => []
  | .char _ => []
  | .anchor _ => []

theorem marks_sequence (ps : List (Pattern γ)) : (sequence ps).marks = ps.flatMap marks := by
  have hfoldl (q : Pattern γ) : (ps.foldl .seq q).marks = q.marks ++ ps.flatMap marks := by
    induction ps generalizing q with
    | nil => rw [List.foldl_nil, List.flatMap_nil, List.append_nil]
    | cons p ps ih => rw [List.foldl_cons, ih, marks, List.flatMap_cons, List.append_assoc]
  exact hfoldl .empty

theorem marks_charList (cs : List Char) : (charList cs : Pattern γ).marks = [] := by
  rw [charList, marks_sequence, List.flatMap_map]
  exact List.flatMap_eq_nil_iff.mpr fun c _ => rfl

theorem Reads.mem_marks (h : Reads p l m r ms) : ∀ x ∈ ms, x.1 ∈ p.marks := by
  induction h with
  | empty => simp
  | char => simp
  | anchor => simp
  | mark g => simp [marks]
  | seq _ _ ihp ihq =>
    intro x hx
    rcases List.mem_append.mp hx with hx | hx
    · exact List.mem_append_left _ (ihp x hx)
    · exact List.mem_append_right _ (ihq x hx)
  | left q _ ih => exact fun x hx => List.mem_append_left _ (ih x hx)
  | right p _ ih => exact fun x hx => List.mem_append_right _ (ih x hx)
  | stop => simp
  | round _ _ ihp ih =>
    intro x hx
    rcases List.mem_append.mp hx with hx | hx
    · exact ihp x hx
    · exact ih x hx
  | manyLazy _ ih => exact ih

theorem Reads.eq_nil_of_marks (h : Reads p l m r ms) (hp : p.marks = []) : ms = [] := by
  have hm := h.mem_marks
  rw [hp] at hm
  exact List.eq_nil_iff_forall_not_mem.mpr fun x hx => List.not_mem_nil (hm x hx)

def captured (g : γ) (l m r : List Char) : List (Mark γ × Place) :=
  [(.opening g, .between l (m ++ r)), (.closing g, .between (l ++ m) r)]

theorem reads_group {g : γ} (hp : p.marks = []) :
    Reads (group g p) l m r ms ↔ Reads p l m r [] ∧ ms = captured g l m r := by
  simp only [group, reads_sequence_cons, reads_sequence_nil, reads_mark]
  refine ⟨fun h => ?_, fun h => ?_⟩
  · obtain ⟨_, _, _, _, rfl, rfl, ⟨rfl, rfl⟩, m, _, ms, _, rfl, rfl, hm, _, _, _, _, rfl, rfl,
      ⟨rfl, rfl⟩, rfl, rfl⟩ := h
    obtain rfl := hm.eq_nil_of_marks hp
    exact ⟨by simpa using hm, by simp [captured]⟩
  · obtain ⟨hm, rfl⟩ := h
    exact ⟨[], m, _, _, rfl, by simp [captured], ⟨rfl, rfl⟩, m, [], [], _, by simp, rfl,
      by simpa using hm, [], [], _, [], rfl, rfl, ⟨rfl, rfl⟩, rfl, rfl⟩

theorem Reads.part (h : Reads (sequence ps) l w r ms) (hp : p ∈ ps) :
    ∃ a m b as, w = a ++ m ++ b ∧ Reads p (l ++ a) m (b ++ r) as := by
  induction ps generalizing l w ms with
  | nil => cases hp
  | cons q ps ih =>
    obtain ⟨m, n, as, bs, rfl, rfl, hq, hps⟩ := reads_sequence_cons.mp h
    rcases List.mem_cons.mp hp with rfl | hp
    · exact ⟨[], m, n, as, rfl, by simpa using hq⟩
    · obtain ⟨a, m', b, cs, rfl, hm'⟩ := ih hps hp
      exact ⟨m ++ a, m', b, cs, by simp, by simpa using hm'⟩

theorem Rejects.cons (h : ∀ m r, w = m ++ r → p.Accepts l m r → (sequence ps).Rejects (l ++ m) r) :
    (sequence (p :: ps)).Rejects l w := by
  intro w' r hw ha
  obtain ⟨ms, hr⟩ := ha
  obtain ⟨m, n, as, bs, rfl, rfl, hp, hps⟩ := reads_sequence_cons.mp hr
  rw [List.append_assoc] at hw
  exact h m (n ++ r) hw ⟨as, hp⟩ n r rfl ⟨bs, hps⟩

theorem Rejects.head (h : p.Rejects l w) : (sequence (p :: ps)).Rejects l w :=
  .cons fun m r hw ha => absurd ha (h m r hw)

theorem Rejects.group {g : γ} (hp : p.marks = []) (h : p.Rejects l w) :
    (Pattern.group g p).Rejects l w := by
  intro m r hw ha
  obtain ⟨ms, ha⟩ := ha
  exact h m r hw ⟨[], ((reads_group hp).mp ha).1⟩

theorem rejects_literal {s : String} (h : ¬s.toList <+: w) :
    (literal s : Pattern γ).Rejects l w := by
  intro m r hw ha
  obtain ⟨ms, hm⟩ := ha
  obtain ⟨rfl, _⟩ := (reads_literal s).mp hm
  exact h ⟨r, hw.symm⟩

theorem rejects_char (h : Text.Stops f w) :
    (.char f : Pattern γ).Rejects l w := by
  intro m r hw ha
  obtain ⟨ms, hm⟩ := ha
  obtain ⟨⟨c, rfl, hf⟩, _⟩ := reads_char.mp hm
  rw [h c (by rw [hw]; rfl)] at hf
  cases hf

end RefDoc.Pattern
