import RefDoc.Proofs.Padding

namespace RefDoc

open Text Pattern DocComment

variable {γ : Type} {p : Pattern γ} {ps : List (Pattern γ)} {f : Found γ}
  {a b d l m n r s t w ws y : List Char}

def Pattern.endOf (fs : List (Found γ)) : Nat :=
  (fs.getLast?.map (·.stop.index)).getD 0

theorem Pattern.LeftmostSpans.not_matchesAt {i : Nat} {xs ys : List (Nat × Nat)} {x : Nat × Nat}
    (h : p.LeftmostSpans t i (xs ++ x :: ys)) :
    (xs.getLast?.map Prod.snd).getD i ≤ x.1 ∧
      ∀ b e, (xs.getLast?.map Prod.snd).getD i ≤ b → b < x.1 → ¬p.MatchesAt t b e := by
  induction xs generalizing i with
  | nil => exact ⟨h.1, h.2.2.1⟩
  | cons z xs ih =>
    have hend : ((z :: xs).getLast?.map Prod.snd).getD i = (xs.getLast?.map Prod.snd).getD z.2 := by
      rw [List.getLast?_cons]
      cases xs.getLast? <;> rfl
    rw [hend]
    exact ih h.2.2.2

namespace Scan

/-- One complete line of documentation behind the text `l`. -/
def IsDocLine (l m : List Char) : Prop :=
  AtLineStart l ∧ ∃ i x, m = i ++ '/' :: '/' :: '/' :: (x ++ ['\n']) ∧
    (∀ c ∈ i, c = ' ' ∨ c = '\t') ∧ '\n' ∉ x

/-- Lines of documentation behind the text `l`, one directly below the other. -/
inductive IsDocRun : List Char → List Char → Prop
  | nil (l : List Char) : IsDocRun l []
  | cons {l m n : List Char} : IsDocLine l m → IsDocRun (l ++ m) n → IsDocRun l (m ++ n)

theorem IsDocLine.reads (h : IsDocLine l m) : Reads (docLine : Pattern γ) l m r [] := by
  obtain ⟨hl, i, x, rfl, hi, hx⟩ := h
  have hindent : ∀ c ∈ i, (c == ' ' || c == '\t') = true := by
    intro c hc
    rcases hi c hc with rfl | rfl <;> rfl
  apply reads_sequence_cons.mpr
  refine ⟨[], _, [], [], rfl, rfl, .anchor hl, ?_⟩
  apply reads_sequence_cons.mpr
  refine ⟨i, _, [], [], rfl, rfl, reads_many_char.mpr ⟨hindent, rfl⟩, ?_⟩
  apply reads_sequence_cons.mpr
  refine ⟨_, _, [], [], rfl, rfl, (reads_literal "///").mpr ⟨rfl, rfl⟩, ?_⟩
  apply reads_sequence_cons.mpr
  refine ⟨x, _, [], [], rfl, rfl, reads_many_char.mpr ⟨except_of_not_mem hx, rfl⟩, ?_⟩
  apply reads_sequence_cons.mpr
  exact ⟨_, [], [], [], rfl, rfl, (reads_literal "\n").mpr ⟨rfl, rfl⟩, .empty _ _⟩

theorem IsDocLine.exists_eq (h : IsDocLine l m) : ∃ u, m = u ++ ['\n'] ∧ '\n' ∉ u ∧ '/' ∈ u := by
  obtain ⟨_, i, x, rfl, hi, hx⟩ := h
  refine ⟨i ++ '/' :: '/' :: '/' :: x, by simp, ?_, by simp⟩
  simp [newline_not_mem_indent hi, hx]

theorem IsDocLine.slash_mem (h : IsDocLine l m) : '/' ∈ m := by
  obtain ⟨u, rfl, _, hslash⟩ := h.exists_eq
  exact List.mem_append_left _ hslash

theorem IsDocLine.atLineStart (h : IsDocLine l m) : AtLineStart (l ++ m) := by
  obtain ⟨u, rfl, _⟩ := h.exists_eq
  right
  rw [← List.append_assoc, List.getLast?_concat]

theorem IsDocLine.eq_nil_of_append (h : IsDocLine l (a ++ b)) (ha : AtLineStart (l ++ a))
    (hb : b ≠ []) : a = [] := by
  obtain ⟨u, hu, hnew, _⟩ := h.exists_eq
  obtain ⟨c, hc⟩ : a <+: u := by
    have hlast : a ++ b.dropLast = u := by
      have hdrop := congrArg List.dropLast hu
      rwa [List.dropLast_append_of_ne_nil hb, List.dropLast_concat] at hdrop
    exact ⟨_, hlast⟩
  rcases ha.of_append with ha | ha
  · exact ha
  · exact absurd (hc ▸ List.mem_append_left c (List.mem_of_getLast? ha)) hnew

theorem IsDocLine.eq_nil_of_blank (h : IsDocLine b m) (ha : AtLineStart a) (hy : Blank y)
    (heq : a ++ y = b ++ m) : y = [] := by
  rcases List.append_eq_append_iff.mp heq with ⟨z, rfl, rfl⟩ | ⟨z, rfl, rfl⟩
  · exact absurd (List.mem_append_right z h.slash_mem) (hy.not_mem rfl)
  · by_contra hne
    obtain rfl := h.eq_nil_of_append ha hne
    exact hy.not_mem rfl h.slash_mem

theorem isDocRun_of_reads {ms : List (Mark γ × Place)} (h : Reads (docLines : Pattern γ) l m r ms) :
    IsDocRun l m := by
  rw [docLines] at h
  generalize hq : Pattern.many docLine = q at h
  induction h with
  | stop p l r => exact .nil l
  | round hm _ _ ih =>
    cases hq
    exact .cons (reads_docLine hm) (ih rfl)
  | _ => cases hq

namespace IsDocRun

theorem reads (h : IsDocRun l m) : Reads (docLines : Pattern γ) l m r [] := by
  rw [docLines]
  induction h with
  | nil l => exact .stop _ _ _
  | cons hm _ ih => exact hm.reads.round ih

theorem single (h : IsDocLine l m) : IsDocRun l m := by
  have hrun := IsDocRun.cons h (.nil _)
  rwa [List.append_nil] at hrun

theorem atLineStart (h : IsDocRun l m) (hne : m ≠ []) : AtLineStart l := by
  cases h with
  | nil => exact absurd rfl hne
  | cons hm _ => exact hm.1

theorem exists_last (h : IsDocRun l m) (hne : m ≠ []) :
    ∃ a b, m = a ++ b ∧ IsDocLine (l ++ a) b := by
  induction h with
  | nil => exact absurd rfl hne
  | @cons l m n hm _ ih =>
    by_cases hn : n = []
    · subst n
      exact ⟨[], m, by simp, by simpa using hm⟩
    · obtain ⟨a, b, rfl, hb⟩ := ih hn
      exact ⟨m ++ a, b, by simp, by simpa using hb⟩

theorem of_append (h : IsDocRun l (m ++ n)) (hl : AtLineStart (l ++ m)) : IsDocRun l m := by
  generalize hw : m ++ n = w at h
  induction h generalizing m with
  | nil l =>
    rw [(List.append_eq_nil_iff.mp hw).1]
    exact .nil l
  | @cons l x w hx hrun ih =>
    rcases List.append_eq_append_iff.mp hw with ⟨z, rfl, hz⟩ | ⟨z, rfl, hz⟩
    · by_cases hne : z = []
      · subst z
        rw [List.append_nil] at hx
        exact .single hx
      · rw [hx.eq_nil_of_append hl hne]
        exact .nil l
    · rw [← List.append_assoc] at hl
      exact .cons hx (ih hl hz.symm)

theorem append_eq_append (hd : IsDocRun l d) (hm : IsDocRun a m) (hdne : d ≠ []) (hmne : m ≠ [])
    (hws : Blank ws) (hs : Blank s) (h : l ++ d ++ ws = a ++ m ++ s) : l ++ d = a ++ m := by
  obtain ⟨d₁, d₂, rfl, hd₂⟩ := hd.exists_last hdne
  obtain ⟨m₁, m₂, rfl, hm₂⟩ := hm.exists_last hmne
  rw [← List.append_assoc l, ← List.append_assoc a] at *
  rcases List.append_eq_append_iff.mp h with ⟨y, hy, rfl⟩ | ⟨y, hy, rfl⟩
  · have hnil := hm₂.eq_nil_of_blank hd₂.atLineStart (fun c hc => hws c (List.mem_append_left s hc))
      hy.symm
    rw [hy, hnil, List.append_nil]
  · have hnil := hd₂.eq_nil_of_blank hm₂.atLineStart (fun c hc => hs c (List.mem_append_left ws hc))
      hy.symm
    rw [hy, hnil, List.append_nil]

end IsDocRun

/-- The parts of the match `f` in a text whose search goes on at the offset `e`: the lines of
documentation `d`, white space, and the item `w`. No line of documentation that begins at `e` or
behind it is left out. -/
structure DocBlock [DecidableEq γ] (g : γ) (t : List Char) (e : Nat) (f : Found γ)
    (l d ws w r : List Char) : Prop where
  text : t = l ++ (d ++ (ws ++ w)) ++ r
  start : f.start = .between l (d ++ (ws ++ w) ++ r)
  stop : f.stop = .between (l ++ (d ++ (ws ++ w))) r
  group : f.group? g = some d
  run : IsDocRun l d
  blank : Blank ws
  item : w ≠ [] ∧ Stops isBlank w
  behind : e ≤ l.length
  /-- No line ends where the documentation begins. -/
  adjacent : d ≠ [] → ∀ a m, l = a ++ m → e ≤ a.length → ¬IsDocLine a m
  /-- No line stands above an item without documentation, with only white space in between. -/
  above : d = [] → ∀ a m s, l ++ ws = a ++ m ++ s → e ≤ a.length → IsDocLine a m → ¬Blank s
  /-- Every run of lines above the item, with only white space in between, is the end of the
  documentation. -/
  maximal : ∀ a m s, l ++ d ++ ws = a ++ m ++ s → e ≤ a.length → IsDocRun a m → m ≠ [] → Blank s →
    m <:+ d

variable {P : List Char → Prop} {g : γ}

theorem reads_documented {ms : List (Mark γ × Place)} :
    Reads (documented g ps) l m r ms ↔ ∃ d ws w ns, m = d ++ (ws ++ w) ∧
      ms = captured g l d (ws ++ w ++ r) ++ ns ∧ IsDocRun l d ∧ Blank ws ∧
      Reads (sequence ps) (l ++ d ++ ws) w r ns := by
  rw [documented, reads_sequence_cons]
  constructor
  · rintro ⟨d, _, _, _, rfl, rfl, hd, h⟩
    obtain ⟨ws, w, _, ns, rfl, rfl, hws, hw⟩ := reads_sequence_cons.mp h
    obtain ⟨hrun, rfl⟩ := (reads_group rfl).mp hd
    obtain ⟨hblank, rfl⟩ := reads_many_char.mp hws
    exact ⟨d, ws, w, ns, rfl, rfl, isDocRun_of_reads hrun, hblank, hw⟩
  · rintro ⟨d, ws, w, ns, rfl, rfl, hd, hws, hw⟩
    refine ⟨d, ws ++ w, _, ns, rfl, rfl, (reads_group rfl).mpr ⟨hd.reads, rfl⟩, ?_⟩
    exact reads_sequence_cons.mpr ⟨ws, w, [], ns, rfl, rfl, reads_many_char.mpr ⟨hws, rfl⟩, hw⟩

/-- The pattern is read nowhere in the text from the offset `e` up to the place behind `l`. -/
def FirstFrom (p : Pattern γ) (t : List Char) (e : Nat) (l : List Char) : Prop :=
  ∀ a m r, t = a ++ m ++ r → e ≤ a.length → a.length < l.length → ¬p.Accepts a m r

theorem firstFrom_of_findAll {fs gs : List (Found γ)} (hp : ∀ l r, ¬p.Accepts l [] r)
    (hf : p.findAll t = fs ++ f :: gs) (hstart : f.start = .between l r) :
    endOf fs ≤ l.length ∧ FirstFrom p t (endOf fs) l := by
  have hspans := leftmostSpans_findFrom hp [] t
  rw [← findAll_eq_findFrom, hf, List.map_append, List.map_cons] at hspans
  obtain ⟨hle, hnone⟩ := hspans.not_matchesAt
  have hend : ((fs.map Found.span).getLast?.map Prod.snd).getD ([] : List Char).length =
      endOf fs := by
    rw [List.getLast?_map, Option.map_map]
    rfl
  have hindex : f.span.1 = l.length := by
    rw [Found.span, hstart, Place.between_index]
  rw [hend, hindex] at hle
  rw [hend, hindex] at hnone
  refine ⟨hle, ?_⟩
  intro a m r ht he hlt ha
  apply hnone a.length (a ++ m).length he hlt
  rw [List.nil_append, ht]
  exact matchesAt_append.mpr ha

section Leftmost

variable {e : Nat} {ns : List (Mark γ × Place)} (hd : IsDocRun l d) (hws : Blank ws)
  (hw : Reads (sequence ps) (l ++ d ++ ws) w r ns)
  (hfirst : FirstFrom (documented g ps) (l ++ (d ++ (ws ++ w)) ++ r) e l)
include hd hws hw hfirst

theorem not_isDocLine_of_firstFrom (hl : l = a ++ m) (he : e ≤ a.length) : ¬IsDocLine a m := by
  intro hm
  subst l
  have hne : 0 < m.length := List.length_pos_of_mem hm.slash_mem
  apply hfirst a (m ++ d ++ (ws ++ w)) r (by simp) he
  · rw [List.length_append]
    omega
  · exact ⟨_, reads_documented.mpr
      ⟨m ++ d, ws, w, ns, rfl, rfl, .cons hm hd, hws, by simpa using hw⟩⟩

theorem not_blank_of_firstFrom (hnil : d = []) (hl : l ++ ws = a ++ m ++ s) (he : e ≤ a.length)
    (hm : IsDocLine a m) : ¬Blank s := by
  intro hs
  subst d
  rw [List.append_nil, hl] at hw
  have hlt : a.length < l.length := by
    rw [List.append_assoc] at hl
    by_contra hle
    obtain ⟨y, rfl⟩ : l <+: a := by
      apply List.prefix_of_prefix_length_le (List.prefix_append l ws)
      · rw [hl]
        exact List.prefix_append a _
      · omega
    rw [List.append_assoc, List.append_cancel_left_eq] at hl
    apply hws.not_mem (c := '/') rfl
    rw [hl]
    exact List.mem_append_right y (List.mem_append_left s hm.slash_mem)
  apply hfirst a (m ++ (s ++ w)) r _ he hlt
  · exact ⟨_, reads_documented.mpr ⟨m, s, w, ns, rfl, rfl, .single hm, hs, hw⟩⟩
  · rw [List.nil_append, ← List.append_assoc l, hl]
    simp only [List.append_assoc]

theorem suffix_of_firstFrom (hl : l ++ d ++ ws = a ++ m ++ s) (he : e ≤ a.length)
    (hm : IsDocRun a m) (hne : m ≠ []) (hs : Blank s) : m <:+ d := by
  by_cases hnil : d = []
  · obtain ⟨m₁, m₂, rfl, hm₂⟩ := hm.exists_last hne
    rw [hnil, List.append_nil, ← List.append_assoc a] at hl
    have hle : e ≤ (a ++ m₁).length := by
      rw [List.length_append]
      omega
    exact absurd hs (not_blank_of_firstFrom hd hws hw hfirst hnil hl hle hm₂)
  · have hend := hd.append_eq_append hm hnil hne hws hs hl
    rcases List.append_eq_append_iff.mp hend with ⟨y, rfl, rfl⟩ | ⟨y, hly, rfl⟩
    · exact List.suffix_append y m
    · by_cases hy : y = []
      · rw [hy, List.nil_append]
      · -- The lines that the run has above the documentation end where it begins.
        have hrun := hm.of_append (hly ▸ hd.atLineStart hnil)
        obtain ⟨y₁, y₂, rfl, hy₂⟩ := hrun.exists_last hy
        rw [← List.append_assoc] at hly
        have hle : e ≤ (a ++ y₁).length := by
          rw [List.length_append]
          omega
        exact absurd hy₂ (not_isDocLine_of_firstFrom hd hws hw hfirst hly hle)

end Leftmost

/-- A match of a declaration takes all the documentation above it. -/
theorem Opening.exists_docBlock [DecidableEq γ] {fs gs : List (Found γ)} (h : Opening P ps)
    (hps : ∀ l r, ¬(sequence ps).Accepts l [] r)
    (hf : (documented g ps).findAll t = fs ++ f :: gs) :
    ∃ l d ws w r, DocBlock g t (endOf fs) f l d ws w r := by
  have hmem : f ∈ (documented g ps).findAll t := hf ▸ List.mem_append_right fs List.mem_cons_self
  obtain ⟨l, m, r, rfl, hstart, hstop, hm⟩ := isReading_of_mem_findAll hmem
  obtain ⟨hbehind, hfirst⟩ := firstFrom_of_findAll (not_accepts_documented hps) hf hstart
  obtain ⟨d, ws, w, ns, rfl, hmarks, hd, hws, hw⟩ := reads_documented.mp hm
  have hne : w ≠ [] := by
    rintro rfl
    exact hps _ _ ⟨ns, hw⟩
  have hP : P (w ++ r) := by
    by_contra hP
    exact h.rejects _ _ hP w r rfl ⟨ns, hw⟩
  have hink : Stops isBlank w := by
    obtain ⟨c, z, hcz, hc, _⟩ := h.ink _ hP
    obtain ⟨c', w, rfl⟩ := List.exists_cons_of_ne_nil hne
    obtain ⟨rfl, _⟩ := List.cons.inj hcz
    exact .cons hc w
  exact ⟨l, d, ws, w, r, {
    text := rfl
    start := hstart
    stop := hstop
    group := by rw [Found.group?, hmarks, capture_captured]
    run := hd
    blank := hws
    item := ⟨hne, hink⟩
    behind := hbehind
    adjacent := fun _ a m hl he => not_isDocLine_of_firstFrom hd hws hw hfirst hl he
    above := fun hnil a m s hl he hm => not_blank_of_firstFrom hd hws hw hfirst hnil hl he hm
    maximal := fun a m s hl he hm hne hs => suffix_of_firstFrom hd hws hw hfirst hl he hm hne hs }⟩

theorem DocBlock.group_eq [DecidableEq γ] {e : Nat} (h : DocBlock g t e f l d ws w r) :
    f.group g = d := by
  rw [Found.group, h.group]
  rfl

theorem Opening.exists_docBlock_of_map [DecidableEq γ] {ρ : Type} {record : Found γ → ρ}
    {xs ys : List ρ} {x : ρ} (h : Opening P ps) (hps : ∀ l r, ¬(sequence ps).Accepts l [] r)
    (hx : ((documented g ps).findAll t).map record = xs ++ x :: ys) :
    ∃ fs f gs, (documented g ps).findAll t = fs ++ f :: gs ∧ fs.map record = xs ∧ record f = x ∧
      ∃ l d ws w r, DocBlock g t (endOf fs) f l d ws w r := by
  obtain ⟨fs, hs, hfind, hfs, hhs⟩ := List.map_eq_append_iff.mp hx
  obtain ⟨f, gs, rfl, hf, _⟩ := List.map_eq_cons_iff.mp hhs
  exact ⟨fs, f, gs, hfind, hfs, hf, h.exists_docBlock hps hfind⟩

/-- Every record of a declaration has the documentation of its match, and the match has left out no
line above the declaration that the match before it has not reached. -/
theorem doc_eq_clean_docBlock (text file : String) :
    (∀ xs x ys, structs text file = xs ++ x :: ys →
      ∃ fs f gs l d ws w r, structPattern.findAll text.toList = fs ++ f :: gs ∧
        fs.map (structDecl text.toList file) = xs ∧ structDecl text.toList file f = x ∧
        DocBlock .doc text.toList (endOf fs) f l d ws w r ∧ x.doc = String.ofList (clean d)) ∧
    ∀ xs x ys, functions text file = xs ++ x :: ys →
      ∃ fs f gs l d ws w r, functionPattern.findAll text.toList = fs ++ f :: gs ∧
        fs.map (functionDecl file) = xs ∧ functionDecl file f = x ∧
        DocBlock .doc text.toList (endOf fs) f l d ws w r ∧ x.doc = String.ofList (clean d) := by
  constructor
  · intro xs x ys hx
    rw [structs, structPattern] at hx
    obtain ⟨fs, f, gs, hfind, hxs, rfl, l, d, ws, w, r, hblock⟩ :=
      opening_struct.exists_docBlock_of_map not_accepts_structParts hx
    have hdoc : (structDecl text.toList file f).doc = String.ofList (clean d) := by
      rw [structDecl, hblock.group_eq]
    exact ⟨fs, f, gs, l, d, ws, w, r, hfind, hxs, rfl, hblock, hdoc⟩
  · intro xs x ys hx
    rw [functions, functionPattern] at hx
    obtain ⟨fs, f, gs, hfind, hxs, rfl, l, d, ws, w, r, hblock⟩ :=
      opening_function.exists_docBlock_of_map not_accepts_functionParts hx
    have hdoc : (functionDecl file f).doc = String.ofList (clean d) := by
      rw [functionDecl, hblock.group_eq]
    exact ⟨fs, f, gs, l, d, ws, w, r, hfind, hxs, rfl, hblock, hdoc⟩

end Scan

end RefDoc
