import RefDoc.Proofs.DocBlock

namespace RefDoc

open Text Pattern

variable {γ : Type} {p q : Pattern γ} {ps : List (Pattern γ)} {f : Found γ} {g : γ}
  {l m r t w : List Char} {words : List String}

def Text.BeginsWith (words : List String) (w : List Char) : Prop :=
  ∃ s ∈ words, s.toList <+: w

theorem Text.BeginsWith.append (h : BeginsWith words m) (n : List Char) :
    BeginsWith words (m ++ n) := by
  obtain ⟨s, hs, hm⟩ := h
  exact ⟨s, hs, hm.trans (List.prefix_append m n)⟩

theorem Text.BeginsWith.cons (h : BeginsWith words w) (s : String) : BeginsWith (s :: words) w := by
  obtain ⟨s', hs', hw⟩ := h
  exact ⟨s', List.mem_cons_of_mem s hs', hw⟩

namespace Pattern

/-- All that the pattern can be read off begins with one of the words. -/
def OpensWith (words : List String) (p : Pattern γ) : Prop :=
  ∀ l m r ms, Reads p l m r ms → BeginsWith words m

/-- All that the pattern can be read off is empty or begins with one of the words. -/
def MayOpenWith (words : List String) (p : Pattern γ) : Prop :=
  ∀ l m r ms, Reads p l m r ms → m = [] ∨ BeginsWith words m

theorem opensWith_literal {s : String} (hs : s ∈ words) :
    OpensWith words (literal s : Pattern γ) := by
  intro l m r ms h
  obtain ⟨rfl, _⟩ := (reads_literal s).mp h
  exact ⟨s, hs, List.prefix_rfl⟩

theorem OpensWith.alt (hp : OpensWith words p) (hq : OpensWith words q) :
    OpensWith words (.alt p q) := by
  intro l m r ms h
  rcases reads_alt.mp h with h | h
  · exact hp l m r ms h
  · exact hq l m r ms h

theorem OpensWith.cons (hp : OpensWith words p) : OpensWith words (sequence (p :: ps)) := by
  intro l w r ms h
  obtain ⟨m, n, as, bs, rfl, _, hm, _⟩ := reads_sequence_cons.mp h
  exact (hp _ _ _ _ hm).append n

theorem OpensWith.skip (hps : OpensWith words (sequence ps)) (hp : MayOpenWith words p) :
    OpensWith words (sequence (p :: ps)) := by
  intro l w r ms h
  obtain ⟨m, n, as, bs, rfl, _, hm, hn⟩ := reads_sequence_cons.mp h
  rcases hp _ _ _ _ hm with rfl | hm
  · exact hps _ _ _ _ hn
  · exact hm.append n

theorem OpensWith.mayOpenWith_many (hp : OpensWith words p) : MayOpenWith words (.many p) := by
  intro l w r ms h
  rcases reads_many.mp h with ⟨rfl, _⟩ | ⟨m, n, as, bs, rfl, _, hm, _⟩
  · exact .inl rfl
  · exact .inr ((hp _ _ _ _ hm).append n)

theorem OpensWith.mayOpenWith_maybe (hp : OpensWith words p) : MayOpenWith words (maybe p) := by
  intro l m r ms h
  rcases reads_maybe.mp h with h | ⟨rfl, _⟩
  · exact .inr (hp l m r ms h)
  · exact .inl rfl

theorem OpensWith.group (hp : OpensWith words p) (hm : p.marks = []) (g : γ) :
    OpensWith words (group g p) := by
  intro l m r ms h
  exact hp l m r [] ((reads_group hm).mp h).1

theorem MayOpenWith.group (hp : MayOpenWith words p) (hm : p.marks = []) (g : γ) :
    MayOpenWith words (group g p) := by
  intro l m r ms h
  exact hp l m r [] ((reads_group hm).mp h).1

theorem mayOpenWith_anchor (a : Anchor) : MayOpenWith words (.anchor a : Pattern γ) := by
  intro l m r ms h
  exact .inl (reads_anchor.mp h).1.1

theorem LeftmostSpans.pairwise {i : Nat} {spans : List (Nat × Nat)}
    (h : p.LeftmostSpans t i spans) :
    (∀ s ∈ spans, i ≤ s.1) ∧ spans.Pairwise fun a b => a.2 ≤ b.1 := by
  induction spans generalizing i with
  | nil => exact ⟨nofun, .nil⟩
  | cons s spans ih =>
    obtain ⟨hi, ⟨hs, _⟩, _, hrest⟩ := h
    obtain ⟨hle, hpairs⟩ := ih hrest
    refine ⟨?_, .cons hle hpairs⟩
    intro s' hs'
    rcases List.mem_cons.mp hs' with rfl | hs'
    · exact hi
    · exact (hi.trans hs).trans (hle s' hs')

theorem pairwise_findAll (hp : ∀ l r, ¬p.Accepts l [] r) (t : List Char) :
    (p.findAll t).Pairwise fun f f' => f.stop.index ≤ f'.start.index := by
  have hspans := leftmostSpans_findFrom hp [] t
  rw [← findAll_eq_findFrom] at hspans
  exact List.pairwise_map.mp hspans.pairwise.2

end Pattern

namespace Scan

/-- The offset `i` of the text `t` lies in the match `f`, on the line `n`, with only white space of
the match before it, and the text goes on with one of the words. -/
structure BeginsAt (words : List String) (t : List Char) (f : Found γ) (n i : Nat) : Prop where
  line : n = (t.take i).count '\n' + 1
  inside : f.start.index ≤ i ∧ i < f.stop.index
  blank : Blank ((t.take i).drop f.start.index)
  opening : BeginsWith words (t.drop i)

theorem exists_opening_of_reads {ms : List (Mark γ × Place)} (hps : OpensWith words (sequence ps))
    (h : Reads (documented g ps) l m r ms) :
    ∃ a b, m = a ++ b ∧ Blank a ∧ BeginsWith ("///" :: words) b := by
  obtain ⟨d, ws, w, ns, rfl, _, hd, hws, hw⟩ := reads_documented.mp h
  cases hd with
  | nil => exact ⟨ws, w, rfl, hws, (hps _ _ _ _ hw).cons "///"⟩
  | @cons _ m n hm _ =>
    obtain ⟨_, i, x, rfl, hi, _⟩ := hm
    refine ⟨i, '/' :: '/' :: '/' :: (x ++ '\n' :: (n ++ (ws ++ w))), by simp, blank_indent hi, ?_⟩
    exact ⟨"///", List.mem_cons_self, _, rfl⟩

theorem exists_beginsAt (hink : ∀ s ∈ words, s.toList.head?.any (!isBlank ·) = true)
    (hps : OpensWith words (sequence ps)) (hf : f ∈ (documented g ps).findAll t) :
    ∃ i, BeginsAt ("///" :: words) t f (lineOf f) i := by
  obtain ⟨l, m, r, rfl, hstart, hstop, hm⟩ := isReading_of_mem_findAll hf
  obtain ⟨a, b, rfl, ha, s, hs, z, rfl⟩ := exists_opening_of_reads hps hm
  obtain ⟨c, hhead, hc⟩ : ∃ c, s.toList.head? = some c ∧ (!isBlank c) = true := by
    rcases List.mem_cons.mp hs with rfl | hs
    · exact ⟨'/', rfl, rfl⟩
    · exact (Option.any_eq_true _ _).mp (hink s hs)
  obtain ⟨y, hcy⟩ := List.head?_eq_some_iff.mp hhead
  rw [Bool.not_eq_true'] at hc
  have htake : (l ++ (a ++ (s.toList ++ z)) ++ r).take (l ++ a).length = l ++ a := by
    rw [← List.append_assoc l, List.append_assoc _ _ r, List.take_left]
  have hdrop : (l ++ (a ++ (s.toList ++ z)) ++ r).drop (l ++ a).length = s.toList ++ (z ++ r) := by
    rw [← List.append_assoc l, List.append_assoc _ _ r, List.drop_left, List.append_assoc]
  refine ⟨(l ++ a).length, ?_, ?_, ?_, ?_⟩
  · rw [htake]
    exact lineOf_found hstart hstop ha hc (by rw [hcy]; rfl)
  · rw [hstart, hstop, hcy]
    simp only [Place.between_index, List.length_append, List.length_cons]
    omega
  · rw [htake, hstart, Place.between_index, List.drop_left]
    exact ha
  · rw [hdrop]
    exact ⟨s, hs, List.prefix_append _ _⟩

theorem BeginsAt.line_le {f' : Found γ} {n n' i i' : Nat} (h : BeginsAt words t f n i)
    (h' : BeginsAt words t f' n' i') (hf : f.stop.index ≤ f'.start.index) : n ≤ n' := by
  have hi : i ≤ i' := (h.inside.2.le.trans hf).trans h'.inside.1
  rw [h.line, h'.line]
  exact Nat.add_le_add_right ((List.take_prefix_take_left hi).sublist.count_le '\n') 1

/-- The lines of declarations of one kind, from what each of them begins with. -/
theorem exists_beginsAt_findAll {δ : Type} (line : δ → Nat) (record : Found γ → δ)
    (hline : ∀ f, line (record f) = lineOf f)
    (hink : ∀ s ∈ words, s.toList.head?.any (!isBlank ·) = true)
    (hps : OpensWith words (sequence ps)) (t : List Char) :
    (∀ (k : Nat) x, (((documented g ps).findAll t).map record)[k]? = some x →
      ∃ f, ((documented g ps).findAll t)[k]? = some f ∧ record f = x ∧
        ∃ i, BeginsAt ("///" :: words) t f (line x) i) ∧
    (((documented g ps).findAll t).map record).Pairwise fun x y => line x ≤ line y := by
  have hne (l r : List Char) : ¬(sequence ps).Accepts l [] r := by
    rintro ⟨ms, h⟩
    obtain ⟨s, hs, hnil⟩ := hps _ _ _ _ h
    have hhead := hink s hs
    rw [List.prefix_nil.mp hnil] at hhead
    cases hhead
  constructor
  · intro k x hx
    rw [List.getElem?_map] at hx
    obtain ⟨f, hf, rfl⟩ := Option.map_eq_some_iff.mp hx
    rw [hline]
    exact ⟨f, hf, rfl, exists_beginsAt hink hps (List.mem_of_getElem? hf)⟩
  · rw [List.pairwise_map]
    apply (pairwise_findAll (not_accepts_documented hne) t).imp_of_mem
    intro f f' hf hf' hle
    obtain ⟨i, hi⟩ := exists_beginsAt hink hps hf
    obtain ⟨i', hi'⟩ := exists_beginsAt hink hps hf'
    rw [hline, hline]
    exact hi.line_le hi' hle

def structWords : List String :=
  ["#[", "pub"]

def functionWords : List String :=
  ["#[", "pub", "const", "async", "unsafe", "extern", "fn"]

theorem mayOpenWith_attributes (hs : "#[" ∈ words) : MayOpenWith words (attributes : Pattern γ) :=
  OpensWith.mayOpenWith_many (.cons (opensWith_literal hs))

theorem opensWith_struct : OpensWith structWords (sequence structParts) := by
  have hpub : OpensWith structWords (literal "pub" : Pattern StructPart) :=
    opensWith_literal (by simp [structWords])
  have hattributes : MayOpenWith structWords (attributes : Pattern StructPart) :=
    mayOpenWith_attributes (by simp [structWords])
  exact hpub.cons.skip (hattributes.group rfl .attributes)

theorem opensWith_function : OpensWith functionWords (sequence functionParts) := by
  have hword {s : String} (hs : s ∈ functionWords) :
      OpensWith functionWords (literal s : Pattern FunctionPart) := opensWith_literal hs
  have hqualifier : OpensWith functionWords qualifierWord := by
    apply OpensWith.alt (hword (by simp [functionWords]))
    apply OpensWith.alt (hword (by simp [functionWords]))
    apply OpensWith.alt (hword (by simp [functionWords]))
    exact (hword (by simp [functionWords])).cons
  have hpub : OpensWith functionWords (literal "pub" : Pattern FunctionPart) :=
    hword (by simp [functionWords])
  have hfn : OpensWith functionWords (literal "fn" : Pattern FunctionPart) :=
    hword (by simp [functionWords])
  apply OpensWith.skip _ (mayOpenWith_attributes (by simp [functionWords]))
  apply OpensWith.skip _ (hpub.cons.group rfl .visibility).mayOpenWith_maybe
  apply OpensWith.skip _ hqualifier.cons.mayOpenWith_many
  exact hfn.cons.skip (mayOpenWith_anchor .wordEdge)

/-- The line of every record is where its match shows the first character that is no white space,
which is where the documentation, an attribute or the declaration itself begins. Along the structs
and along the functions of a source the lines never decrease. -/
theorem line_beginsAt (text file : String) :
    ((∀ (k : Nat) x, (structs text file)[k]? = some x →
        ∃ f, (structPattern.findAll text.toList)[k]? = some f ∧ structDecl text.toList file f = x ∧
          ∃ i, BeginsAt ["///", "#[", "pub"] text.toList f x.line i) ∧
      (structs text file).Pairwise fun x y => x.line ≤ y.line) ∧
    (∀ (k : Nat) x, (functions text file)[k]? = some x →
        ∃ f, (functionPattern.findAll text.toList)[k]? = some f ∧ functionDecl file f = x ∧
          ∃ i, BeginsAt ["///", "#[", "pub", "const", "async", "unsafe", "extern", "fn"]
            text.toList f x.line i) ∧
      (functions text file).Pairwise fun x y => x.line ≤ y.line := by
  constructor
  · rw [structs, structPattern]
    exact exists_beginsAt_findAll StructDecl.line (structDecl text.toList file)
      (fun _ => rfl) (by decide) opensWith_struct text.toList
  · rw [functions, functionPattern]
    exact exists_beginsAt_findAll FunctionDecl.line (functionDecl file)
      (fun _ => rfl) (by decide) opensWith_function text.toList

end Scan

end RefDoc
