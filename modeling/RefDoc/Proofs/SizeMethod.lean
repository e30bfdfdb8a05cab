import RefDoc.Proofs.DocBlock
import RefDoc.Proofs.ImplHead

namespace RefDoc

open Text Pattern Nesting Scan

variable {γ : Type} {p : Pattern γ} {ps qs : List (Pattern γ)}
  {l m n r t w x name : List Char}

namespace Pattern

theorem Accepts.cons (hp : p.Accepts l m (n ++ r)) (hps : (sequence ps).Accepts (l ++ m) n r) :
    (sequence (p :: ps)).Accepts l (m ++ n) r := by
  obtain ⟨as, hm⟩ := hp
  obtain ⟨bs, hn⟩ := hps
  exact ⟨_, reads_sequence_cons.mpr ⟨m, n, as, bs, rfl, rfl, hm, hn⟩⟩

theorem Accepts.append (hps : (sequence ps).Accepts l m (n ++ r))
    (hqs : (sequence qs).Accepts (l ++ m) n r) : (sequence (ps ++ qs)).Accepts l (m ++ n) r := by
  obtain ⟨as, hm⟩ := hps
  obtain ⟨bs, hn⟩ := hqs
  exact ⟨_, reads_sequence_append.mpr ⟨m, n, as, bs, rfl, rfl, hm, hn⟩⟩

theorem Denotes.accepts {P : List Char → Prop} (h : Denotes p P) (hm : P m) (l r : List Char) :
    p.Accepts l m r :=
  ⟨[], (h l m r []).mpr ⟨hm, rfl⟩⟩

theorem run_sequence_append (k : Place → Option (Match γ)) (x : Place) :
    (sequence (ps ++ qs)).run k x = (sequence ps).run ((sequence qs).run k) x := by
  rw [sequence, List.foldl_append, run_foldl_seq]
  rfl

theorem exists_of_run_manyLazy {f : Char → Bool} {k : Place → Option (Match γ)} {s : Match γ}
    (h : (Pattern.manyLazy (.char f)).run k (.between l w) = some s) :
    ∃ a b, w = a ++ b ∧ (∀ c ∈ a, f c = true) ∧ k (.between (l ++ a) b) = some s ∧
      ∀ u v, w = u ++ v → u.length < a.length → k (.between (l ++ u) v) = none := by
  induction w generalizing l with
  | nil =>
    rw [run_manyLazy_char_nil] at h
    refine ⟨[], [], rfl, nofun, by rwa [List.append_nil], ?_⟩
    intro u v _ hlt
    exact absurd hlt (Nat.not_lt_zero _)
  | cons d w ih =>
    rw [run_manyLazy_char_cons] at h
    cases hk : k (.between l (d :: w)) with
    | some s' =>
      rw [hk, Option.some_or] at h
      refine ⟨[], d :: w, rfl, nofun, by rwa [List.append_nil, hk], ?_⟩
      intro u v _ hlt
      exact absurd hlt (Nat.not_lt_zero _)
    | none =>
      rw [hk, Option.none_or, Option.ite_none_right_eq_some] at h
      obtain ⟨a, b, rfl, ha, hb, hfirst⟩ := ih h.2
      rw [List.append_assoc, List.singleton_append] at hb
      refine ⟨d :: a, b, rfl, List.forall_mem_cons.mpr ⟨h.1, ha⟩, hb, ?_⟩
      intro u v hw hlt
      cases u with
      | nil =>
        rw [List.nil_append] at hw
        rwa [List.append_nil, ← hw]
      | cons e u =>
        obtain ⟨rfl, hrest⟩ := List.cons.inj hw
        have hnone := hfirst u v hrest (Nat.lt_of_succ_lt_succ hlt)
        rwa [List.append_assoc, List.singleton_append] at hnone

/-- The leftmost match is the preferred one at a place, and in front of it the pattern is nowhere
read. -/
theorem exists_of_find? {f : Found γ} (hp : ∀ l r, ¬p.Accepts l [] r) (h : p.find? t = some f) :
    ∃ l w, t = l ++ w ∧ p.foundAt? (.between l w) = some f ∧ FirstFrom p t 0 l := by
  obtain ⟨l, w, rfl, hfx⟩ := exists_of_mem_candidates (List.mem_of_mem_head? h)
  obtain ⟨_, _, _, _, hstart, _⟩ := reads_of_foundAt? hfx
  rw [find?_eq_head?] at h
  obtain ⟨gs, hgs⟩ := List.head?_eq_some_iff.mp h
  have hall : p.findAll (l ++ w) = [] ++ f :: gs := hgs
  exact ⟨l, w, rfl, hfx, (firstFrom_of_findAll hp hall hstart).2⟩

theorem exists_find? (hp : ∀ l r, ¬p.Accepts l [] r) (h : p.Accepts l m r) :
    ∃ f, p.find? (l ++ m ++ r) = some f := by
  rw [← Option.isSome_iff_exists, Option.isSome_iff_ne_none]
  intro hnone
  rw [find?_eq_head?, List.head?_eq_none_iff] at hnone
  have hspans := leftmostSpans_findFrom hp [] (l ++ m ++ r)
  rw [← findAll_eq_findFrom, hnone] at hspans
  exact hspans _ _ (Nat.zero_le _) (matchesAt_append.mpr h)

end Pattern

namespace Scan

/-- A method that gives a size in a block for the type `name`, with the parts of the text in front
of it, around it and behind it. No closing brace stands between the opening brace of the block and
the end of the body. -/
structure SizeMethod (t name : List Char) where
  before : List Char
  head : List Char
  gap : List Char
  signature : List Char
  body : List Char
  rest : List Char
  text : t = before ++ (head ++ (gap ++ (signature ++ (body ++ '}' :: rest))))
  edge : EndsOutsideWord before
  isImplHead : IsImplHead name head
  gap_brace : '}' ∉ gap
  isSizeHead : IsSizeHead signature
  body_ne : body ≠ []
  body_brace : '}' ∉ body

/-- No other block stands further to the left, and no other method in the block does. -/
structure SizeMethod.IsFirst (o : SizeMethod t name) : Prop where
  before_le : ∀ o' : SizeMethod t name, o.before.length ≤ o'.before.length
  gap_le : ∀ o' : SizeMethod t name, o'.before = o.before → o'.head = o.head →
    o.gap.length ≤ o'.gap.length

theorem reads_tailParts {ms : List (Mark SizePart × Place)} :
    Reads (sequence tailParts) l w r ms ↔ ∃ m s x, w = m ++ (s ++ (x ++ ['}'])) ∧ IsSizeHead m ∧
      Blank s ∧ (x ≠ [] ∧ '}' ∉ x) ∧ ms = captured .body (l ++ m ++ s) x ('}' :: r) := by
  have hbody {l m r : List Char} {ms : List (Mark SizePart × Place)} :
      Reads (group SizePart.body (many1 (except ['}']))) l m r ms ↔
        (m ≠ [] ∧ '}' ∉ m) ∧ ms = captured .body l m r := by
    rw [reads_group rfl, except, reads_many1_char, except_iff_not_mem]
    simp only [and_true]
  rw [tailParts, reads_sequence_append]
  simp only [reads_sequence_cons, reads_sequence_nil]
  constructor
  · rintro ⟨m, _, _, _, rfl, rfl, hm, s, _, _, _, rfl, rfl, hs, x, _, _, _, rfl, rfl, hx, _,
      _, _, _, rfl, rfl, hclose, rfl, rfl⟩
    obtain ⟨hsig, rfl⟩ := (denotes_methodParts _ _ _ _).mp hm
    obtain ⟨hblank, rfl⟩ := (denotes_blanks _ _ _ _).mp hs
    obtain ⟨rfl, rfl⟩ := (denotes_literal _ _ _ _ _).mp hclose
    obtain ⟨hbrace, rfl⟩ := hbody.mp hx
    exact ⟨m, s, x, rfl, hsig, hblank, hbrace, rfl⟩
  · rintro ⟨m, s, x, rfl, hm, hs, hx, rfl⟩
    exact ⟨m, _, [], _, rfl, rfl, (denotes_methodParts _ _ _ _).mpr ⟨hm, rfl⟩, s, _,
      [], _, rfl, rfl,
      (denotes_blanks _ _ _ _).mpr ⟨hs, rfl⟩, x, _, _, [], rfl, rfl, hbody.mpr ⟨hx, rfl⟩, _, [], [],
      [], rfl, rfl, (denotes_literal _ _ _ _ _).mpr ⟨rfl, rfl⟩, rfl, rfl⟩

theorem accepts_tailParts (hm : IsSizeHead m) (hne : x ≠ []) (hx : '}' ∉ x) (l r : List Char) :
    (sequence tailParts).Accepts l (m ++ (x ++ ['}'])) r :=
  ⟨_, reads_tailParts.mpr ⟨m, [], x, rfl, hm, nofun, ⟨hne, hx⟩, rfl⟩⟩

/-- What is found inside a block: the first method there, with its body up to white space. -/
theorem exists_of_run_tailParts {s : Match SizePart}
    (h : (sequence (.manyLazy (except ['}']) :: tailParts)).run accept (.between l w) = some s) :
    ∃ gap m body r, w = gap ++ (m ++ (body ++ '}' :: r)) ∧ '}' ∉ gap ∧ IsSizeHead m ∧ body ≠ [] ∧
      '}' ∉ body ∧ (capture s.marks .body).map trim = some (trim body) ∧
      ∀ gap' m' body' r', w = gap' ++ (m' ++ (body' ++ '}' :: r')) → IsSizeHead m' → body' ≠ [] →
        '}' ∉ body' → gap.length ≤ gap'.length := by
  rw [run_sequence_cons] at h
  obtain ⟨gap, w, rfl, hgap, htail, hfirst⟩ := exists_of_run_manyLazy h
  obtain ⟨_, r, _, _, rfl, hmethod, haccept, rfl⟩ := followsReading_of_run _ _ _ _ _ htail
  obtain ⟨m, s, x, rfl, hm, hs, ⟨hne, hx⟩, rfl⟩ := reads_tailParts.mp hmethod
  cases haccept
  have hbody : '}' ∉ s ++ x := by
    rw [List.mem_append]
    exact fun h => h.elim (hs.not_mem rfl) hx
  have htrim : trim (s ++ x) = trim x := by
    rw [trim, trim, trimStart_append hs]
  refine ⟨gap, m, s ++ x, r, by simp, except_iff_not_mem.mp hgap, hm,
    List.append_ne_nil_of_right_ne_nil s hne, hbody, ?_, ?_⟩
  · rw [Match.behind, capture_captured, Option.map_some, htrim]
  · intro gap' m' body' r' hw hm' hne' hbody'
    apply Nat.le_of_not_lt
    intro hlt
    obtain ⟨_, hreads⟩ := accepts_tailParts hm' hne' hbody' (l ++ gap') r'
    have hsome := hreads.isSome_run (k := accept) rfl
    rw [hfirst gap' _ (by simpa using hw) hlt] at hsome
    cases hsome

theorem IsImplHead.fits_wordEdge (h : IsImplHead name m) (r : List Char) :
    Anchor.wordEdge.Fits l (m ++ r) ↔ EndsOutsideWord l := by
  obtain ⟨_, v, rfl, rfl, _⟩ := h
  exact fits_wordEdge_iff rfl

namespace SizeMethod

theorem accepts (o : SizeMethod t name) : (sizePattern name).Accepts o.before
    (o.head ++ (o.gap ++ (o.signature ++ (o.body ++ ['}'])))) o.rest := by
  have hgap : Denotes (.manyLazy (except ['}']) : Pattern SizePart) ('}' ∉ ·) := by
    intro l m r ms
    rw [reads_manyLazy, denotes_except '}' l m r ms]
  rw [sizePattern]
  apply Accepts.cons (m := []) (n := o.head ++ (o.gap ++ (o.signature ++ (o.body ++ ['}']))))
  · rw [List.append_assoc]
    exact ⟨[], .anchor ((o.isImplHead.fits_wordEdge _).mpr o.edge)⟩
  apply Accepts.append (denotes_implParts.accepts o.isImplHead _ _)
  apply Accepts.cons (hgap.accepts o.gap_brace _ _)
  exact accepts_tailParts o.isSizeHead o.body_ne o.body_brace _ _

theorem brace_not_mem (o : SizeMethod t name) : '}' ∉ o.gap ++ (o.signature ++ o.body) := by
  obtain ⟨u, hu, _, hbrace⟩ := o.isSizeHead.exists_eq
  simp [hu, hbrace, o.gap_brace, o.body_brace]

theorem IsFirst.body_eq {o o' : SizeMethod t name} (hname : IsName name) (h : o.IsFirst)
    (h' : o'.IsFirst) : o.body = o'.body := by
  -- The parts agree from left to right, each because of what the text goes on with.
  have htext := o.text.symm.trans o'.text
  have hlength := Nat.le_antisymm (h.before_le o') (h'.before_le o)
  obtain ⟨hbefore, hblock⟩ := List.append_inj htext hlength
  obtain ⟨_, hhead, hinside⟩ := o.isImplHead.append_inj hname hname o'.isImplHead hblock
  have hgap := Nat.le_antisymm (h.gap_le o' hbefore.symm hhead.symm) (h'.gap_le o hbefore hhead)
  obtain ⟨_, hmethod⟩ := List.append_inj hinside hgap
  obtain ⟨u, hu, hopen, _⟩ := o.isSizeHead.exists_eq
  obtain ⟨u', hu', hopen', _⟩ := o'.isSizeHead.exists_eq
  rw [hu, hu', List.append_assoc, List.append_assoc] at hmethod
  obtain ⟨_, hbody⟩ := append_cons_inj hopen hopen' hmethod
  exact (append_cons_inj o.body_brace o'.body_brace hbody).1

/-- What is found at a place is the first method in some block there. -/
theorem exists_of_foundAt? {f : Found SizePart}
    (h : (sizePattern name).foundAt? (.between l w) = some f) :
    ∃ o : SizeMethod (l ++ w) name, o.before = l ∧ trim (f.group .body) = trim o.body ∧
      ∀ o' : SizeMethod (l ++ w) name, o'.before = o.before → o'.head = o.head →
        o.gap.length ≤ o'.gap.length := by
  rw [foundAt?, Option.map_eq_some_iff] at h
  obtain ⟨_, hrun, rfl⟩ := h
  rw [sizePattern, run_sequence_cons] at hrun
  -- Any reading of the head will do, but the gap behind it is the shortest that the run can take.
  obtain ⟨_, v, _, _, hv, hanchor, hblock, rfl⟩ := followsReading_of_run _ _ _ _ _ hrun
  obtain ⟨⟨rfl, hedge⟩, rfl⟩ := reads_anchor.mp hanchor
  obtain rfl : w = v := hv
  rw [run_sequence_append] at hblock
  obtain ⟨b, w, _, s, rfl, hb, hinside, rfl⟩ := followsReading_of_run _ _ _ _ _ hblock
  obtain ⟨hhead, rfl⟩ := (denotes_implParts _ _ _ _).mp hb
  obtain ⟨gap, m, body, r, rfl, hgap, hm, hne, hbody, hcapture, hfirst⟩ :=
    exists_of_run_tailParts hinside
  refine ⟨⟨l, b, gap, m, body, r, rfl, (hhead.fits_wordEdge _).mp hedge, hhead, hgap, hm, hne,
    hbody⟩, rfl, ?_, ?_⟩
  · obtain ⟨x, hx, htrim⟩ := Option.map_eq_some_iff.mp hcapture
    have hgroup : capture ([] ++ ([] ++ s.marks)) SizePart.body = some x := hx
    rw [← htrim, Found.group, Found.group?, Match.behind, Match.behind, hgroup,
      Option.getD_some]
  · intro o' hbefore hhead'
    have htext := o'.text
    rw [hbefore, hhead'] at htext
    have hrest := List.append_cancel_left (List.append_cancel_left htext)
    exact hfirst _ _ _ _ hrest o'.isSizeHead o'.body_ne o'.body_brace

theorem text_eq (o : SizeMethod t name) :
    t = o.before ++ (o.head ++ (o.gap ++ (o.signature ++ (o.body ++ ['}'])))) ++ o.rest := by
  simp only [List.append_assoc, List.singleton_append]
  exact o.text

theorem exists_isFirst {f : Found SizePart} (h : (sizePattern name).find? t = some f) :
    ∃ o : SizeMethod t name, o.IsFirst ∧ trim (f.group .body) = trim o.body := by
  obtain ⟨l, w, rfl, hfound, hfirst⟩ := exists_of_find? (not_accepts_sizePattern name) h
  obtain ⟨o, hbefore, htrim, hgap⟩ := exists_of_foundAt? hfound
  refine ⟨o, ⟨?_, hgap⟩, htrim⟩
  intro o'
  rw [hbefore]
  apply Nat.le_of_not_lt
  intro hlt
  exact hfirst _ _ _ o'.text_eq (Nat.zero_le _) hlt o'.accepts

theorem exists_find? (o : SizeMethod t name) : ∃ f, (sizePattern name).find? t = some f := by
  rw [o.text_eq]
  exact Pattern.exists_find? (not_accepts_sizePattern name) o.accepts

end SizeMethod

theorem sizeCalculation_eq_some_iff_find? {text name b : String} :
    sizeCalculation text name = some b ↔
    ∃ f, (sizePattern name.toList).find? text.toList = some f ∧ trim (f.group .body) = b.toList ∧
      b.toList ≠ [] := by
  rw [sizeCalculation, sizeBody, Option.map_eq_some_iff]
  simp only [Option.bind_eq_bind, Option.bind_eq_some_iff, Option.ite_none_left_eq_some,
    List.isEmpty_iff, Option.some.injEq]
  constructor
  · rintro ⟨_, ⟨f, hf, hne, rfl⟩, rfl⟩
    exact ⟨f, hf, String.toList_ofList.symm, by rwa [String.toList_ofList]⟩
  · rintro ⟨f, hf, hb, hne⟩
    exact ⟨b.toList, ⟨f, hf, by rwa [hb], hb⟩, String.ofList_toList⟩

/-- The size calculation of a type is the trimmed body of the first method that gives a size in the
leftmost block that has one, if there is such a body and it is not blank. Such a method stands in
front of every closing brace of its block, and its block is not one for a type with another name. -/
theorem sizeCalculation_eq_some_iff (text name b : String) (hname : IsName name.toList) :
    (sizeCalculation text name = some b ↔ ∃ o : SizeMethod text.toList name.toList,
      o.IsFirst ∧ trim o.body = b.toList ∧ b.toList ≠ []) ∧
    ∀ o : SizeMethod text.toList name.toList, '}' ∉ o.gap ++ (o.signature ++ o.body) ∧
      ∀ other head rest, IsName other → IsImplHead other head →
        text.toList = o.before ++ (head ++ rest) → other = name.toList ∧ head = o.head := by
  refine ⟨?_, ?_⟩
  · rw [sizeCalculation_eq_some_iff_find?]
    constructor
    · rintro ⟨f, hf, htrim, hne⟩
      obtain ⟨o, hfirst, hbody⟩ := SizeMethod.exists_isFirst hf
      exact ⟨o, hfirst, hbody.symm.trans htrim, hne⟩
    · rintro ⟨o, hfirst, htrim, hne⟩
      obtain ⟨f, hf⟩ := o.exists_find?
      obtain ⟨o', hfirst', hbody⟩ := SizeMethod.exists_isFirst hf
      rw [hfirst'.body_eq hname hfirst, htrim] at hbody
      exact ⟨f, hf, hbody, hne⟩
  · intro o
    refine ⟨o.brace_not_mem, ?_⟩
    intro other head rest hother hhead htext
    have hblock := List.append_cancel_left (htext.symm.trans o.text)
    obtain ⟨hword, hsame, _⟩ := hhead.append_inj hother hname o.isImplHead hblock
    exact ⟨hword, hsame⟩

def bedBlocks : String :=
  "impl Beds \x7bfn n()->usize\x7b1\x7d\x7d " ++
    "impl a::Z<T> for Bed<T> \x7bfn n()->usize\x7b 8 \x7d\x7d"

theorem sizeCalculation_bedBlocks : IsName "Bed".toList ∧
    sizeCalculation bedBlocks "Bed" = some "8" ∧
    ∃ o : SizeMethod bedBlocks.toList "Bed".toList, o.IsFirst ∧ trim o.body = "8".toList := by
  have hname : IsName "Bed".toList := by decide
  have hsize : sizeCalculation bedBlocks "Bed" = some "8" := by decide +kernel
  obtain ⟨o, hfirst, hbody, _⟩ :=
    (sizeCalculation_eq_some_iff bedBlocks "Bed" "8" hname).1.mp hsize
  exact ⟨hname, hsize, o, hfirst, hbody⟩

/-- The body of a method goes up to its first closing brace. If its own closing brace stands further
on, behind blocks in the body, then what is found has an opening brace and is not the whole. -/
theorem sizeCalculation_upTo_brace (text name b : String) (h : sizeCalculation text name = some b) :
    '}' ∉ b.toList ∧ ∃ o : SizeMethod text.toList name.toList, o.IsFirst ∧ trim o.body = b.toList ∧
      ∀ x r, o.body ++ '}' :: o.rest = x ++ '}' :: r → Balanced braces x →
        o.body = x.takeWhile (· != '}') ∧ (b.toList = trim x ↔ '{' ∉ b.toList) := by
  obtain ⟨f, hf, htrim, _⟩ := sizeCalculation_eq_some_iff_find?.mp h
  obtain ⟨o, hfirst, hbody⟩ := SizeMethod.exists_isFirst hf
  have hb : trim o.body = b.toList := hbody.symm.trans htrim
  have hclose : '}' ∉ b.toList := by
    rw [← hb, mem_trim_iff rfl]
    exact o.body_brace
  refine ⟨hclose, o, hfirst, hb, ?_⟩
  intro x r htext hx
  -- The body ends at the first closing brace of the complete one, if that has one.
  by_cases hinner : '}' ∈ x
  · obtain ⟨a, y, rfl, ha⟩ := List.eq_append_cons_of_mem hinner
    rw [List.append_assoc, List.cons_append] at htext
    obtain ⟨hcut, _⟩ := append_cons_inj o.body_brace ha htext
    refine ⟨by rw [hcut, takeWhile_ne_append ha], iff_of_false ?_ ?_⟩
    · intro hwhole
      rw [hwhole, mem_trim_iff rfl] at hclose
      exact hclose hinner
    · rw [not_not, ← hb, mem_trim_iff rfl, hcut]
      exact hx.mem_of_append_cons ha
  · obtain ⟨hcut, _⟩ := append_cons_inj o.body_brace hinner htext
    refine ⟨by rw [hcut, takeWhile_ne_eq_self hinner], iff_of_true ?_ ?_⟩
    · rw [← hb, hcut]
    · rw [← hb, mem_trim_iff rfl, hcut]
      exact hx.not_mem_of_not_mem hinner

def constantBlock : String :=
  "impl A \x7b fn s() -> usize \x7b 8 \x7d \x7d"

theorem sizeCalculation_constantBlock : sizeCalculation constantBlock "A" = some "8" ∧
    ∃ o : SizeMethod constantBlock.toList "A".toList, o.IsFirst ∧ trim o.body = "8".toList ∧
      ∀ x r, o.body ++ '}' :: o.rest = x ++ '}' :: r → Balanced braces x → trim x = "8".toList := by
  have hsize : sizeCalculation constantBlock "A" = some "8" := by decide +kernel
  obtain ⟨_, o, hfirst, hbody, hwhole⟩ := sizeCalculation_upTo_brace constantBlock "A" "8" hsize
  refine ⟨hsize, o, hfirst, hbody, ?_⟩
  intro x r htext hx
  exact ((hwhole x r htext hx).2.mpr (by decide)).symm

/-- A body with blocks of its own is cut at the end of the first of them. -/
theorem sizeCalculation_branches :
    sizeCalculation "impl A \x7b fn s() -> usize \x7b if x \x7b 1 \x7d else \x7b 2 \x7d \x7d \x7d"
        "A" =
      some "if x \x7b 1" := by
  decide +kernel

end Scan

end RefDoc
