import RefDoc.Proofs.FunctionRoundTrip
import RefDoc.Scan.Size

namespace RefDoc

open Text Pattern

variable {γ : Type} {p : Pattern γ} {ps : List (Pattern γ)} {P : List Char → Prop}
  {Ps Qs : List (List Char → Prop)} {a b g g' m n w w' x y z z' : List Char} {c : Char}

namespace Text

/-- The text is put together from texts of these kinds, in this order. -/
def InOrder : List (List Char → Prop) → List Char → Prop
  | [], w => w = []
  | P :: Ps, w => ∃ m n, w = m ++ n ∧ P m ∧ InOrder Ps n

theorem inOrder_append :
    InOrder (Ps ++ Qs) w ↔ ∃ m n, w = m ++ n ∧ InOrder Ps m ∧ InOrder Qs n := by
  induction Ps generalizing w with
  | nil =>
    constructor
    · intro h
      exact ⟨[], w, rfl, rfl, h⟩
    · rintro ⟨_, n, rfl, rfl, h⟩
      exact h
  | cons P Ps ih =>
    constructor
    · rintro ⟨m, _, rfl, hm, h⟩
      obtain ⟨n, k, rfl, hn, hk⟩ := ih.mp h
      exact ⟨m ++ n, k, (List.append_assoc ..).symm, ⟨m, n, rfl, hm, hn⟩, hk⟩
    · rintro ⟨_, k, rfl, ⟨m, n, rfl, hm, hn⟩, hk⟩
      exact ⟨m, n ++ k, List.append_assoc .., hm, ih.mpr ⟨n, k, rfl, hn, hk⟩⟩

theorem InOrder.not_mem (h : InOrder Ps w) (hPs : ∀ P ∈ Ps, ∀ m, P m → c ∉ m) : c ∉ w := by
  induction Ps generalizing w with
  | nil =>
    rw [show w = [] from h]
    exact List.not_mem_nil
  | cons P Ps ih =>
    obtain ⟨hP, hPs⟩ := List.forall_mem_cons.mp hPs
    obtain ⟨m, n, rfl, hm, hn⟩ := h
    rw [List.mem_append]
    exact fun h => h.elim (hP m hm) (ih hn hPs)

def IsSpace (w : List Char) : Prop :=
  w ≠ [] ∧ Blank w

theorem IsSpace.stops {f : Char → Bool} (h : IsSpace w) (hf : ∀ c, isBlank c = true → f c = false)
    (x : List Char) : Stops f (w ++ x) := by
  obtain ⟨c, w, rfl⟩ := List.exists_cons_of_ne_nil h.1
  exact .cons (hf c (h.2 c List.mem_cons_self)) _

theorem takeWhile_append_stops {f : Char → Bool} (ha : ∀ c ∈ a, f c = true) (hx : Stops f x) :
    (a ++ x).takeWhile f = a := by
  rw [List.takeWhile_append_of_pos ha]
  cases x with
  | nil => exact List.append_nil a
  | cons c x => rw [List.takeWhile_cons_of_neg (by simp [hx c rfl]), List.append_nil]

theorem append_inj_of_stops {f : Char → Bool} (ha : ∀ c ∈ a, f c = true) (hb : ∀ c ∈ b, f c = true)
    (hx : Stops f x) (hy : Stops f y) (h : a ++ x = b ++ y) : a = b ∧ x = y := by
  have htake := congrArg (List.takeWhile f) h
  rw [takeWhile_append_stops ha hx, takeWhile_append_stops hb hy] at htake
  subst b
  exact ⟨rfl, List.append_cancel_left h⟩

theorem append_cons_inj (ha : c ∉ a) (hb : c ∉ b) (h : a ++ c :: x = b ++ c :: y) :
    a = b ∧ x = y := by
  have htake := congrArg (List.takeWhile (· != c)) h
  rw [takeWhile_ne_append ha, takeWhile_ne_append hb] at htake
  subst b
  exact ⟨rfl, (List.cons.inj (List.append_cancel_left h)).2⟩

end Text

namespace Pattern

/-- The pattern is read off exactly the texts of this kind, whatever stands around them, and passes
no mark. -/
def Denotes (p : Pattern γ) (P : List Char → Prop) : Prop :=
  ∀ l m r ms, Reads p l m r ms ↔ P m ∧ ms = []

theorem denotes_charList (cs : List Char) : Denotes (charList cs : Pattern γ) (· = cs) :=
  fun _ _ _ _ => reads_charList cs

theorem denotes_literal (s : String) : Denotes (literal s : Pattern γ) (· = s.toList) :=
  denotes_charList s.toList

theorem denotes_blanks : Denotes (blanks : Pattern γ) Blank :=
  fun _ _ _ _ => reads_many_char

theorem denotes_blanks1 : Denotes (blanks1 : Pattern γ) IsSpace :=
  fun _ _ _ _ => reads_many1_char

theorem denotes_word : Denotes (word : Pattern γ) IsName :=
  fun _ _ _ _ => reads_many1_char

theorem except_iff_not_mem : (∀ d ∈ w, (!List.contains [c] d) = true) ↔ c ∉ w := by
  constructor
  · intro h hc
    have hf := h c hc
    simp at hf
  · exact except_of_not_mem

theorem denotes_except (c : Char) : Denotes (.many (except [c]) : Pattern γ) (c ∉ ·) := by
  intro l m r ms
  rw [except, reads_many_char, except_iff_not_mem]

theorem Denotes.maybe (h : Denotes p P) : Denotes (maybe p) fun m => m = [] ∨ P m := by
  intro l m r ms
  rw [reads_maybe, h l m r ms, or_comm, or_and_right]

theorem Denotes.sequence (h : List.Forall₂ Denotes ps Ps) : Denotes (sequence ps) (InOrder Ps) := by
  induction h with
  | nil =>
    intro l m r ms
    exact reads_sequence_nil
  | cons hp _ ih =>
    intro l w r ms
    rw [reads_sequence_cons]
    constructor
    · rintro ⟨m, n, as, bs, rfl, rfl, hm, hn⟩
      obtain ⟨hP, rfl⟩ := (hp _ _ _ _).mp hm
      obtain ⟨hPs, rfl⟩ := (ih _ _ _ _).mp hn
      exact ⟨⟨m, n, rfl, hP, hPs⟩, rfl⟩
    · rintro ⟨⟨m, n, rfl, hP, hPs⟩, rfl⟩
      exact ⟨m, n, [], [], rfl, rfl, (hp _ _ _ _).mpr ⟨hP, rfl⟩, (ih _ _ _ _).mpr ⟨hPs, rfl⟩⟩

end Pattern

namespace Scan

/-- Generic parameters or arguments, if there are any, up to the first closing angle bracket. -/
def IsGenerics (w : List Char) : Prop :=
  w = [] ∨ InOrder [(· = "<".toList), ('>' ∉ ·), (· = ">".toList)] w

def isPathChar (c : Char) : Bool :=
  isWord c || c == ':'

def IsPath (w : List Char) : Prop :=
  w ≠ [] ∧ ∀ c ∈ w, isPathChar c = true

/-- The trait that a block implements, if it is for one, up to the type. -/
def IsTraitPart (w : List Char) : Prop :=
  w = [] ∨ InOrder [IsPath, IsGenerics, IsSpace, (· = "for".toList), IsSpace] w

/-- The head of an `impl` block for the type `name`, with its opening brace. -/
def IsImplHead (name : List Char) : List Char → Prop :=
  InOrder [(· = "impl".toList), IsGenerics, IsSpace, IsTraitPart, (· = name), IsGenerics, Blank,
    (· = "\x7b".toList)]

/-- The head of a method without arguments that returns a `usize`, with its opening brace. -/
def IsSizeHead : List Char → Prop :=
  InOrder ([(· = "fn".toList), IsSpace, IsName, Blank, (· = "(".toList), Blank,
    (· = ")".toList), Blank, (· = "->".toList), Blank, (· = "usize".toList), Blank] ++
      [(· = "\x7b".toList)])

section Patterns

variable {name : List Char}

theorem denotes_generics : Denotes (maybe generics : Pattern SizePart) IsGenerics := by
  apply Denotes.maybe
  apply Denotes.sequence
  exact .cons (denotes_literal _) (.cons (denotes_except '>') (.cons (denotes_literal _) .nil))

theorem denotes_implParts : Denotes (sequence (implParts name)) (IsImplHead name) := by
  have hpath : Denotes
      (many1 (.char fun c => Text.isWord c || c == ':') : Pattern SizePart) IsPath :=
    fun _ _ _ _ => reads_many1_char
  have htrait := Denotes.sequence (.cons hpath (.cons denotes_generics (.cons denotes_blanks1
    (.cons (denotes_literal "for") (.cons denotes_blanks1 .nil)))))
  apply Denotes.sequence
  exact .cons (denotes_literal _) (.cons denotes_generics (.cons denotes_blanks1 (.cons htrait.maybe
    (.cons (denotes_charList name) (.cons denotes_generics (.cons denotes_blanks
      (.cons (denotes_literal _) .nil)))))))

theorem denotes_methodParts : Denotes (sequence methodParts) IsSizeHead := by
  have hs (s : String) : Denotes (literal s : Pattern SizePart) (· = s.toList) := denotes_literal s
  have hblanks : Denotes (blanks : Pattern SizePart) Blank := denotes_blanks
  apply Denotes.sequence
  exact .cons (hs _) (.cons denotes_blanks1 (.cons denotes_word (.cons hblanks (.cons (hs _)
    (.cons hblanks (.cons (hs _) (.cons hblanks (.cons (hs _) (.cons hblanks (.cons (hs _)
      (.cons hblanks (.cons (hs _) .nil))))))))))))

end Patterns

theorem isGenerics_iff : IsGenerics g ↔ g = [] ∨ ∃ u, g = '<' :: (u ++ ['>']) ∧ '>' ∉ u := by
  apply or_congr_right
  constructor
  · rintro ⟨_, _, rfl, rfl, u, _, rfl, hu, _, _, rfl, rfl, rfl⟩
    exact ⟨u, rfl, hu⟩
  · rintro ⟨u, rfl, hu⟩
    exact ⟨_, _, rfl, rfl, u, _, rfl, hu, _, [], rfl, rfl, rfl⟩

theorem IsGenerics.append_inj (hg : IsGenerics g) (hg' : IsGenerics g') (hx : Stops (· == '<') x)
    (hy : Stops (· == '<') y) (h : g ++ x = g' ++ y) : g = g' ∧ x = y := by
  rcases isGenerics_iff.mp hg with rfl | ⟨u, rfl, hu⟩
  · rcases isGenerics_iff.mp hg' with rfl | ⟨v, rfl, hv⟩
    · exact ⟨rfl, h⟩
    · rw [show x = '<' :: (v ++ ['>'] ++ y) from h] at hx
      cases hx '<' rfl
  · rcases isGenerics_iff.mp hg' with rfl | ⟨v, rfl, hv⟩
    · rw [show y = '<' :: (u ++ ['>'] ++ x) from h.symm] at hy
      cases hy '<' rfl
    · rw [List.cons_append, List.cons_append, List.append_assoc, List.append_assoc] at h
      obtain ⟨rfl, rfl⟩ := append_cons_inj hu hv (List.cons.inj h).2
      exact ⟨rfl, rfl⟩

theorem isPathChar_eq_false (hc : isBlank c = true) : (isPathChar c || c == '<') = false := by
  have hword : isWord c = false := by
    cases h : isWord c with
    | false => rfl
    | true =>
      rw [isBlank_eq_false_of_isWord h] at hc
      cases hc
  have hne {d : Char} (hd : isBlank d = false) : (c == d) = false := by
    rw [beq_eq_false_iff_ne]
    rintro rfl
    rw [hd] at hc
    cases hc
  rw [isPathChar, hword, hne (d := ':') rfl, hne (d := '<') rfl]
  rfl

/-- A path with its generic arguments and the white space behind them, where the text goes on with
something else. -/
structure Segment (p g w z : List Char) : Prop where
  path : ∀ c ∈ p, isPathChar c = true
  generics : IsGenerics g
  blank : Blank w
  rest : Stops isBlank z
  behind : Stops (fun c => isPathChar c || c == '<') (w ++ z)

namespace Segment

variable {p p' : List Char}

theorem stops_path (h : Segment p g w z) : Stops isPathChar (g ++ (w ++ z)) := by
  rcases isGenerics_iff.mp h.generics with rfl | ⟨u, rfl, _⟩
  · intro c hc
    exact (Bool.or_eq_false_iff.mp (h.behind c hc)).1
  · exact .cons (by decide) _

theorem stops_generics (h : Segment p g w z) : Stops (· == '<') (w ++ z) := by
  intro c hc
  exact (Bool.or_eq_false_iff.mp (h.behind c hc)).2

theorem inj (h : Segment p g w z) (h' : Segment p' g' w' z')
    (heq : p ++ (g ++ (w ++ z)) = p' ++ (g' ++ (w' ++ z'))) :
    p = p' ∧ g = g' ∧ w = w' ∧ z = z' := by
  obtain ⟨rfl, hpath⟩ := append_inj_of_stops h.path h'.path h.stops_path h'.stops_path heq
  obtain ⟨rfl, hgen⟩ := h.generics.append_inj h'.generics h.stops_generics h'.stops_generics hpath
  obtain ⟨rfl, rfl⟩ := append_inj_of_stops h.blank h'.blank h.rest h'.rest hgen
  exact ⟨rfl, rfl, rfl, rfl⟩

end Segment

theorem segment_type (hn : IsName n) (hg : IsGenerics g) (hw : Blank w) (x : List Char) :
    Segment n g w ('{' :: x) where
  path c hc := by rw [isPathChar, hn.2 c hc, Bool.true_or]
  generics := hg
  blank := hw
  rest := .cons (by decide) x
  behind := by
    cases w with
    | nil => exact .cons (by decide) x
    | cons d w => exact .cons (isPathChar_eq_false (hw d List.mem_cons_self)) _

theorem segment_trait (hm : IsPath m) (hg : IsGenerics g) (hw : IsSpace w) (x : List Char) :
    Segment m g w ("for".toList ++ x) where
  path := hm.2
  generics := hg
  blank := hw.2
  rest := .cons (by decide) _
  behind := hw.stops (fun _ => isPathChar_eq_false) _

theorem IsTraitPart.eq_nil_or_exists (h : IsTraitPart w) :
    w = [] ∨ ∃ m g s e, w = m ++ (g ++ (s ++ ("for".toList ++ e))) ∧ IsPath m ∧ IsGenerics g ∧
      IsSpace s ∧ IsSpace e := by
  apply h.imp_right
  rintro ⟨m, _, rfl, hm, g, _, rfl, hg, s, _, rfl, hs, _, _, rfl, rfl, e, _, rfl, he, rfl⟩
  exact ⟨m, g, s, e, by rw [List.append_nil], hm, hg, hs, he⟩

/-- What stands behind the keyword of a block and the white space there: the trait, the name of the
type, its arguments and white space. -/
structure TypePart (k n g w : List Char) : Prop where
  trait : IsTraitPart k
  name : IsName n
  generics : IsGenerics g
  blank : Blank w

namespace TypePart

variable {k k' n' : List Char}

theorem stops_isBlank (h : TypePart k n g w) (x : List Char) : Stops isBlank (k ++ (n ++ x)) := by
  rcases h.trait.eq_nil_or_exists with rfl | ⟨m, _, _, _, rfl, hm, _⟩
  · exact h.name.stops_isBlank x
  · obtain ⟨c, m, rfl⟩ := List.exists_cons_of_ne_nil hm.1
    have hc := hm.2 c List.mem_cons_self
    apply Stops.cons
    cases hb : isBlank c with
    | false => rfl
    | true =>
      rw [(Bool.or_eq_false_iff.mp (isPathChar_eq_false hb)).1] at hc
      cases hc

theorem eq_nil (h : TypePart [] n g w) (h' : TypePart k' n' g' w')
    (heq : n ++ (g ++ (w ++ '{' :: x)) = k' ++ (n' ++ (g' ++ (w' ++ '{' :: y)))) : k' = [] := by
  rcases h'.trait.eq_nil_or_exists with rfl | ⟨m, u, s, e, rfl, hm, hu, hs, _⟩
  · rfl
  · have htype := segment_type h.name h.generics h.blank x
    simp only [List.append_assoc] at heq
    obtain ⟨_, _, _, hrest⟩ := htype.inj (segment_trait hm hu hs _) heq
    cases hrest

theorem inj (h : TypePart k n g w) (h' : TypePart k' n' g' w')
    (heq : k ++ (n ++ (g ++ (w ++ '{' :: x))) = k' ++ (n' ++ (g' ++ (w' ++ '{' :: y)))) :
    k = k' ∧ n = n' ∧ g = g' ∧ w = w' ∧ x = y := by
  have htype := segment_type h.name h.generics h.blank x
  have htype' := segment_type h'.name h'.generics h'.blank y
  have hcut (hk : k = k') : k = k' ∧ n = n' ∧ g = g' ∧ w = w' ∧ x = y := by
    subst k'
    obtain ⟨rfl, rfl, rfl, hrest⟩ := htype.inj htype' (List.append_cancel_left heq)
    exact ⟨rfl, rfl, rfl, rfl, (List.cons.inj hrest).2⟩
  apply hcut
  rcases h.trait.eq_nil_or_exists with rfl | ⟨m, u, s, e, rfl, hm, hu, hs, he⟩
  · exact (h.eq_nil h' heq).symm
  · rcases h'.trait.eq_nil_or_exists with rfl | ⟨m', u', s', e', rfl, hm', hu', hs', he'⟩
    · exact h'.eq_nil h heq.symm
    · simp only [List.append_assoc] at heq
      obtain ⟨rfl, rfl, rfl, hrest⟩ :=
        (segment_trait hm hu hs _).inj (segment_trait hm' hu' hs' _) heq
      obtain ⟨rfl, _⟩ := append_inj_of_stops he.2 he'.2 (h.name.stops_isBlank _)
        (h'.name.stops_isBlank _) (List.append_cancel_left hrest)
      rfl

end TypePart

theorem IsImplHead.exists_eq (h : IsImplHead n a) :
    ∃ g s k u w, a = "impl".toList ++ (g ++ (s ++ (k ++ (n ++ (u ++ (w ++ ['{'])))))) ∧
      IsGenerics g ∧ IsSpace s ∧ IsTraitPart k ∧ IsGenerics u ∧ Blank w := by
  obtain ⟨_, _, rfl, rfl, g, _, rfl, hg, s, _, rfl, hs, k, _, rfl, hk, _, _, rfl, rfl, u, _,
    rfl, hu, w, _, rfl, hw, _, _, rfl, rfl, rfl⟩ := h
  exact ⟨g, s, k, u, w, rfl, hg, hs, hk, hu, hw⟩

/-- The text determines how far the head of a block reaches, and the type in it. -/
theorem IsImplHead.append_inj {n' : List Char} (hn : IsName n) (hn' : IsName n')
    (ha : IsImplHead n a) (hb : IsImplHead n' b) (h : a ++ x = b ++ y) :
    n = n' ∧ a = b ∧ x = y := by
  obtain ⟨g, s, k, u, w, rfl, hg, hs, hk, hu, hw⟩ := ha.exists_eq
  obtain ⟨g', s', k', u', w', rfl, hg', hs', hk', hu', hw'⟩ := hb.exists_eq
  have ht : TypePart k n u w := ⟨hk, hn, hu, hw⟩
  have ht' : TypePart k' n' u' w' := ⟨hk', hn', hu', hw'⟩
  have hspace {c : Char} (hc : isBlank c = true) : (c == '<') = false :=
    (Bool.or_eq_false_iff.mp (isPathChar_eq_false hc)).2
  simp only [List.append_assoc, List.singleton_append] at h
  obtain ⟨rfl, hspaced⟩ := hg.append_inj hg' (hs.stops (fun _ => hspace) _)
    (hs'.stops (fun _ => hspace) _) (List.append_cancel_left h)
  obtain ⟨rfl, htype⟩ :=
    append_inj_of_stops hs.2 hs'.2 (ht.stops_isBlank _) (ht'.stops_isBlank _) hspaced
  obtain ⟨rfl, rfl, rfl, rfl, rfl⟩ := ht.inj ht' htype
  exact ⟨rfl, rfl, rfl⟩

theorem IsSizeHead.exists_eq (h : IsSizeHead m) : ∃ u, m = u ++ ['{'] ∧ '{' ∉ u ∧ '}' ∉ u := by
  obtain ⟨u, _, rfl, hu, _, _, rfl, rfl, rfl⟩ := inOrder_append.mp h
  have hnot {c : Char} (hblank : isBlank c = false) (hword : isWord c = false)
      (hlit : c ∉ "fn()->usize".toList) : c ∉ u := by
    have hliteral {s : String} (hs : s.toList ⊆ "fn()->usize".toList) (m : List Char)
        (hm : m = s.toList) : c ∉ m := by
      rw [hm]
      exact fun hc => hlit (hs hc)
    have hblanks (m : List Char) (hm : Blank m) : c ∉ m := hm.not_mem hblank
    have hspace (m : List Char) (hm : IsSpace m) : c ∉ m := hblanks m hm.2
    have hname (m : List Char) (hm : IsName m) : c ∉ m := by
      intro hc
      rw [hm.2 c hc] at hword
      cases hword
    apply hu.not_mem
    simp only [List.forall_mem_cons]
    exact ⟨hliteral (by decide), hspace, hname, hblanks, hliteral (by decide), hblanks,
      hliteral (by decide), hblanks, hliteral (by decide), hblanks, hliteral (by decide), hblanks,
      nofun⟩
  exact ⟨u, rfl, hnot (by decide) (by decide) (by decide), hnot (by decide) (by decide) (by decide)⟩

end Scan

end RefDoc
