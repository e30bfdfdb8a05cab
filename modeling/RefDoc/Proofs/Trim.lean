import RefDoc.Text.Split
import RefDoc.Text.Word
import Mathlib.Data.List.DropRight

namespace RefDoc.Text

variable {a b t : List Char}

theorem forall_mem_of_all {α : Type} {P : α → Prop} [DecidablePred P] {as : List α}
    (h : as.all (fun a => decide (P a)) = true) : ∀ a ∈ as, P a := by
  intro a ha
  exact of_decide_eq_true (List.all_eq_true.mp h a ha)

def Blank (t : List Char) : Prop :=
  ∀ c ∈ t, isBlank c = true

theorem isBlank_newline : isBlank '\n' = true := by decide

theorem isBlank_space : isBlank ' ' = true := by decide

theorem blank_nil : Blank [] := by
  intro c hc
  cases hc

theorem blank_newline : Blank ['\n'] := by
  intro c hc
  rw [List.mem_singleton.mp hc]
  exact isBlank_newline

theorem blank_spaces (h : ∀ c ∈ t, c = ' ') : Blank t := by
  intro c hc
  rw [h c hc]
  exact isBlank_space

theorem Blank.append (ha : Blank a) (hb : Blank b) : Blank (a ++ b) := by
  intro c hc
  rcases List.mem_append.mp hc with hc | hc
  · exact ha c hc
  · exact hb c hc

theorem Blank.not_mem {c : Char} (h : Blank t) (hc : isBlank c = false) : c ∉ t := by
  intro hmem
  rw [h c hmem] at hc
  cases hc

/-- The text does not begin with a character that satisfies `f`. -/
def Stops (f : Char → Bool) (t : List Char) : Prop :=
  ∀ c, t.head? = some c → f c = false

theorem Stops.cons {f : Char → Bool} {c : Char} (h : f c = false) (t : List Char) :
    Stops f (c :: t) := by
  intro d hd
  cases hd
  exact h

theorem Stops.append {f : Char → Bool} (h : Stops f a) (hne : a ≠ []) (t : List Char) :
    Stops f (a ++ t) := by
  intro d hd
  cases a with
  | nil => exact absurd rfl hne
  | cons c a => exact h d hd

/-- There is no white space at either end. -/
def Trimmed (t : List Char) : Prop :=
  trim t = t

instance (t : List Char) : Decidable (Trimmed t) :=
  inferInstanceAs (Decidable (trim t = t))

theorem trimStart_suffix (t : List Char) : trimStart t <:+ t :=
  List.dropWhile_suffix isBlank

theorem prefixOf_trimEnd (t : List Char) : trimEnd t <+: t :=
  List.rdropWhile_prefix isBlank t

theorem mem_of_mem_trim {c : Char} (h : c ∈ trim t) : c ∈ t :=
  (trimStart_suffix t).subset ((prefixOf_trimEnd _).subset h)

theorem trimStart_append (ha : Blank a) : trimStart (a ++ t) = trimStart t :=
  List.dropWhile_append_of_pos ha

theorem trimEnd_append (hb : Blank b) : trimEnd (t ++ b) = trimEnd t := by
  have hb' : ∀ c ∈ b.reverse, isBlank c = true := by
    intro c hc
    exact hb c (List.mem_reverse.mp hc)
  rw [trimEnd, trimEnd, List.reverse_append, List.dropWhile_append_of_pos hb']

theorem trimStart_eq_self (h : Stops isBlank t) : trimStart t = t := by
  cases t with
  | nil => rfl
  | cons c t =>
    have hc := h c rfl
    rw [trimStart, List.dropWhile_cons_of_neg (by simp [hc])]

theorem trimEnd_eq_self (h : ∀ c, t.getLast? = some c → isBlank c = false) : trimEnd t = t := by
  have hr : trimStart t.reverse = t.reverse := by
    apply trimStart_eq_self
    intro c hc
    exact h c (by rwa [List.head?_reverse] at hc)
  rw [trimEnd]
  change (trimStart t.reverse).reverse = t
  rw [hr, List.reverse_reverse]

theorem head_trimStart {c : Char} (h : (trimStart t).head? = some c) : isBlank c = false := by
  have hn := List.head?_dropWhile_not isBlank t
  rw [trimStart] at h
  rw [h] at hn
  simpa using hn

theorem getLast_trimEnd {c : Char} (h : (trimEnd t).getLast? = some c) : isBlank c = false := by
  rw [trimEnd, List.getLast?_reverse] at h
  exact head_trimStart h

theorem head_trimEnd {c : Char} (h : (trimEnd t).head? = some c) : t.head? = some c := by
  obtain ⟨b, hb⟩ := prefixOf_trimEnd t
  rw [← hb, List.head?_append, h, Option.some_or]

theorem trimmed_iff :
    Trimmed t ↔ Stops isBlank t ∧ ∀ c, t.getLast? = some c → isBlank c = false := by
  refine ⟨fun h => ?_, fun h => ?_⟩
  · rw [← show trim t = t from h]
    exact ⟨fun c hc => head_trimStart (head_trimEnd hc), fun c hc => getLast_trimEnd hc⟩
  · rw [Trimmed, trim, trimStart_eq_self h.1, trimEnd_eq_self h.2]

theorem trimmed_trim (t : List Char) : Trimmed (trim t) := by
  apply trimmed_iff.mpr
  exact ⟨fun c hc => head_trimStart (head_trimEnd hc), fun c hc => getLast_trimEnd hc⟩

theorem trimmed_nil : Trimmed [] := rfl

theorem Trimmed.trim_append (h : Trimmed t) (ha : Blank a) (hb : Blank b) :
    trim (a ++ t ++ b) = t := by
  obtain ⟨hh, hl⟩ := trimmed_iff.mp h
  rw [trim, List.append_assoc, trimStart_append ha]
  cases t with
  | nil =>
    have he : trimStart b = [] := by
      rw [trimStart, List.dropWhile_eq_nil_iff]
      exact hb
    rw [List.nil_append, he]
    rfl
  | cons c t =>
    have hs : trimStart (c :: t ++ b) = c :: t ++ b := trimStart_eq_self hh
    rw [hs, trimEnd_append hb, trimEnd_eq_self hl]

theorem Trimmed.exists_trim_append (ha : Trimmed a) (hne : a ≠ []) (ht : Trimmed t) (hb : Blank b) :
    ∃ z, trim (b ++ (a ++ ' ' :: t)) = a ++ z ∧ trim z = t := by
  cases t with
  | nil =>
    have h := ha.trim_append hb (blank_spaces (t := [' ']) (by simp))
    rw [List.append_assoc] at h
    exact ⟨[], by rw [h, List.append_nil], rfl⟩
  | cons c t =>
    have hs := ht.trim_append (blank_spaces (t := [' ']) (by simp)) blank_nil
    rw [List.append_nil] at hs
    have hline : Trimmed (a ++ ' ' :: c :: t) := by
      apply trimmed_iff.mpr
      refine ⟨(trimmed_iff.mp ha).1.append hne _, fun x hx => ?_⟩
      apply (trimmed_iff.mp ht).2
      rwa [List.getLast?_append_cons, List.getLast?_cons_cons] at hx
    have h := hline.trim_append hb blank_nil
    rw [List.append_nil] at h
    exact ⟨' ' :: c :: t, h, hs⟩

theorem trimStart_append_cons {c : Char} (hc : isBlank c = false) (a t : List Char) :
    trimStart (a ++ c :: t) = trimStart a ++ c :: t := by
  induction a with
  | nil => rw [List.nil_append, trimStart, List.dropWhile_cons_of_neg (by simp [hc])]; rfl
  | cons b a ih =>
    by_cases hb : isBlank b = true
    · rw [List.cons_append, trimStart, List.dropWhile_cons_of_pos hb, trimStart,
        List.dropWhile_cons_of_pos hb]
      exact ih
    · rw [List.cons_append, trimStart, List.dropWhile_cons_of_neg hb, trimStart,
        List.dropWhile_cons_of_neg hb, List.cons_append]

theorem exists_eq_trim (t : List Char) :
    ∃ a b, t = a ++ (trim t ++ b) ∧ Blank a ∧ Blank b ∧ (trim t = [] → b = []) := by
  have ht : t.takeWhile isBlank ++ trimStart t = t := List.takeWhile_append_dropWhile
  have hblank : Blank (t.takeWhile isBlank) := fun c hc => List.mem_takeWhile_imp hc
  have hrev : (trimStart t).reverse.takeWhile isBlank ++ (trim t).reverse =
      (trimStart t).reverse := by
    rw [trim, trimEnd, List.reverse_reverse, List.takeWhile_append_dropWhile]
  have hs : trim t ++ ((trimStart t).reverse.takeWhile isBlank).reverse = trimStart t := by
    rw [← List.reverse_inj, List.reverse_append, List.reverse_reverse, hrev]
  have hend : Blank ((trimStart t).reverse.takeWhile isBlank).reverse :=
    fun c hc => List.mem_takeWhile_imp (List.mem_reverse.mp hc)
  refine ⟨_, _, by rw [hs, ht], hblank, hend, ?_⟩
  intro hnil
  rw [hnil, List.nil_append] at hs
  rw [hs] at hend ⊢
  cases hw : trimStart t with
  | nil => rfl
  | cons c w =>
    have hc := hend c (hw ▸ List.mem_cons_self)
    rw [head_trimStart (by rw [hw]; rfl)] at hc
    cases hc

theorem mem_trim_iff {c : Char} (hc : isBlank c = false) : c ∈ trim t ↔ c ∈ t := by
  constructor
  · exact mem_of_mem_trim
  · intro h
    obtain ⟨a, b, ht, ha, hb, _⟩ := exists_eq_trim t
    rw [ht] at h
    simpa [ha.not_mem hc, hb.not_mem hc] using h

theorem prefix_of_not_mem {m r w : List Char} {c : Char} (h : a ++ c :: w = m ++ r) (hm : c ∉ m) :
    m <+: a := by
  rcases List.append_eq_append_iff.mp h with ⟨y, rfl, hy⟩ | ⟨y, rfl, _⟩
  · cases y with
    | nil => exact ⟨[], (List.append_assoc ..).trans (List.append_nil _)⟩
    | cons d y =>
      obtain ⟨rfl, _⟩ := List.cons.inj hy
      exact absurd (List.mem_append_right a List.mem_cons_self) hm
  · exact List.prefix_append m y

theorem takeWhile_ne_eq_self {c : Char} (h : c ∉ t) : t.takeWhile (· != c) = t := by
  rw [List.takeWhile_eq_self_iff]
  intro d hd
  rw [bne_iff_ne]
  rintro rfl
  exact h hd

theorem takeWhile_ne_append {c : Char} (h : c ∉ t) (r : List Char) :
    (t ++ c :: r).takeWhile (· != c) = t := by
  have ht := List.takeWhile_eq_self_iff.mp (takeWhile_ne_eq_self h)
  rw [List.takeWhile_append_of_pos ht, List.takeWhile_cons_of_neg (by simp), List.append_nil]

theorem not_mem_takeWhile_ne (c : Char) (t : List Char) : c ∉ t.takeWhile (· != c) := by
  intro h
  have hne := List.mem_takeWhile_imp h
  rw [bne_self_eq_false] at hne
  cases hne

theorem append_eq_takeWhile_ne (t : List Char) (c : Char) :
    t ++ [c] = t.takeWhile (· != c) ++ c :: ((t ++ [c]).dropWhile (· != c)).tail := by
  induction t with
  | nil => simp
  | cons d t ih =>
    by_cases hd : d = c
    · simp [hd]
    · have hne : (d != c) = true := bne_iff_ne.mpr hd
      simp only [List.takeWhile_cons, List.dropWhile_cons, List.cons_append, hne, if_true]
      rw [← ih]

def blankCodes : List Nat :=
  [0x9, 0xa, 0xb, 0xc, 0xd, 0x20, 0x85, 0xa0, 0x1680, 0x2000, 0x2001, 0x2002, 0x2003, 0x2004,
   0x2005, 0x2006, 0x2007, 0x2008, 0x2009, 0x200a, 0x2028, 0x2029, 0x202f, 0x205f, 0x3000]

theorem mem_blankCodes {c : Char} (h : isBlank c = true) : c.toNat ∈ blankCodes := by
  simp only [isBlank, Bool.or_eq_true, Bool.and_eq_true, decide_eq_true_eq, beq_iff_eq] at h
  simp only [blankCodes, List.mem_cons, List.not_mem_nil, or_false]
  omega

theorem isBlank_eq_false_of_isWord {c : Char} (h : isWord c = true) : isBlank c = false := by
  cases hb : isBlank c with
  | false => rfl
  | true =>
    have hall : ∀ n ∈ blankCodes, isWord (Char.ofNat n) = false := by decide +kernel
    rw [← Char.ofNat_toNat c, hall _ (mem_blankCodes hb)] at h
    cases h

section Split

variable {α : Type} {sep : α → Bool}

theorem splitWhere_eq_singleton {as : List α} (h : ∀ a ∈ as, sep a = false) :
    splitWhere sep as = [as] := by
  induction as with
  | nil => rfl
  | cons a as ih =>
    obtain ⟨ha, has⟩ := List.forall_mem_cons.mp h
    rw [splitWhere, ha, ih has]
    rfl

theorem splitWhere_ne_nil (as : List α) : splitWhere sep as ≠ [] := by
  cases as with
  | nil => exact List.cons_ne_nil _ _
  | cons a as =>
    rw [splitWhere]
    split
    · exact List.cons_ne_nil _ _
    · cases splitWhere sep as with
      | nil => exact List.cons_ne_nil _ _
      | cons x xs => exact List.cons_ne_nil _ _

theorem splitWhere_append_sep {s : α} (as bs : List α) (hs : sep s = true) :
    splitWhere sep (as ++ s :: bs) = splitWhere sep as ++ splitWhere sep bs := by
  induction as with
  | nil => simp [splitWhere, hs]
  | cons a as ih =>
    rw [List.cons_append, splitWhere, splitWhere, ih]
    split
    · rfl
    · have hne : splitWhere sep as ≠ [] := splitWhere_ne_nil as
      obtain ⟨x, xs, hx⟩ := List.exists_cons_of_ne_nil hne
      rw [hx]
      rfl

theorem splitWhere_append {as : List α} {s : α} (bs : List α) (h : ∀ a ∈ as, sep a = false)
    (hs : sep s = true) : splitWhere sep (as ++ s :: bs) = as :: splitWhere sep bs := by
  rw [splitWhere_append_sep as bs hs, splitWhere_eq_singleton h]
  rfl

theorem of_mem_splitWhere {as x : List α} (hx : x ∈ splitWhere sep as) :
    ∀ a ∈ x, a ∈ as ∧ sep a = false := by
  induction as generalizing x with
  | nil =>
    obtain rfl := List.mem_singleton.mp hx
    intro a ha
    cases ha
  | cons b bs ih =>
    have ih' {y : List α} (hy : y ∈ splitWhere sep bs) : ∀ a ∈ y, a ∈ b :: bs ∧ sep a = false :=
      fun a ha => ⟨List.mem_cons_of_mem b (ih hy a ha).1, (ih hy a ha).2⟩
    rw [splitWhere] at hx
    split at hx
    · rcases List.mem_cons.mp hx with rfl | hx
      · intro a ha
        cases ha
      · exact ih' hx
    · next hb =>
      cases hs : splitWhere sep bs with
      | nil => exact absurd hs (splitWhere_ne_nil bs)
      | cons y ys =>
        rw [hs] at hx
        rcases List.mem_cons.mp hx with rfl | hx
        · have hy := ih' (hs ▸ List.mem_cons_self)
          exact List.forall_mem_cons.mpr ⟨⟨List.mem_cons_self, Bool.eq_false_iff.mpr hb⟩, hy⟩
        · exact ih' (hs ▸ List.mem_cons_of_mem y hx)

end Split

theorem intercalate_splitWhere (c : Char) (t : List Char) :
    [c].intercalate (splitWhere (· == c) t) = t := by
  induction t with
  | nil => rfl
  | cons d t ih =>
    rw [splitWhere]
    cases hs : splitWhere (· == c) t with
    | nil => exact absurd hs (splitWhere_ne_nil t)
    | cons x xs =>
      rw [hs] at ih
      split
      · next hd => rw [List.intercalate_cons_cons, ih, beq_iff_eq.mp hd, List.nil_append,
          List.singleton_append]
      · rw [consFirst]
        cases xs with
        | nil =>
          rw [List.intercalate_singleton] at ih ⊢
          rw [ih]
        | cons y ys =>
          rw [List.intercalate_cons_cons] at ih ⊢
          rw [List.cons_append, List.cons_append, ih]

theorem unlines_lines (t : List Char) : unlines (lines t) = t :=
  intercalate_splitWhere '\n' t

theorem newline_not_mem_of_mem_lines {x : List Char} (h : x ∈ lines t) : '\n' ∉ x := by
  intro hn
  have hf := (of_mem_splitWhere h _ hn).2
  simp at hf

theorem mem_of_mem_lines {x : List Char} (h : x ∈ lines t) : x ⊆ t :=
  fun c hc => (of_mem_splitWhere h c hc).1

theorem mem_intercalate {c : Char} {sep : List Char} {ps : List (List Char)}
    (h : c ∈ sep.intercalate ps) : c ∈ sep ∨ ∃ p ∈ ps, c ∈ p := by
  induction ps with
  | nil => cases h
  | cons p ps ih =>
    cases ps with
    | nil =>
      rw [List.intercalate_singleton] at h
      exact .inr ⟨p, List.mem_cons_self, h⟩
    | cons q ps =>
      rw [List.intercalate_cons_cons, List.mem_append, List.mem_append] at h
      rcases h with (h | h) | h
      · exact .inr ⟨p, List.mem_cons_self, h⟩
      · exact .inl h
      · rcases ih h with h | ⟨t, ht, h⟩
        · exact .inl h
        · exact .inr ⟨t, List.mem_cons_of_mem p ht, h⟩

theorem not_mem_iff_beq {x : List Char} {c : Char} : c ∉ x ↔ ∀ d ∈ x, (d == c) = false := by
  refine ⟨fun h d hd => ?_, fun h hn => ?_⟩
  · rw [beq_eq_false_iff_ne]
    intro he
    subst d
    exact h hd
  · have hf := h _ hn
    simp at hf

theorem splitWhere_intercalate {c : Char} {ps : List (List Char)} (hne : ps ≠ [])
    (h : ∀ x ∈ ps, c ∉ x) : splitWhere (· == c) ([c].intercalate ps) = ps := by
  induction ps with
  | nil => exact absurd rfl hne
  | cons x ps ih =>
    obtain ⟨hx, hps⟩ := List.forall_mem_cons.mp h
    cases ps with
    | nil =>
      rw [List.intercalate_singleton]
      exact splitWhere_eq_singleton (not_mem_iff_beq.mp hx)
    | cons y ps =>
      rw [List.intercalate_cons_cons, List.append_assoc, List.singleton_append,
        splitWhere_append _ (not_mem_iff_beq.mp hx) (beq_self_eq_true c)]
      exact congrArg _ (ih (List.cons_ne_nil y ps) hps)

theorem lines_eq_singleton {x : List Char} (h : '\n' ∉ x) : lines x = [x] :=
  splitWhere_eq_singleton (not_mem_iff_beq.mp h)

theorem lines_append {x : List Char} (h : '\n' ∉ x) (t : List Char) :
    lines (x ++ '\n' :: t) = x :: lines t :=
  splitWhere_append t (not_mem_iff_beq.mp h) rfl

theorem lines_unlines {ls : List (List Char)} (hne : ls ≠ []) (h : ∀ x ∈ ls, '\n' ∉ x) :
    lines (unlines ls) = ls :=
  splitWhere_intercalate hne h

end RefDoc.Text
