import RefDoc.Nesting
import RefDoc.Proofs.Trim

namespace RefDoc.Nesting

variable {t r : List Char}

def depthBehind (depth : Nat) (prev : Option Char) : List Char → Nat
  | [] => depth
  | c :: cs => depthBehind (depthAfter depth prev c) (some c) cs

/-- No bracket is open behind the text. -/
def Closed (t : List Char) : Prop :=
  depthBehind 0 none t = 0

/-- No character with the property stands outside all brackets. -/
def OnlyNested (f : Char → Bool) (t : List Char) : Prop :=
  ∀ x ∈ depths t, x.2 = 0 → f x.1 = false

instance (t : List Char) : Decidable (Closed t) :=
  inferInstanceAs (Decidable (_ = _))

instance (f : Char → Bool) (t : List Char) : Decidable (OnlyNested f t) :=
  inferInstanceAs (Decidable (∀ x ∈ depths t, x.2 = 0 → f x.1 = false))

theorem map_fst_depthsFrom (d : Nat) (prev : Option Char) (t : List Char) :
    (depthsFrom d prev t).map (·.1) = t := by
  induction t generalizing d prev with
  | nil => rfl
  | cons c t ih => rw [depthsFrom, List.map_cons, ih]

theorem depthAfter_prev {prev : Option Char} (h : prev ≠ some '-') (d : Nat) (c : Char) :
    depthAfter d prev c = depthAfter d none c := by
  have hp : (prev == some '-') = false := beq_eq_false_iff_ne.mpr h
  simp only [depthAfter, hp]
  rfl

theorem depthsFrom_prev {prev : Option Char} (h : prev ≠ some '-') (d : Nat) (t : List Char) :
    depthsFrom d prev t = depthsFrom d none t := by
  cases t with
  | nil => rfl
  | cons c t => rw [depthsFrom, depthsFrom, depthAfter_prev h]

theorem depthBehind_prev {prev : Option Char} (h : prev ≠ some '-') (d : Nat) (t : List Char) :
    depthBehind d prev t = depthBehind d none t := by
  cases t with
  | nil => rfl
  | cons c t => rw [depthBehind, depthBehind, depthAfter_prev h]

theorem getLast?_cons_or (c : Char) (t : List Char) (prev : Option Char) :
    (c :: t).getLast?.or prev = t.getLast?.or (some c) := by
  rw [List.getLast?_cons, Option.some_or]
  cases t.getLast? <;> rfl

theorem depthsFrom_append (d : Nat) (prev : Option Char) (t r : List Char) :
    depthsFrom d prev (t ++ r) =
      depthsFrom d prev t ++ depthsFrom (depthBehind d prev t) (t.getLast?.or prev) r := by
  induction t generalizing d prev with
  | nil => rfl
  | cons c t ih =>
    rw [List.cons_append, depthsFrom, ih, depthBehind, depthsFrom, List.cons_append,
      getLast?_cons_or]

theorem depthBehind_append (d : Nat) (prev : Option Char) (t r : List Char) :
    depthBehind d prev (t ++ r) =
      depthBehind (depthBehind d prev t) (t.getLast?.or prev) r := by
  induction t generalizing d prev with
  | nil => rfl
  | cons c t ih =>
    rw [List.cons_append, depthBehind, ih, depthBehind, getLast?_cons_or]

theorem depths_append (h : Closed t) (r : List Char) :
    depths (t ++ r) = depths t ++ depthsFrom 0 t.getLast? r := by
  rw [depths, depthsFrom_append, show depthBehind 0 none t = 0 from h, Option.or_none]
  rfl

theorem OnlyNested.not_stop {f : Char → Bool} (h : OnlyNested f t) :
    ∀ x ∈ depths t, (x.2 == 0 && f x.1) = false := by
  intro x hx
  by_cases hd : x.2 = 0
  · rw [h x hx hd, Bool.and_false]
  · rw [beq_eq_false_iff_ne.mpr hd, Bool.false_and]

theorem takeWhile_depths {f : Char → Bool} (h : OnlyNested f t) (xs : List (Char × Nat)) :
    (depths t ++ xs).takeWhile (fun x => !(x.2 == 0 && f x.1)) =
      depths t ++ xs.takeWhile fun x => !(x.2 == 0 && f x.1) := by
  apply List.takeWhile_append_of_pos
  intro x hx
  rw [h.not_stop x hx]
  rfl

theorem takeUntil_append {stop : Char → Bool} {c : Char} (hc : Closed t)
    (ht : OnlyNested stop t) (hs : stop c = true) (r : List Char) :
    takeUntil stop (t ++ c :: r) = t := by
  have hstop : (depthsFrom 0 t.getLast? (c :: r)).takeWhile (fun x => !(x.2 == 0 && stop x.1)) =
      [] := by
    rw [depthsFrom, List.takeWhile_cons_of_neg]
    simp [hs]
  change ((depths (t ++ c :: r)).takeWhile (fun x => !(x.2 == 0 && stop x.1))).map (·.1) = t
  rw [depths_append hc, takeWhile_depths ht, hstop, List.append_nil]
  exact map_fst_depthsFrom 0 none t

theorem takeUntil_eq_self {stop : Char → Bool} (h : OnlyNested stop t) : takeUntil stop t = t := by
  have htake := takeWhile_depths h []
  rw [List.append_nil, List.takeWhile_nil, List.append_nil] at htake
  change ((depths t).takeWhile (fun x => !(x.2 == 0 && stop x.1))).map (·.1) = t
  rw [htake]
  exact map_fst_depthsFrom 0 none t

theorem Closed.append {a : List Char} (ha : Closed a) (hl : a.getLast? ≠ some '-') (ht : Closed t) :
    Closed (a ++ t) := by
  rw [Closed, depthBehind_append, show depthBehind 0 none a = 0 from ha, Option.or_none,
    depthBehind_prev hl]
  exact ht

theorem OnlyNested.append {f : Char → Bool} {a : List Char} (h : OnlyNested f a) (ha : Closed a)
    (hl : a.getLast? ≠ some '-') (ht : OnlyNested f t) : OnlyNested f (a ++ t) := by
  intro x hx
  rw [depths_append ha, depthsFrom_prev hl, List.mem_append] at hx
  rcases hx with hx | hx
  · exact h x hx
  · exact ht x hx

theorem fst_mem_of_mem_depthsFrom {d : Nat} {prev : Option Char} {x : Char × Nat}
    (hx : x ∈ depthsFrom d prev t) : x.1 ∈ t := by
  have h := List.mem_map_of_mem (f := (·.1)) hx
  rwa [map_fst_depthsFrom] at h

theorem OnlyNested.append_of_forall {f : Char → Bool} (h : OnlyNested f t)
    (hr : ∀ c ∈ r, f c = false) : OnlyNested f (t ++ r) := by
  intro x hx
  rw [depths, depthsFrom_append, List.mem_append] at hx
  rcases hx with hx | hx
  · exact h x hx
  · intro _
    exact hr x.1 (fst_mem_of_mem_depthsFrom hx)

theorem onlyNested_of_not_mem {c : Char} (h : c ∉ t) : OnlyNested (· == c) t := by
  intro x hx _
  rw [beq_eq_false_iff_ne]
  intro he
  exact h (he ▸ fst_mem_of_mem_depthsFrom hx)

def Unbracketed (t : List Char) : Prop :=
  ∀ c ∈ t, c ∉ "<>()[]".toList

theorem unbracketed_iff {t : List Char} :
    Unbracketed t ↔ t.all (fun c => !"<>()[]".toList.contains c) = true := by
  simp [Unbracketed]

instance (t : List Char) : Decidable (Unbracketed t) :=
  decidable_of_iff' _ unbracketed_iff

theorem depthAfter_of_unbracketed {c : Char} (hc : c ∉ "<>()[]".toList) (d : Nat)
    (prev : Option Char) : depthAfter d prev c = d := by
  simp at hc
  simp [depthAfter, hc]

theorem Unbracketed.depthBehind_eq (h : Unbracketed t) (d : Nat) (prev : Option Char) :
    depthBehind d prev t = d := by
  induction t generalizing prev with
  | nil => rfl
  | cons c t ih =>
    obtain ⟨hc, ht⟩ := List.forall_mem_cons.mp h
    rw [depthBehind, depthAfter_of_unbracketed hc, ih ht]

theorem Unbracketed.closed (h : Unbracketed t) : Closed t :=
  h.depthBehind_eq 0 none

theorem Unbracketed.snd_of_mem_depthsFrom (h : Unbracketed t) {d : Nat} {prev : Option Char}
    {x : Char × Nat} (hx : x ∈ depthsFrom d prev t) : x.2 = d := by
  induction t generalizing prev with
  | nil => cases hx
  | cons c t ih =>
    obtain ⟨hc, ht⟩ := List.forall_mem_cons.mp h
    rw [depthsFrom, depthAfter_of_unbracketed hc, List.mem_cons] at hx
    rcases hx with rfl | hx
    · rfl
    · exact ih ht hx

theorem OnlyNested.append_of_not_closed {f : Char → Bool} (h : OnlyNested f t) (ht : ¬Closed t)
    (hr : Unbracketed r) : OnlyNested f (t ++ r) := by
  intro x hx hd
  rw [depths, depthsFrom_append, List.mem_append] at hx
  rcases hx with hx | hx
  · exact h x hx hd
  · rw [hr.snd_of_mem_depthsFrom hx] at hd
    exact absurd hd ht

theorem splitAtCommas_eq_singleton (h : OnlyNested (· == ',') t) : splitAtCommas t = [t] := by
  rw [splitAtCommas, Text.splitWhere_eq_singleton h.not_stop, List.map_singleton]
  exact congrArg (fun x => [x]) (map_fst_depthsFrom 0 none t)

/-- The first comma outside all brackets ends the first piece. -/
theorem splitAtCommas_append (hc : Closed t) (ht : OnlyNested (· == ',') t) (r : List Char) :
    splitAtCommas (t ++ ',' :: r) = t :: splitAtCommas r := by
  have hr : depthsFrom (depthAfter 0 t.getLast? ',') (some ',') r = depths r :=
    depthsFrom_prev (by decide) 0 r
  rw [splitAtCommas, depths_append hc, depthsFrom, hr, Text.splitWhere_append _ ht.not_stop rfl,
    List.map_cons]
  exact congrArg (· :: _) (map_fst_depthsFrom 0 none t)

/-- Pieces joined by commas and spaces come apart again, with the spaces in front of them. -/
theorem splitAtCommas_intercalate {ps : List (List Char)}
    (h : ∀ p ∈ t :: ps, Closed p ∧ OnlyNested (· == ',') p) :
    splitAtCommas ([',', ' '].intercalate (t :: ps)) = t :: ps.map (' ' :: ·) := by
  induction ps generalizing t with
  | nil =>
    rw [List.intercalate_singleton, splitAtCommas_eq_singleton (h t List.mem_cons_self).2]
    rfl
  | cons p ps ih =>
    obtain ⟨ht, hps⟩ := List.forall_mem_cons.mp h
    obtain ⟨hp, hps⟩ := List.forall_mem_cons.mp hps
    have hspace : Closed (' ' :: p) ∧ OnlyNested (· == ',') (' ' :: p) :=
      ⟨Closed.append (a := [' ']) rfl (by decide) hp.1,
        OnlyNested.append (a := [' ']) (onlyNested_of_not_mem (by decide)) rfl (by decide) hp.2⟩
    have hjoin : [',', ' '].intercalate (t :: p :: ps) =
        t ++ ',' :: [',', ' '].intercalate ((' ' :: p) :: ps) := by
      cases ps with
      | nil => simp [List.intercalate]
      | cons q ps => simp [List.intercalate_cons_cons]
    rw [hjoin, splitAtCommas_append ht.1 ht.2, ih (List.forall_mem_cons.mpr ⟨hspace, hps⟩)]
    rfl

theorem getLast?_ne_comma (hc : Closed t) (ht : OnlyNested (· == ',') t) :
    t.getLast? ≠ some ',' := by
  intro hl
  obtain ⟨t, rfl⟩ := List.getLast?_eq_some_iff.mp hl
  rw [Closed, depthBehind_append] at hc
  have hd : depthBehind 0 none t = 0 := hc
  have hx := ht (',', depthBehind 0 none t) (by
    rw [depths, depthsFrom_append]
    exact List.mem_append_right _ List.mem_cons_self) hd
  simp at hx

def typeBrackets : List (Char × Char) :=
  [('<', '>'), ('(', ')'), ('[', ']')]

def squareBrackets : List (Char × Char) :=
  [('[', ']')]

def braces : List (Char × Char) :=
  [('{', '}')]

/-- The brackets that are open behind a character, by those that close them, the innermost first.
There is no answer where the innermost is closed by one of another kind. An arrow `->` closes
nothing. -/
def openAfter (kinds : List (Char × Char)) (opened : List Char) (prev : Option Char) (c : Char) :
    Option (List Char) :=
  if c == '>' && prev == some '-' then some opened
  else
    match kinds.lookup c with
    | some close => some (close :: opened)
    | none =>
      if !(kinds.map Prod.snd).contains c then some opened
      else if opened.head? == some c then some opened.tail
      else none

def openBehind (kinds : List (Char × Char)) (opened : List Char) (prev : Option Char) :
    List Char → Option (List Char)
  | [] => some opened
  | c :: cs =>
    (openAfter kinds opened prev c).bind fun opened => openBehind kinds opened (some c) cs

/-- Every bracket of these kinds is closed by one of its own kind, and nothing else is closed. -/
def Balanced (kinds : List (Char × Char)) (t : List Char) : Prop :=
  openBehind kinds [] none t = some []

/-- The character stands only in brackets: what stands in front of it has one that is not closed. -/
def Enclosed (kinds : List (Char × Char)) (c : Char) (t : List Char) : Prop :=
  ∀ i < t.length, t[i]? = some c → ¬Balanced kinds (t.take i)

section Kinds

variable {kinds : List (Char × Char)} {c : Char}

instance (kinds : List (Char × Char)) (t : List Char) : Decidable (Balanced kinds t) :=
  inferInstanceAs (Decidable (_ = _))

instance (kinds : List (Char × Char)) (c : Char) (t : List Char) : Decidable (Enclosed kinds c t) :=
  inferInstanceAs (Decidable (∀ i < t.length, t[i]? = some c → ¬Balanced kinds (t.take i)))

theorem balanced_nil (kinds : List (Char × Char)) : Balanced kinds [] := rfl

theorem openBehind_append (kinds : List (Char × Char)) (opened : List Char) (prev : Option Char)
    (t r : List Char) :
    openBehind kinds opened prev (t ++ r) =
      (openBehind kinds opened prev t).bind fun opened =>
        openBehind kinds opened (t.getLast?.or prev) r := by
  induction t generalizing opened prev with
  | nil => rfl
  | cons c t ih =>
    rw [List.cons_append, openBehind, openBehind, getLast?_cons_or, Option.bind_assoc]
    simp only [ih]

theorem Balanced.head?_ne (h : Balanced kinds t) (hopen : kinds.lookup c = none)
    (hclose : c ∈ kinds.map Prod.snd) : t.head? ≠ some c := by
  intro hc
  obtain ⟨t, rfl⟩ := List.head?_eq_some_iff.mp hc
  have hcontains : (kinds.map Prod.snd).contains c = true := List.contains_iff_mem.mpr hclose
  have hnone : openAfter kinds [] none c = none := by
    rw [openAfter, hopen, hcontains]
    simp
  rw [Balanced, openBehind, hnone] at h
  cases h

theorem Enclosed.head?_ne (h : Enclosed kinds c t) : t.head? ≠ some c := by
  intro hc
  obtain ⟨t, rfl⟩ := List.head?_eq_some_iff.mp hc
  exact h 0 (Nat.succ_pos _) rfl (balanced_nil kinds)

end Kinds

def Opens (c : Char) : Prop :=
  c ∈ typeBrackets.map Prod.fst

/-- A `>` behind a dash is the head of an arrow and closes nothing. -/
def Closes (prev : Option Char) (c : Char) : Prop :=
  c ∈ typeBrackets.map Prod.snd ∧ ¬(c = '>' ∧ prev = some '-')

section TypeBrackets

variable {prev : Option Char} {c o : Char}

theorem opens_iff : Opens c ↔ c = '<' ∨ c = '(' ∨ c = '[' := by
  simp [Opens, typeBrackets]

theorem closes_iff :
    Closes prev c ↔ (c = '>' ∨ c = ')' ∨ c = ']') ∧ ¬(c = '>' ∧ prev = some '-') := by
  simp [Closes, typeBrackets]

theorem opens_of_mem (h : (o, c) ∈ typeBrackets) : Opens o :=
  List.mem_map_of_mem h

theorem Opens.not_closes (h : Opens c) : ¬Closes prev c := by
  rcases opens_iff.mp h with rfl | rfl | rfl <;> simp [closes_iff]

theorem depthAfter_of_opens (h : Opens c) (d : Nat) (prev : Option Char) :
    depthAfter d prev c = d + 1 := by
  rcases opens_iff.mp h with rfl | rfl | rfl <;> rfl

theorem depthAfter_of_closes (h : Closes prev c) (d : Nat) : depthAfter d prev c = d - 1 := by
  obtain ⟨hc, harrow⟩ := closes_iff.mp h
  rcases hc with rfl | rfl | rfl
  · simp_all [depthAfter]
  · rfl
  · rfl

theorem depthAfter_of_plain (ho : ¬Opens c) (hc : ¬Closes prev c) (d : Nat) :
    depthAfter d prev c = d := by
  rw [opens_iff, not_or, not_or] at ho
  rw [closes_iff, not_and, not_not] at hc
  by_cases harrow : c = '>' ∧ prev = some '-'
  · simp [depthAfter, harrow]
  · have hother : ¬(c = '>' ∨ c = ')' ∨ c = ']') := fun h => harrow (hc h)
    rw [not_or, not_or] at hother
    simp [depthAfter, ho, hother]

theorem openAfter_of_mem (h : (o, c) ∈ typeBrackets) (opened : List Char) (prev : Option Char) :
    openAfter typeBrackets opened prev o = some (c :: opened) := by
  simp only [typeBrackets, List.mem_cons, Prod.mk.injEq, List.not_mem_nil, or_false] at h
  rcases h with ⟨rfl, rfl⟩ | ⟨rfl, rfl⟩ | ⟨rfl, rfl⟩ <;> rfl

theorem lookup_of_not_opens (h : ¬Opens c) : typeBrackets.lookup c = none := by
  rw [opens_iff, not_or, not_or] at h
  apply List.lookup_eq_none_iff.mpr
  simp [typeBrackets, h]

theorem openAfter_of_closes (h : Closes prev c) (opened : List Char) :
    openAfter typeBrackets opened prev c =
      if opened.head? = some c then some opened.tail else none := by
  have hcloses : (typeBrackets.map Prod.snd).contains c = true := List.contains_iff_mem.mpr h.1
  have harrow : ¬(c == '>' && prev == some '-') = true := by
    simpa using h.2
  rw [openAfter, if_neg harrow, lookup_of_not_opens fun ho => ho.not_closes h, hcloses]
  simp

theorem openAfter_of_plain (ho : ¬Opens c) (hc : ¬Closes prev c) (opened : List Char) :
    openAfter typeBrackets opened prev c = some opened := by
  by_cases harrow : (c == '>' && prev == some '-') = true
  · rw [openAfter, if_pos harrow]
  · have hother : c ∉ typeBrackets.map Prod.snd := fun h => hc ⟨h, by simpa using harrow⟩
    have hcontains : (typeBrackets.map Prod.snd).contains c = false := by
      simpa using hother
    rw [openAfter, if_neg harrow, lookup_of_not_opens ho, hcontains]
    rfl

/-- The depth counts the open brackets, as long as each is closed by one of its own kind. -/
theorem depthAfter_length {opened opened' : List Char}
    (h : openAfter typeBrackets opened prev c = some opened') :
    depthAfter opened.length prev c = opened'.length := by
  by_cases hopen : Opens c
  · obtain ⟨⟨o, close⟩, hkind, rfl⟩ := List.mem_map.mp hopen
    rw [openAfter_of_mem hkind] at h
    cases h
    exact depthAfter_of_opens hopen _ _
  by_cases hclose : Closes prev c
  · rw [openAfter_of_closes hclose, Option.ite_none_right_eq_some] at h
    obtain ⟨-, h⟩ := h
    cases h
    rw [depthAfter_of_closes hclose, List.length_tail]
  · rw [openAfter_of_plain hopen hclose] at h
    cases h
    exact depthAfter_of_plain hopen hclose _

end TypeBrackets

theorem depthBehind_length {opened opened' : List Char} {prev : Option Char}
    (h : openBehind typeBrackets opened prev t = some opened') :
    depthBehind opened.length prev t = opened'.length := by
  induction t generalizing opened prev with
  | nil =>
    cases h
    rfl
  | cons c t ih =>
    obtain ⟨opened₁, hc, ht⟩ := Option.bind_eq_some_iff.mp h
    rw [depthBehind, depthAfter_length hc]
    exact ih ht

theorem Balanced.closed (h : Balanced typeBrackets t) : Closed t :=
  depthBehind_length h

theorem openAfter_braces {c : Char} (hopen : c ≠ '{') (hclose : c ≠ '}') (opened : List Char)
    (prev : Option Char) : openAfter braces opened prev c = some opened := by
  have hlookup : braces.lookup c = none := by
    apply List.lookup_eq_none_iff.mpr
    simp [braces, hopen]
  have hcontains : (braces.map Prod.snd).contains c = false := by
    simp [braces, hclose]
  rw [openAfter, hlookup, hcontains]
  simp

theorem length_openBehind {opened opened' : List Char} {prev : Option Char} (ht : '}' ∉ t)
    (h : openBehind braces opened prev t = some opened') :
    opened'.length = opened.length + t.count '{' := by
  induction t generalizing opened prev with
  | nil =>
    cases h
    rfl
  | cons c t ih =>
    rw [List.mem_cons, not_or] at ht
    by_cases hopen : c = '{'
    · subst c
      have hlength : opened'.length = ('}' :: opened).length + t.count '{' := ih ht.2 h
      rw [hlength, List.count_cons_self, List.length_cons]
      omega
    · rw [openBehind, openAfter_braces hopen (Ne.symm ht.1), Option.bind_some] at h
      rw [ih ht.2 h, List.count_cons_of_ne hopen]

theorem Balanced.not_mem_of_not_mem (h : Balanced braces t) (ht : '}' ∉ t) : '{' ∉ t := by
  have hlength := length_openBehind ht h
  apply List.count_eq_zero.mp
  simpa using hlength.symm

theorem Balanced.mem_of_append_cons {a r : List Char} (h : Balanced braces (a ++ '}' :: r))
    (ha : '}' ∉ a) : '{' ∈ a := by
  by_contra hopen
  have hnone (prev : Option Char) : openBehind braces [] prev (a ++ '}' :: r) = none := by
    clear h
    induction a generalizing prev with
    | nil => cases prev <;> rfl
    | cons c a ih =>
      rw [List.mem_cons, not_or] at ha hopen
      rw [List.cons_append, openBehind, openAfter_braces (Ne.symm hopen.1) (Ne.symm ha.1),
        Option.bind_some]
      exact ih ha.2 hopen.2 _
  rw [Balanced, hnone] at h
  cases h

end RefDoc.Nesting
