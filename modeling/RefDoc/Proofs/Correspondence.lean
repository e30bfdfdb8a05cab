import RefDoc.Proofs.Capture
import Mathlib.Data.List.Forall2

namespace RefDoc

theorem rel_or {α β : Type} {P : α → β → Prop} {a b : Option α} {a' b' : Option β}
    (ha : Option.Rel P a a') (hb : Option.Rel P b b') : Option.Rel P (a.or b) (a'.or b') := by
  cases ha with
  | some h => exact .some h
  | none => exact hb

theorem rel_map {α β α' β' : Type} {P : α → β → Prop} {Q : α' → β' → Prop} {a : Option α}
    {b : Option β} {f : α → α'} {g : β → β'} (h : Option.Rel P a b)
    (hf : ∀ x y, P x y → Q (f x) (g y)) : Option.Rel Q (a.map f) (b.map g) := by
  cases h with
  | some h => exact .some (hf _ _ h)
  | none => exact .none

theorem rel_bind {α β α' β' : Type} {P : α → β → Prop} {Q : α' → β' → Prop} {a : Option α}
    {b : Option β} {f : α → Option α'} {g : β → Option β'} (h : Option.Rel P a b)
    (hf : ∀ x y, P x y → Option.Rel Q (f x) (g y)) : Option.Rel Q (a.bind f) (b.bind g) := by
  cases h with
  | some h => exact hf _ _ h
  | none => exact .none

theorem isSome_eq_of_rel {α β : Type} {P : α → β → Prop} {a : Option α} {b : Option β}
    (h : Option.Rel P a b) : a.isSome = b.isSome := by
  cases h with
  | some _ => rfl
  | none => rfl

theorem eq_none_of_rel {α β : Type} {P : α → β → Prop} {b : Option β}
    (h : Option.Rel P none b) : b = none := by
  cases h
  rfl

theorem exists_of_rel {α β : Type} {P : α → β → Prop} {x : α} {b : Option β}
    (h : Option.Rel P (some x) b) : ∃ y, b = some y ∧ P x y := by
  cases h with
  | some h => exact ⟨_, rfl, h⟩

theorem exists_of_rel_some {α β : Type} {P : α → β → Prop} {a : Option α} {y : β}
    (h : Option.Rel P a (some y)) : ∃ x, a = some x ∧ P x y := by
  cases h with
  | some h => exact ⟨_, rfl, h⟩

theorem map_eq_of_rel {α β δ : Type} {P : α → β → Prop} {a : Option α} {b : Option β} {f : α → δ}
    {g : β → δ} (h : Option.Rel P a b) (hf : ∀ x y, P x y → g y = f x) : b.map g = a.map f := by
  cases h with
  | some h => exact congrArg some (hf _ _ h)
  | none => rfl

theorem bind_eq_of_rel {α β δ : Type} {P : α → β → Prop} {a : Option α} {b : Option β}
    {f : α → Option δ} {g : β → Option δ} (h : Option.Rel P a b) (hf : ∀ x y, P x y → g y = f x) :
    b.bind g = a.bind f := by
  cases h with
  | some h => exact hf _ _ h
  | none => rfl

theorem map_eq_of_forall₂ {α β δ : Type} {P : α → β → Prop} {as : List α} {bs : List β} {f : α → δ}
    {g : β → δ} (h : List.Forall₂ P as bs) (hf : ∀ a b, P a b → g b = f a) :
    bs.map g = as.map f := by
  induction h with
  | nil => rfl
  | cons hab _ ih => rw [List.map_cons, List.map_cons, hf _ _ hab, ih]

theorem filterMap_eq_of_forall₂ {α β δ : Type} {P : α → β → Prop} {as : List α} {bs : List β}
    {f : α → Option δ} {g : β → Option δ} (h : List.Forall₂ P as bs)
    (hf : ∀ a b, P a b → g b = f a) : bs.filterMap g = as.filterMap f := by
  have hmap := congrArg (List.filterMap id) (map_eq_of_forall₂ h hf)
  rwa [List.filterMap_map, List.filterMap_map] at hmap

theorem rel_head? {α β : Type} {P : α → β → Prop} {as : List α} {bs : List β}
    (h : List.Forall₂ P as bs) : Option.Rel P as.head? bs.head? := by
  cases h with
  | nil => exact .none
  | cons hab _ => exact .some hab

theorem forall₂_of_common {α β δ : Type} {P : α → β → Prop} {Q : α → δ → Prop} {R : β → δ → Prop}
    {as : List α} {bs : List β} {ds : List δ} (hb : List.Forall₂ P as bs)
    (hd : List.Forall₂ Q as ds)
    (h : ∀ a b d, P a b → Q a d → R b d) : List.Forall₂ R bs ds := by
  induction hb generalizing ds with
  | nil =>
    cases hd
    exact .nil
  | cons hab _ ih =>
    cases hd with
    | cons had hd => exact .cons (h _ _ _ hab had) (ih hd)

/-- A change of texts that is made piece by piece: `inner` is what becomes of a piece, `left` of a
piece at the start of the text, and `right` of one at its end. -/
structure Change where
  left : List Char → List Char
  inner : List Char → List Char
  right : List Char → List Char
  left_append : ∀ l m, left (l ++ m) = left l ++ inner m
  right_append : ∀ m r, right (m ++ r) = inner m ++ right r

namespace Change

variable {e : Change} {l m r t : List Char} {x x' y y' : Place}

def text (e : Change) (t : List Char) : List Char :=
  e.left [] ++ e.right t

theorem left_append_right (e : Change) (l r : List Char) :
    e.left l ++ e.right r = e.text (l ++ r) := by
  rw [text, e.right_append, ← List.append_assoc, ← e.left_append, List.nil_append]

theorem inner_nil (e : Change) : e.inner [] = [] := by
  have h := e.left_append [] []
  rwa [List.append_nil, List.self_eq_append_right] at h

/-- The place of the text `t` stands in the changed text where the text before it and the text
behind it meet. -/
def Carries (e : Change) (t : List Char) (x y : Place) : Prop :=
  ∃ l r, t = l ++ r ∧ x = .between l r ∧ y = .between (e.left l) (e.right r)

theorem carries_between (h : t = l ++ r) :
    e.Carries t (.between l r) (.between (e.left l) (e.right r)) :=
  ⟨l, r, h, rfl, rfl⟩

theorem textTo_of_carries (hx : e.Carries t x x') (hy : e.Carries t y y') :
    x'.textTo y' = e.inner (x.textTo y) := by
  obtain ⟨l, r, rfl, rfl, rfl⟩ := hx
  obtain ⟨l', r', ht, rfl, rfl⟩ := hy
  rcases List.append_eq_append_iff.mp ht with ⟨m, rfl, rfl⟩ | ⟨m, rfl, rfl⟩
  · rw [Place.textTo_between, e.left_append, e.right_append, Place.textTo_between]
  · -- The second place stands before the first one, in both texts.
    have hle : l'.length ≤ (l' ++ m).length := by
      rw [List.length_append]
      exact Nat.le_add_right _ _
    have hle' : (e.left l').length ≤ (e.left (l' ++ m)).length := by
      rw [e.left_append, List.length_append]
      exact Nat.le_add_right _ _
    simp only [Place.textTo, Place.between_index, Nat.sub_eq_zero_of_le hle,
      Nat.sub_eq_zero_of_le hle', List.take_zero, inner_nil]

end Change

theorem Place.eq_of_between_eq {l r l' r' : List Char} (ht : l ++ r = l' ++ r')
    (h : between l r = between l' r') : l = l' ∧ r = r' :=
  List.append_inj ht (congrArg Place.index h)

variable {γ : Type} {R : Mark γ → Place → Place → Prop} {S : Place → Place → Prop}

/-- The matches pass the same marks, at places that `R` relates, and end at places that `S`
relates. -/
structure Match.Corresponds (R : Mark γ → Place → Place → Prop) (S : Place → Place → Prop)
    (s s' : Match γ) : Prop where
  marks : List.Forall₂ (fun a b => a.1 = b.1 ∧ R a.1 a.2 b.2) s.marks s'.marks
  stop : S s.stop s'.stop

theorem Match.Corresponds.record {s s' : Match γ} {m : Mark γ} {x y : Place}
    (h : s.Corresponds R S s') (hxy : R m x y) : (s.record m x).Corresponds R S (s'.record m y) :=
  ⟨.cons ⟨rfl, hxy⟩ h.marks, h.stop⟩

structure Found.Corresponds (R : Mark γ → Place → Place → Prop) (S : Place → Place → Prop)
    (f f' : Found γ) : Prop where
  start : S f.start f'.start
  stop : S f.stop f'.stop
  marks : List.Forall₂ (fun a b => a.1 = b.1 ∧ R a.1 a.2 b.2) f.marks f'.marks

namespace Pattern

variable {p : Pattern γ} {e : Change} {l r t : List Char}

theorem rel_foundAt? {x y : Place}
    (h : Option.Rel (Match.Corresponds R S) (p.run accept x) (p.run accept y)) (hxy : S x y) :
    Option.Rel (Found.Corresponds R S) (p.foundAt? x) (p.foundAt? y) := by
  apply rel_map h
  intro s s' h
  exact ⟨hxy, h.stop, h.marks⟩

theorem findFrom_of_corresponds {f f' : Found γ} {m : List Char} (hp : ∀ l r, ¬p.Accepts l [] r)
    (ht : t = l ++ (m ++ r)) (hstop : f.stop = .between (l ++ m) r)
    (hf : p.foundAt? (.between (e.left l) (e.right (m ++ r))) = some f')
    (h : f.Corresponds R (e.Carries t) f') :
    p.findFrom (e.left l) (e.right (m ++ r)) =
      f' :: p.findFrom (e.left (l ++ m)) (e.right r) := by
  obtain ⟨m', r', hr', hm', _, hstop'⟩ := reads_of_foundAt? hf
  obtain ⟨l₁, r₁, ht₁, hx, hy⟩ := h.stop
  rw [ht, ← List.append_assoc] at ht₁
  rw [hstop] at hx
  obtain ⟨rfl, rfl⟩ := Place.eq_of_between_eq ht₁ hx
  have htext : e.left l ++ m' ++ r' = e.left (l ++ m) ++ e.right r := by
    rw [List.append_assoc, ← hr', e.left_append_right, e.left_append_right, List.append_assoc]
  obtain ⟨hl, rfl⟩ := Place.eq_of_between_eq htext (hstop'.symm.trans hy)
  have hne : m' ≠ [] := by
    rintro rfl
    exact hp _ _ ⟨_, hm'⟩
  rw [hr'] at hf ⊢
  rw [findFrom_of_foundAt? hf hstop' hne, hl]

/-- If the matches at corresponding places correspond, and where there is none the search goes on to
the next of these places, then what is found corresponds. -/
theorem forall₂_findFrom (hp : ∀ l r, ¬p.Accepts l [] r)
    (hfound : ∀ l r, t = l ++ r → Option.Rel (Found.Corresponds R (e.Carries t))
      (p.foundAt? (.between l r)) (p.foundAt? (.between (e.left l) (e.right r))))
    (hskip : ∀ l c r, t = l ++ c :: r → p.Rejects l (c :: r) →
      p.findFrom (e.left l) (e.right (c :: r)) = p.findFrom (e.left (l ++ [c])) (e.right r))
    (hend : p.Rejects t [] → p.findFrom (e.left t) (e.right []) = []) (ht : t = l ++ r) :
    List.Forall₂ (Found.Corresponds R (e.Carries t)) (p.findFrom l r)
      (p.findFrom (e.left l) (e.right r)) := by
  induction hn : r.length using Nat.strongRecOn generalizing l r with
  | ind N ih =>
    subst hn
    have hrel := hfound l r ht
    cases hf : p.foundAt? (.between l r) with
    | none =>
      have hr := foundAt?_eq_none_iff.mp hf
      cases r with
      | nil =>
        rw [List.append_nil] at ht
        subst l
        rw [findFrom_nil hr, hend hr]
        exact .nil
      | cons c r =>
        rw [findFrom_cons hr, hskip l c r ht hr]
        exact ih r.length (Nat.lt_succ_self _) (by rw [ht, List.append_assoc]; rfl) rfl
    | some f =>
      rw [hf] at hrel
      obtain ⟨m, r, rfl, hm, _, hstop⟩ := reads_of_foundAt? hf
      have hne : m ≠ [] := by
        rintro rfl
        exact hp l r ⟨_, hm⟩
      have hlt : r.length < (m ++ r).length := by
        have hpos := List.length_pos_iff.mpr hne
        rw [List.length_append]
        omega
      obtain ⟨f', hf', h⟩ := exists_of_rel hrel
      rw [findFrom_of_foundAt? hf hstop hne, findFrom_of_corresponds hp ht hstop hf' h]
      exact .cons h (ih r.length hlt (by rw [ht, List.append_assoc]) rfl)

/-- The leftmost match is the first that the search finds. -/
theorem find?_eq_head? (p : Pattern γ) (t : List Char) : p.find? t = (p.findAll t).head? := by
  rw [find?, findAll]
  cases p.candidates t with
  | nil => rfl
  | cons f fs => rw [disjointFrom, if_neg (Nat.not_lt_zero _)]; rfl

end Pattern

theorem rel_lookup [DecidableEq γ] {ms ns : List (Mark γ × Place)}
    (h : List.Forall₂ (fun a b => a.1 = b.1 ∧ R a.1 a.2 b.2) ms ns) (m : Mark γ) :
    Option.Rel (R m) (ms.lookup m) (ns.lookup m) := by
  induction h with
  | nil => exact .none
  | @cons a b ms ns hab _ ih =>
    obtain ⟨n, x⟩ := a
    obtain ⟨_, y⟩ := b
    obtain ⟨rfl, hxy⟩ := hab
    rw [List.lookup_cons, List.lookup_cons]
    by_cases hm : m = n
    · subst n
      rw [beq_self_eq_true]
      exact .some hxy
    · rw [beq_eq_false_iff_ne.mpr hm]
      exact ih

section Capture

variable [DecidableEq γ] {ms ns : List (Mark γ × Place)} {g : γ} {e : Change} {t : List Char}

theorem rel_capture {T : List Char → List Char → Prop}
    (h : List.Forall₂ (fun a b => a.1 = b.1 ∧ R a.1 a.2 b.2) ms ns)
    (hT : ∀ x x' y y', R (.opening g) x x' → R (.closing g) y y' → T (x.textTo y) (x'.textTo y')) :
    Option.Rel T (Pattern.capture ms g) (Pattern.capture ns g) := by
  apply rel_bind (rel_lookup h (.opening g))
  intro x x' hx
  apply rel_bind (rel_lookup h (.closing g))
  intro y y' hy
  exact .some (hT x x' y y' hx hy)

theorem capture_eq_map (h : List.Forall₂ (fun a b => a.1 = b.1 ∧ R a.1 a.2 b.2) ms ns)
    (hopening : ∀ x y, R (.opening g) x y → e.Carries t x y)
    (hclosing : ∀ x y, R (.closing g) x y → e.Carries t x y) :
    Pattern.capture ns g = (Pattern.capture ms g).map e.inner := by
  have hrel := rel_capture (g := g) (T := fun m m' => m' = e.inner m) h
    fun x x' y y' hx hy => Change.textTo_of_carries (hopening x x' hx) (hclosing y y' hy)
  have hmap := map_eq_of_rel (f := e.inner) (g := id) hrel fun _ _ h => h
  rwa [Option.map_id] at hmap

end Capture

theorem Found.Corresponds.text_eq {f f' : Found γ} {e : Change} {t : List Char}
    (h : f.Corresponds R (e.Carries t) f') : f'.text = e.inner f.text :=
  Change.textTo_of_carries h.start h.stop

end RefDoc
