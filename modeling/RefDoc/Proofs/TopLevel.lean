import RefDoc.Proofs.ByteOrder
import RefDoc.Proofs.Depth

namespace RefDoc

def Text.byteLength (t : List Char) : Nat :=
  (bytes (String.ofList t)).length

theorem Text.byteLength_nil : byteLength [] = 0 := by
  rw [byteLength, bytes_eq, String.toList_ofList]
  rfl

theorem Text.byteLength_cons (c : Char) (t : List Char) :
    byteLength (c :: t) = c.utf8Size + byteLength t := by
  simp only [byteLength, bytes_eq, String.toList_ofList, List.flatMap_cons, List.length_append,
    String.length_utf8EncodeChar]

namespace Nesting

open Text

variable {t : List Char}

/-- The characters that stand in no bracket, each behind the number of bytes in front of it. -/
def topLevelFrom (offset : Nat) : List (Char × Nat) → List (Nat × Char)
  | [] => []
  | x :: xs =>
    if x.2 = 0 then (offset, x.1) :: topLevelFrom (offset + x.1.utf8Size) xs
    else topLevelFrom (offset + x.1.utf8Size) xs

/-- The characters of a text at which it may be cut. A bracket that opens outside all brackets is
one of them, the one that closes it is not. -/
def topLevel (t : List Char) : List (Nat × Char) :=
  topLevelFrom 0 (depths t)

theorem mem_topLevelFrom {offset d : Nat} {prev : Option Char} {x : Nat × Char} :
    x ∈ topLevelFrom offset (depthsFrom d prev t) ↔
      ∃ k, t[k]? = some x.2 ∧ x.1 = offset + byteLength (t.take k) ∧
        depthBehind d prev (t.take k) = 0 := by
  induction t generalizing offset d prev with
  | nil => simp [depthsFrom, topLevelFrom]
  | cons c t ih =>
    have hrest :
        x ∈ topLevelFrom (offset + c.utf8Size) (depthsFrom (depthAfter d prev c) (some c) t) ↔
        ∃ k, (c :: t)[k + 1]? = some x.2 ∧ x.1 = offset + byteLength ((c :: t).take (k + 1)) ∧
          depthBehind d prev ((c :: t).take (k + 1)) = 0 := by
      rw [ih]
      simp only [List.getElem?_cons_succ, List.take_succ_cons, byteLength_cons, depthBehind,
        Nat.add_assoc]
    rw [depthsFrom, topLevelFrom, ← Nat.or_exists_add_one, ← hrest]
    by_cases hd : d = 0
    · rw [if_pos hd, List.mem_cons, Prod.ext_iff]
      simp [depthBehind, byteLength_nil, hd, and_comm, eq_comm]
    · rw [if_neg hd]
      simp [depthBehind, hd]

theorem mem_topLevel {x : Nat × Char} :
    x ∈ topLevel t ↔ ∃ k, t[k]? = some x.2 ∧ x.1 = byteLength (t.take k) ∧
      depthBehind 0 none (t.take k) = 0 := by
  rw [topLevel, depths, mem_topLevelFrom]
  simp only [Nat.zero_add]

theorem le_of_mem_topLevelFrom {offset : Nat} {xs : List (Char × Nat)} {y : Nat × Char}
    (hy : y ∈ topLevelFrom offset xs) : offset ≤ y.1 := by
  induction xs generalizing offset with
  | nil => cases hy
  | cons x xs ih =>
    rw [topLevelFrom] at hy
    split at hy
    · rcases List.mem_cons.mp hy with rfl | hy
      · exact Nat.le_refl _
      · exact Nat.le_trans (Nat.le_add_right _ _) (ih hy)
    · exact Nat.le_trans (Nat.le_add_right _ _) (ih hy)

theorem pairwise_topLevelFrom (offset : Nat) (xs : List (Char × Nat)) :
    (topLevelFrom offset xs).Pairwise fun x y => x.1 < y.1 := by
  induction xs generalizing offset with
  | nil => exact .nil
  | cons x xs ih =>
    rw [topLevelFrom]
    split
    · refine List.pairwise_cons.mpr ⟨fun y hy => ?_, ih _⟩
      have hle := le_of_mem_topLevelFrom hy
      have hpos := x.1.utf8Size_pos
      change offset < y.1
      omega
    · exact ih _

section Cuts

variable (offset : Nat) (xs : List (Char × Nat))

theorem byteLength_takeWhile (stop : Char → Bool) :
    offset + byteLength ((xs.takeWhile fun x => !(x.2 == 0 && stop x.1)).map (·.1)) =
      (((topLevelFrom offset xs).find? fun x => stop x.2).map (·.1)).getD
        (offset + byteLength (xs.map (·.1))) := by
  induction xs generalizing offset with
  | nil => rfl
  | cons x xs ih =>
    have hbehind := ih (offset + x.1.utf8Size)
    rw [topLevelFrom, List.map_cons, byteLength_cons, ← Nat.add_assoc]
    by_cases hd : x.2 = 0
    · by_cases hstop : stop x.1 = true
      · simp [hd, hstop, byteLength_nil]
      · simpa [hd, hstop, byteLength_cons, Nat.add_assoc] using hbehind
    · simpa [hd, byteLength_cons, Nat.add_assoc] using hbehind

def joints (offset : Nat) : List (List Char) → List Nat
  | [] => []
  | [_] => []
  | p :: q :: ps => (offset + byteLength p) :: joints (offset + byteLength p + 1) (q :: ps)

theorem joints_cons (c : Char) (p : List Char) (ps : List (List Char)) :
    joints offset ((c :: p) :: ps) = joints (offset + c.utf8Size) (p :: ps) := by
  cases ps with
  | nil => rfl
  | cons q ps => rw [joints, joints, byteLength_cons, ← Nat.add_assoc]

theorem joints_splitWhere :
    joints offset ((splitWhere (fun x => x.2 == 0 && x.1 == ',') xs).map (·.map (·.1))) =
      ((topLevelFrom offset xs).filter (·.2 == ',')).map (·.1) := by
  induction xs generalizing offset with
  | nil => rfl
  | cons x xs ih =>
    have hbehind := ih (offset + x.1.utf8Size)
    have hne : splitWhere (fun x => x.2 == 0 && x.1 == ',') xs ≠ [] := splitWhere_ne_nil xs
    obtain ⟨p, ps, hp⟩ := List.exists_cons_of_ne_nil hne
    rw [hp, List.map_cons] at hbehind
    rw [splitWhere, topLevelFrom, hp]
    by_cases hd : x.2 = 0
    · by_cases hcomma : x.1 = ','
      · have hsize : ','.utf8Size = 1 := rfl
        simpa [hd, hcomma, hsize, joints, byteLength_nil] using hbehind
      · simpa [hd, hcomma, consFirst, joints_cons] using hbehind
    · simpa [hd, consFirst, joints_cons] using hbehind

end Cuts

theorem byteLength_takeUntil (stop : Char → Bool) (t : List Char) :
    takeUntil stop t <+: t ∧ byteLength (takeUntil stop t) =
      (((topLevel t).find? fun x => stop x.2).map (·.1)).getD (byteLength t) := by
  have hlength := byteLength_takeWhile 0 (depths t) stop
  have htaken : ((depths t).takeWhile fun x => !(x.2 == 0 && stop x.1)).map (·.1) <+:
      (depths t).map (·.1) := (List.takeWhile_prefix _).map _
  have hchars : (depths t).map (·.1) = t := map_fst_depthsFrom 0 none t
  rw [hchars, Nat.zero_add, Nat.zero_add] at hlength
  rw [hchars] at htaken
  exact ⟨htaken, hlength⟩

/-- The text is parted at the bytes of the commas among these characters. -/
theorem joints_splitAtCommas (t : List Char) :
    joints 0 (splitAtCommas t) = ((topLevel t).filter (·.2 == ',')).map (·.1) :=
  joints_splitWhere 0 (depths t)

theorem onlyNested_or_exists (f : Char → Bool) (t : List Char) (d : Nat) (prev : Option Char) :
    (∀ x ∈ depthsFrom d prev t, x.2 = 0 → f x.1 = false) ∨
      ∃ a c r, t = a ++ c :: r ∧ f c = true ∧ depthBehind d prev a = 0 ∧
        ∀ x ∈ depthsFrom d prev a, x.2 = 0 → f x.1 = false := by
  induction t generalizing d prev with
  | nil => exact .inl nofun
  | cons c t ih =>
    by_cases hc : d = 0 ∧ f c = true
    · exact .inr ⟨[], c, t, rfl, hc.2, hc.1, nofun⟩
    have hfalse : d = 0 → f c = false := by
      simpa using hc
    rcases ih (depthAfter d prev c) (some c) with hnone | ⟨a, c', r, rfl, hc', hclosed, ha⟩
    · exact .inl (List.forall_mem_cons.mpr ⟨hfalse, hnone⟩)
    · exact .inr ⟨c :: a, c', r, rfl, hc', hclosed, List.forall_mem_cons.mpr ⟨hfalse, ha⟩⟩

/-- A text has no comma outside all brackets, or it begins with such a text up to one. -/
@[elab_as_elim]
theorem commaInduction {motive : List Char → Prop}
    (piece : ∀ p, OnlyNested (· == ',') p → motive p)
    (comma : ∀ p t, Closed p → OnlyNested (· == ',') p → motive t → motive (p ++ ',' :: t))
    (t : List Char) : motive t := by
  induction h : t.length using Nat.strongRecOn generalizing t with
  | ind n ih =>
    rcases onlyNested_or_exists (· == ',') t 0 none with hp | ⟨p, c, r, rfl, hc, hclosed, hp⟩
    · exact piece t hp
    · obtain rfl : c = ',' := beq_iff_eq.mp hc
      refine comma p r hclosed hp (ih r.length ?_ r rfl)
      rw [List.length_append, List.length_cons] at h
      omega

/-- Pieces between commas: no comma of a piece stands outside all brackets, and no bracket of a
piece is open behind it, unless it is the last one. -/
structure CommaPieces (ps : List (List Char)) : Prop where
  nonempty : ps ≠ []
  nested : ∀ p ∈ ps, OnlyNested (· == ',') p
  closed : ∀ p ∈ ps.dropLast, Closed p

theorem commaPieces_splitAtCommas (t : List Char) : CommaPieces (splitAtCommas t) := by
  induction t using commaInduction with
  | piece p hp =>
    rw [splitAtCommas_eq_singleton hp]
    exact ⟨List.cons_ne_nil _ _, by simpa using hp, nofun⟩
  | comma p t hclosed hp ih =>
    obtain ⟨q, ps, hps⟩ := List.exists_cons_of_ne_nil ih.nonempty
    rw [splitAtCommas_append hclosed hp]
    refine ⟨List.cons_ne_nil _ _, List.forall_mem_cons.mpr ⟨hp, ih.nested⟩, ?_⟩
    rw [hps, List.dropLast_cons_cons, ← hps]
    exact List.forall_mem_cons.mpr ⟨hclosed, ih.closed⟩

theorem intercalate_splitAtCommas (t : List Char) : [','].intercalate (splitAtCommas t) = t := by
  induction t using commaInduction with
  | piece p hp => rw [splitAtCommas_eq_singleton hp, List.intercalate_singleton]
  | comma p t hclosed hp ih =>
    obtain ⟨q, ps, hps⟩ := List.exists_cons_of_ne_nil (commaPieces_splitAtCommas t).nonempty
    rw [splitAtCommas_append hclosed hp, hps, List.intercalate_cons_cons, ← hps, ih,
      List.append_assoc, List.singleton_append]

theorem CommaPieces.splitAtCommas_eq {ps : List (List Char)} (h : CommaPieces ps) :
    splitAtCommas ([','].intercalate ps) = ps := by
  obtain ⟨hne, hnested, hclosed⟩ := h
  induction ps with
  | nil => exact absurd rfl hne
  | cons p ps ih =>
    obtain ⟨hp, hnested⟩ := List.forall_mem_cons.mp hnested
    cases ps with
    | nil => rw [List.intercalate_singleton, splitAtCommas_eq_singleton hp]
    | cons q ps =>
      rw [List.dropLast_cons_cons] at hclosed
      obtain ⟨hpc, hclosed⟩ := List.forall_mem_cons.mp hclosed
      rw [List.intercalate_cons_cons, List.append_assoc, List.singleton_append,
        splitAtCommas_append hpc hp, ih (List.cons_ne_nil q ps) hnested hclosed]

/-- Parting a text at its commas outside all brackets loses nothing and leaves pieces that are not
parted further. Conversely, pieces that are joined by commas come apart as they were. -/
theorem splitAtCommas_inverse :
    (∀ t, CommaPieces (splitAtCommas t) ∧ [','].intercalate (splitAtCommas t) = t ∧
      ∀ p ∈ splitAtCommas t, splitAtCommas p = [p]) ∧
    ∀ ps, CommaPieces ps → splitAtCommas ([','].intercalate ps) = ps := by
  refine ⟨fun t => ⟨commaPieces_splitAtCommas t, intercalate_splitAtCommas t, fun p hp => ?_⟩,
    fun ps hps => hps.splitAtCommas_eq⟩
  exact splitAtCommas_eq_singleton ((commaPieces_splitAtCommas t).nested p hp)

def loosePieces : List (List Char) :=
  ["f: fn(A, B) -> C<D, E>".toList, " é> ".toList, [], "g: [(u8, u8)".toList]

theorem splitAtCommas_loosePieces : CommaPieces loosePieces ∧
    splitAtCommas "f: fn(A, B) -> C<D, E>, é> ,,g: [(u8, u8)".toList = loosePieces := by
  have hpieces : CommaPieces loosePieces := ⟨by decide, by decide, by decide⟩
  exact ⟨hpieces, splitAtCommas_inverse.2 loosePieces hpieces⟩

end Nesting

end RefDoc
