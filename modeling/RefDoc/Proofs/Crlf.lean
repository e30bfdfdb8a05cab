import RefDoc.Proofs.CleanDoc
import RefDoc.Proofs.Depth
import RefDoc.Scan.Source
import Mathlib.Data.List.DropRight

namespace RefDoc

namespace Text

variable {f : Char → Bool} {t : List Char}

/-- The text with a carriage return in front of every newline. -/
def crlf : List Char → List Char
  | [] => []
  | c :: t => if c = '\n' then '\r' :: '\n' :: crlf t else c :: crlf t

theorem crlf_newline (t : List Char) : crlf ('\n' :: t) = '\r' :: '\n' :: crlf t := rfl

theorem crlf_cons {c : Char} (h : c ≠ '\n') (t : List Char) : crlf (c :: t) = c :: crlf t :=
  if_neg h

theorem crlf_append (a b : List Char) : crlf (a ++ b) = crlf a ++ crlf b := by
  induction a with
  | nil => rfl
  | cons c a ih =>
    by_cases hc : c = '\n'
    · subst c
      rw [List.cons_append, crlf_newline, crlf_newline, ih, List.cons_append, List.cons_append]
    · rw [List.cons_append, crlf_cons hc, crlf_cons hc, ih, List.cons_append]

theorem crlf_concat {c : Char} (hc : c ≠ '\n') (l : List Char) :
    crlf (l ++ [c]) = crlf l ++ [c] := by
  rw [crlf_append, crlf_cons hc]
  rfl

theorem crlf_concat_newline (l : List Char) : crlf (l ++ ['\n']) = crlf l ++ ['\r'] ++ ['\n'] := by
  rw [crlf_append, List.append_assoc]
  rfl

theorem isEmpty_crlf (t : List Char) : (crlf t).isEmpty = t.isEmpty := by
  cases t with
  | nil => rfl
  | cons c t =>
    rw [crlf]
    split
    · rfl
    · rfl

theorem crlf_eq_self (h : '\n' ∉ t) : crlf t = t := by
  induction t with
  | nil => rfl
  | cons c t ih =>
    obtain ⟨hc, ht⟩ := not_or.mp (mt List.mem_cons.mpr h)
    rw [crlf_cons (Ne.symm hc), ih ht]

theorem count_crlf (t : List Char) : (crlf t).count '\n' = t.count '\n' := by
  induction t with
  | nil => rfl
  | cons c t ih =>
    by_cases hc : c = '\n'
    · subst c
      rw [crlf_newline, List.count_cons_of_ne (by decide), List.count_cons_self,
        List.count_cons_self, ih]
    · rw [crlf_cons hc, List.count_cons_of_ne hc, List.count_cons_of_ne hc, ih]

theorem newline_mem_crlf : '\n' ∈ crlf t ↔ '\n' ∈ t := by
  rw [← List.count_pos_iff, count_crlf, List.count_pos_iff]

theorem length_le_length_crlf (t : List Char) : t.length ≤ (crlf t).length := by
  induction t with
  | nil => exact Nat.le_refl _
  | cons c t ih =>
    by_cases hc : c = '\n'
    · subst c
      simp only [crlf_newline, List.length_cons]
      omega
    · simp only [crlf_cons hc, List.length_cons]
      omega

theorem getLast?_crlf (l : List Char) : (crlf l).getLast? = l.getLast? := by
  induction l using List.reverseRecOn with
  | nil => rfl
  | append_singleton l c ih =>
    by_cases hc : c = '\n'
    · subst c
      rw [crlf_concat_newline, List.getLast?_concat, List.getLast?_concat]
    · rw [crlf_concat hc, List.getLast?_concat, List.getLast?_concat]

theorem any_head?_crlf (hf : f '\r' = f '\n') (r : List Char) :
    (crlf r).head?.any f = r.head?.any f := by
  cases r with
  | nil => rfl
  | cons c r =>
    by_cases hc : c = '\n'
    · subst c
      exact hf
    · rw [crlf_cons hc]
      rfl

theorem takeWhile_crlf (hf : f '\r' = f '\n') (t : List Char) :
    (crlf t).takeWhile f = crlf (t.takeWhile f) := by
  induction t with
  | nil => rfl
  | cons c t ih =>
    by_cases hc : c = '\n'
    · subst c
      rw [crlf_newline, List.takeWhile_cons, List.takeWhile_cons, List.takeWhile_cons, hf, ih]
      split
      · rfl
      · rfl
    · rw [crlf_cons hc, List.takeWhile_cons, List.takeWhile_cons, ih]
      split
      · rw [crlf_cons hc]
      · rfl

theorem dropWhile_crlf (hf : f '\r' = f '\n') (t : List Char) :
    (crlf t).dropWhile f = crlf (t.dropWhile f) := by
  induction t with
  | nil => rfl
  | cons c t ih =>
    by_cases hc : c = '\n'
    · subst c
      rw [crlf_newline, List.dropWhile_cons, List.dropWhile_cons, List.dropWhile_cons, hf, ih]
      split
      · rfl
      · rfl
    · rw [crlf_cons hc, List.dropWhile_cons, List.dropWhile_cons, ih]
      split
      · rfl
      · rw [crlf_cons hc]

theorem rdropWhile_crlf (hf : f '\r' = f '\n') (t : List Char) :
    (crlf t).rdropWhile f = crlf (t.rdropWhile f) := by
  induction t using List.reverseRecOn with
  | nil => rfl
  | append_singleton t c ih =>
    by_cases hc : c = '\n'
    · subst c
      simp only [crlf_concat_newline, List.rdropWhile_concat, hf]
      split
      · exact ih
      · rw [crlf_concat_newline]
    · simp only [crlf_concat hc, List.rdropWhile_concat]
      split
      · exact ih
      · rw [crlf_concat hc]

theorem trimStart_crlf (t : List Char) : trimStart (crlf t) = crlf (trimStart t) :=
  dropWhile_crlf rfl t

theorem trim_crlf (t : List Char) : trim (crlf t) = crlf (trim t) := by
  rw [trim, trimStart_crlf]
  exact rdropWhile_crlf rfl (trimStart t)

def Padded (x y : List Char) : Prop :=
  ∃ b, Blank b ∧ y = x ++ b

theorem Padded.refl (x : List Char) : Padded x x :=
  ⟨[], blank_nil, (List.append_nil x).symm⟩

theorem Padded.cons {x y : List Char} (h : Padded x y) (c : Char) : Padded (c :: x) (c :: y) := by
  obtain ⟨b, hb, rfl⟩ := h
  exact ⟨b, hb, rfl⟩

theorem padded_return : Padded [] ['\r'] :=
  ⟨['\r'], forall_mem_of_all rfl, rfl⟩

theorem Padded.trim_eq {x y : List Char} (h : Padded x y) : trim y = trim x := by
  obtain ⟨b, hb, rfl⟩ := h
  obtain ⟨a, e, hx, ha, he, _⟩ := exists_eq_trim x
  have hxb : x ++ b = a ++ trim x ++ (e ++ b) := by
    nth_rewrite 1 [hx]
    rw [List.append_assoc, List.append_assoc, List.append_assoc]
  rw [hxb, (trimmed_trim x).trim_append ha (he.append hb)]

theorem trim_cons_blank {c : Char} (hc : isBlank c = true) (t : List Char) :
    trim (c :: t) = trim t := by
  rw [trim, trimStart, List.dropWhile_cons_of_pos hc]
  rfl

theorem map_trim_lines_crlf (t : List Char) : (lines (crlf t)).map trim = (lines t).map trim := by
  -- Only the first line can grow, so the others are known up to the white space at their ends.
  have h : ∃ x y xs ys, lines t = x :: xs ∧ lines (crlf t) = y :: ys ∧ Padded x y ∧
      ys.map trim = xs.map trim := by
    induction t with
    | nil => exact ⟨[], [], [], [], rfl, rfl, .refl [], rfl⟩
    | cons c t ih =>
      obtain ⟨x, y, xs, ys, hx, hy, hxy, hs⟩ := ih
      by_cases hc : c = '\n'
      · subst c
        refine ⟨[], ['\r'], x :: xs, y :: ys, ?_, ?_, padded_return, ?_⟩
        · rw [← hx]
          rfl
        · rw [← hy]
          rfl
        · rw [List.map_cons, List.map_cons, hxy.trim_eq, hs]
      · have hsep : ¬(c == '\n') = true := by simpa using hc
        refine ⟨c :: x, c :: y, xs, ys, ?_, ?_, hxy.cons c, hs⟩
        · rw [lines] at hx ⊢
          rw [splitWhere, if_neg hsep, hx]
          rfl
        · rw [lines] at hy ⊢
          rw [crlf_cons hc, splitWhere, if_neg hsep, hy]
          rfl
  obtain ⟨x, y, xs, ys, hx, hy, hxy, hs⟩ := h
  rw [hx, hy, List.map_cons, List.map_cons, hxy.trim_eq, hs]

theorem words_crlf (t : List Char) : words (crlf t) = words t := by
  -- The piece at the start is the same, and of those behind it the ones that are not empty.
  have h : ∃ x xs ys, splitWhere isBlank t = x :: xs ∧ splitWhere isBlank (crlf t) = x :: ys ∧
      ys.filter (! ·.isEmpty) = xs.filter (! ·.isEmpty) := by
    induction t with
    | nil => exact ⟨[], [], [], rfl, rfl, rfl⟩
    | cons c t ih =>
      obtain ⟨x, xs, ys, hx, hy, hs⟩ := ih
      by_cases hc : c = '\n'
      · subst c
        refine ⟨[], x :: xs, [] :: x :: ys, ?_, ?_, ?_⟩
        · rw [← hx]
          rfl
        · rw [← hy]
          rfl
        · rw [List.filter_cons_of_neg (by decide), List.filter_cons, List.filter_cons, hs]
      · rw [crlf_cons hc, splitWhere, splitWhere, hx, hy]
        split
        · refine ⟨[], x :: xs, x :: ys, rfl, rfl, ?_⟩
          rw [List.filter_cons, List.filter_cons, hs]
        · exact ⟨c :: x, xs, ys, rfl, rfl, hs⟩
  obtain ⟨x, xs, ys, hx, hy, hs⟩ := h
  rw [words, words, hx, hy, List.filter_cons, List.filter_cons, hs]

theorem consFirst_map_crlf {c : Char} (hc : c ≠ '\n') (ps : List (List Char)) :
    consFirst c (ps.map crlf) = (consFirst c ps).map crlf := by
  cases ps with
  | nil => rw [consFirst, List.map_cons, crlf_cons hc]; rfl
  | cons x ps => rw [consFirst, List.map_cons, List.map_cons, crlf_cons hc]; rfl

theorem consFirst_newline_map_crlf (ps : List (List Char)) :
    consFirst '\r' (consFirst '\n' (ps.map crlf)) = (consFirst '\n' ps).map crlf := by
  cases ps with
  | nil => rfl
  | cons x ps => rfl

theorem map_map_consFirst {α β : Type} (g : α → β) (a : α) (ps : List (List α)) :
    (consFirst a ps).map (·.map g) = consFirst (g a) (ps.map (·.map g)) := by
  cases ps with
  | nil => rfl
  | cons x ps => rfl

end Text

open Text

theorem DocComment.clean_crlf (t : List Char) : clean (crlf t) = clean t := by
  rw [clean, clean, map_trim_lines_crlf]

namespace Nesting

theorem depthsFrom_newline (d : Nat) (prev : Option Char) (t : List Char) :
    depthsFrom d prev (crlf ('\n' :: t)) =
      ('\r', d) :: ('\n', d) :: depthsFrom d (some '\n') (crlf t) := rfl

theorem padded_takeUntil_crlf {stop : Char → Bool} (h : stop '\r' = false) (t : List Char) :
    Padded (crlf (takeUntil stop t)) (takeUntil stop (crlf t)) := by
  have hfrom (d : Nat) (prev : Option Char) : Padded
      (crlf (((depthsFrom d prev t).takeWhile fun x => !(x.2 == 0 && stop x.1)).map (·.1)))
      (((depthsFrom d prev (crlf t)).takeWhile fun x => !(x.2 == 0 && stop x.1)).map (·.1)) := by
    induction t generalizing d prev with
    | nil => exact .refl []
    | cons c t ih =>
      by_cases hc : c = '\n'
      · subst c
        have hreturn : (!(d == 0 && stop '\r')) = true := by rw [h, Bool.and_false]; rfl
        rw [depthsFrom_newline, depthsFrom, List.takeWhile_cons,
          List.takeWhile_cons_of_pos (a := ('\r', d)) hreturn, List.takeWhile_cons]
        split
        · exact ((ih d (some '\n')).cons '\n').cons '\r'
        · exact padded_return
      · rw [crlf_cons hc, depthsFrom, depthsFrom, List.takeWhile_cons, List.takeWhile_cons]
        split
        · rw [List.map_cons, List.map_cons, crlf_cons hc]
          exact (ih _ (some c)).cons c
        · exact .refl []
  exact hfrom 0 none

theorem splitAtCommas_crlf (t : List Char) :
    splitAtCommas (crlf t) = (splitAtCommas t).map crlf := by
  have hfrom (d : Nat) (prev : Option Char) :
      (splitWhere (fun x => x.2 == 0 && x.1 == ',') (depthsFrom d prev (crlf t))).map
        (·.map (·.1)) =
        ((splitWhere (fun x => x.2 == 0 && x.1 == ',') (depthsFrom d prev t)).map
          (·.map (·.1))).map crlf := by
    induction t generalizing d prev with
    | nil => rfl
    | cons c t ih =>
      by_cases hc : c = '\n'
      · subst c
        have hsep (e : Char) (he : (e == ',') = false) : ¬(d == 0 && e == ',') = true := by
          rw [he, Bool.and_false]
          exact Bool.false_ne_true
        rw [depthsFrom_newline, depthsFrom, splitWhere, if_neg (hsep _ rfl), splitWhere,
          if_neg (hsep _ rfl), splitWhere, if_neg (hsep _ rfl), map_map_consFirst,
          map_map_consFirst, map_map_consFirst, ih, consFirst_newline_map_crlf]
        rfl
      · rw [crlf_cons hc, depthsFrom, depthsFrom, splitWhere, splitWhere]
        split
        · rw [List.map_cons, ih]
          rfl
        · rw [map_map_consFirst, map_map_consFirst, ih, consFirst_map_crlf hc]
  exact hfrom 0 none

end Nesting

namespace Scan

theorem oneLine_crlf (t : List Char) : oneLine (crlf t) = oneLine t := by
  by_cases ht : '\n' ∈ t
  · rw [oneLine, oneLine, if_pos (List.contains_iff_mem.mpr ht),
      if_pos (List.contains_iff_mem.mpr (newline_mem_crlf.mpr ht)), words_crlf]
  · rw [crlf_eq_self ht]

theorem fieldType_crlf (t : List Char) : fieldType (crlf t) = fieldType t := by
  have hcommas (x : List Char) : dropLastCommas (crlf x) = crlf (dropLastCommas x) :=
    rdropWhile_crlf rfl x
  rw [fieldType, fieldType, (Nesting.padded_takeUntil_crlf rfl t).trim_eq, trim_crlf, hcommas,
    oneLine_crlf]

theorem prefix_crlf {lead t : List Char} (h : '\r' ∉ lead) (ht : lead <+: crlf t) : lead <+: t := by
  induction lead generalizing t with
  | nil => exact List.nil_prefix
  | cons c lead ih =>
    obtain ⟨hc, hlead⟩ := not_or.mp (mt List.mem_cons.mpr h)
    cases t with
    | nil => exact ht
    | cons d t =>
      by_cases hd : d = '\n'
      · subst d
        exact absurd (List.cons_prefix_cons.mp ht).1.symm hc
      · rw [crlf_cons hd, List.cons_prefix_cons] at ht
        exact List.cons_prefix_cons.mpr ⟨ht.1, ih hlead ht.2⟩

theorem dropLead_crlf {lead : List Char} (hn : '\n' ∉ lead) (hr : '\r' ∉ lead) (t : List Char) :
    dropLead lead (crlf t) = crlf (dropLead lead t) := by
  rw [dropLead, dropLead]
  by_cases h : lead <+: t
  · obtain ⟨s, rfl⟩ := h
    rw [crlf_append, crlf_eq_self hn,
      if_pos (List.isPrefixOf_iff_prefix.mpr (List.prefix_append ..)),
      if_pos (List.isPrefixOf_iff_prefix.mpr (List.prefix_append ..)), List.drop_left,
      List.drop_left]
  · rw [if_neg (mt List.isPrefixOf_iff_prefix.mp h),
      if_neg fun hp => h (prefix_crlf hr (List.isPrefixOf_iff_prefix.mp hp))]

theorem paramName_crlf (t : List Char) : paramName (crlf t) = crlf (paramName t) := by
  rw [paramName, paramName, trim_crlf, dropLead_crlf (by decide) (by decide), trimStart_crlf,
    dropLead_crlf (by decide) (by decide), trim_crlf]

end Scan

end RefDoc
