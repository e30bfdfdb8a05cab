import RefDoc.Proofs.Depth
import RefDoc.Proofs.Opening
import RefDoc.Scan.Struct
import Mathlib.Data.List.Infix
import Mathlib.Tactic.MkIffOfInductiveProp

namespace RefDoc

open Text Pattern DocComment Nesting

variable {l r : List Char}

def fieldIndent : List Char :=
  [' ', ' ', ' ', ' ']

/-- A field from its name on, behind the lines of its documentation and the white space `ws`. -/
def Field.written (f : Field) (ls : List (List Char × List Char)) (ws : List Char) : List Char :=
  comments ls ++ (ws ++ ("pub ".toList ++ (f.name.toList ++ ": ".toList))) ++
    (f.type.toList ++ [','])

def Field.lines (f : Field) : List Char :=
  f.written (ofText fieldIndent f.doc.toList) fieldIndent

def Field.source (f : Field) : List Char :=
  f.lines ++ ['\n']

/-- What makes a field readable: its documentation is clean and holds no closing brace, and its type
ends where the comma behind it stands. -/
@[mk_iff]
structure Field.Readable (f : Field) : Prop where
  name : IsName f.name.toList
  doc : CleanForm f.doc.toList
  doc_brace : '}' ∉ f.doc.toList
  type_ne_nil : f.type.toList ≠ []
  type_trimmed : Trimmed f.type.toList
  type_line : '\n' ∉ f.type.toList
  type_brace : '}' ∉ f.type.toList
  type_pub : ¬"pub".toList <:+: f.type.toList
  type_comma : OnlyNested (· == ',') f.type.toList
  type_closed : Closed f.type.toList

instance Field.decidableReadable (f : Field) : Decidable f.Readable :=
  decidable_of_iff' _ (Field.readable_iff f)

namespace Scan

theorem opening_field : Opening ("pub".toList <+: ·) fieldParts where
  ink := by
    intro w hw
    obtain ⟨w', rfl⟩ := hw
    exact ⟨'p', 'u' :: 'b' :: w', rfl, by decide, by decide⟩
  rejects := fun _ _ hw => .head (rejects_literal hw)

theorem takes_fieldParts {n : List Char} (hn : IsName n) (hr : Stops isBlank r) :
    Takes (sequence fieldParts) l ("pub ".toList ++ (n ++ ": ".toList)) r [(.name, n)] := by
  have ht : "pub ".toList ++ (n ++ ": ".toList) =
      "pub".toList ++ ([' '] ++ (n ++ ([] ++ (":".toList ++ ([' '] ++ []))))) := by simp
  rw [ht]
  apply Takes.skip (.literal _)
  apply Takes.skip
  · apply Prefers.space
    rw [List.append_assoc]
    exact hn.stops_isBlank _
  apply Takes.keep (hn.prefers (.cons rfl _))
  apply Takes.skip (.blanks blank_nil (.cons rfl _))
  apply Takes.skip (.literal _)
  exact .skip (.blanks (blank_spaces (by simp)) hr) .nil

theorem dropLastCommas_eq_self {t : List Char} (h : t.getLast? ≠ some ',') :
    dropLastCommas t = t := by
  rw [dropLastCommas, List.dropWhile_eq_self_iff.mpr, List.reverse_reverse]
  intro hl hc
  apply h
  rw [← List.head?_reverse, List.head?_eq_getElem?, List.getElem?_eq_getElem hl, beq_iff_eq.mp hc]

theorem fieldType_of_closed {t : List Char} (ht : Trimmed t)
    (hstop : OnlyNested (fun c => c == ',' || c == '\n') t) (hlast : t.getLast? ≠ some ',')
    (hclosed : Closed t) (r : List Char) : fieldType (t ++ ',' :: r) = oneLine t := by
  rw [fieldType, takeUntil_append hclosed hstop rfl, show trim t = t from ht,
    dropLastCommas_eq_self hlast]

theorem fieldType_append {t : List Char} (ht : Trimmed t) (hn : '\n' ∉ t)
    (hcomma : OnlyNested (· == ',') t) (hclosed : Closed t) (r : List Char) :
    fieldType (t ++ ',' :: r) = t := by
  have hstop : OnlyNested (fun c => c == ',' || c == '\n') t := by
    intro x hx hd
    rw [Bool.or_eq_false_iff]
    exact ⟨hcomma x hx hd, onlyNested_of_not_mem hn x hx hd⟩
  rw [fieldType_of_closed ht hstop (getLast?_ne_comma hclosed hcomma) hclosed, oneLine_eq_self hn]

theorem fieldAt?_eq {f : Found FieldPart} {d n : List Char} (hstop : f.stop.rest = r)
    (hname : f.group? .name = some n) (hdoc : f.group? .doc = some d) (hr : fieldType r ≠ []) :
    fieldAt? f = some ⟨String.ofList n, String.ofList (fieldType r), String.ofList (clean d)⟩ := by
  have hempty : (fieldType r).isEmpty = false := by
    rw [← Bool.not_eq_true, List.isEmpty_iff]
    exact hr
  rw [fieldAt?, hstop, hempty, Found.group, Found.group, hname, hdoc]
  rfl

theorem prefixOf_append_comma {s a : List Char} (hs : ',' ∉ s) (h : s <+: a ++ ',' :: r) :
    s <+: a := by
  have hcomma : a ++ [','] <+: a ++ ',' :: r := ⟨r, by simp⟩
  rcases List.prefix_or_prefix_of_prefix h hcomma with h | h
  · rcases List.prefix_concat_iff.mp h with rfl | h
    · exact absurd (List.mem_append_right a List.mem_cons_self) hs
    · exact h
  · exact absurd (h.subset (List.mem_append_right a List.mem_cons_self)) hs

theorem findFrom_type {t : List Char} (hl : ¬AtLineStart l) (hn : '\n' ∉ t)
    (hpub : ¬"pub".toList <:+: t) (r : List Char) :
    fieldPattern.findFrom l (t ++ [','] ++ r) = fieldPattern.findFrom (l ++ (t ++ [','])) r := by
  apply findFrom_append
  intro a c b hab
  obtain ⟨d, hd⟩ : ∃ d, c :: b = d ++ [','] := by
    have hlast : (c :: b).getLast? = some ',' := by
      have h := congrArg List.getLast? hab
      rw [List.getLast?_concat, List.getLast?_append_cons] at h
      exact h.symm
    exact List.getLast?_eq_some_iff.mp hlast
  have ht : t = a ++ d := by
    rw [hd, ← List.append_assoc] at hab
    exact List.append_cancel_right hab
  rw [fieldPattern]
  apply opening_field.rejects_documented
  · left
    by_cases ha : a = []
    · rwa [ha, List.append_nil]
    · apply not_atLineStart_append (List.getLast?_eq_some_getLast ha)
      intro h
      exact hn (ht ▸ List.mem_append_left d (h ▸ List.getLast_mem ha))
  · rw [hd, List.append_assoc, List.singleton_append, trimStart_append_cons rfl]
    intro h
    apply hpub
    have hprefix := prefixOf_append_comma (by decide) h
    rw [ht]
    exact hprefix.isInfix.trans
      ((trimStart_suffix d).isInfix.trans (List.suffix_append a d).isInfix)

theorem mem_ofText_of_map_eq {indent d : List Char} {ls : List (List Char × List Char)}
    (hls : ls.map (·.2) = (ofText indent d).map (·.2)) : ∀ x ∈ ls, '\n' ∉ x.2 := by
  intro x hx
  have hmem : x.2 ∈ (ofText indent d).map (·.2) := hls ▸ List.mem_map_of_mem hx
  obtain ⟨y, hy, he⟩ := List.mem_map.mp hmem
  rw [← he]
  exact newline_not_mem_ofText hy

theorem filterMap_findFrom_written {f : Field} (hf : f.Readable) {gap ws : List Char}
    {ls : List (List Char × List Char)} (hgap : IsGap l gap)
    (hls : ls.map (·.2) = (ofText fieldIndent f.doc.toList).map (·.2))
    (hi : ∀ x ∈ ls, ∀ c ∈ x.1, c = ' ') (hws : ∀ c ∈ ws, c = ' ') (r : List Char) :
    (fieldPattern.findFrom l (gap ++ f.written ls ws ++ r)).filterMap fieldAt? =
      f :: (fieldPattern.findFrom (l ++ (gap ++ f.written ls ws)) r).filterMap fieldAt? := by
  have htype : Stops isBlank (f.type.toList ++ [','] ++ r) := by
    rw [List.append_assoc]
    exact (trimmed_iff.mp hf.type_trimmed).1.append hf.type_ne_nil _
  obtain ⟨found, hfind, hstop, hgroup, _⟩ := opening_field.exists_findFrom (g := .doc) hgap hi
    (mem_ofText_of_map_eq hls) hws (by simp) (takes_fieldParts hf.name htype)
  rw [← fieldPattern] at hfind
  have hfield : fieldAt? found = some f := by
    have hrest : found.stop.rest = f.type.toList ++ ',' :: r := by
      rw [hstop, Place.between_rest, List.append_assoc, List.singleton_append]
    have hname : found.group .name = f.name.toList := by
      rw [Found.group, hgroup]
      rfl
    have hdoc : clean (found.group .doc) = f.doc.toList := by
      rw [Found.group, hgroup]
      apply hf.doc.clean_comments hls
      intro x hx
      exact ⟨blank_spaces (hi x hx), fun hn => by cases hi x hx _ hn⟩
    simp only [fieldAt?, hrest, hname, hdoc, fieldType_append hf.type_trimmed hf.type_line
      hf.type_comma hf.type_closed, List.isEmpty_iff, hf.type_ne_nil, ↓reduceIte,
      String.ofList_toList]
  have hstart : ¬AtLineStart (l ++ (gap ++ (comments ls ++ (ws ++
      ("pub ".toList ++ (f.name.toList ++ ": ".toList)))))) := by
    apply not_atLineStart_append (c := ' ')
    · simp [List.getLast?_cons]
    · decide
  have hskip := findFrom_type hstart hf.type_line hf.type_pub r
  rw [hskip] at hfind
  rw [Field.written]
  simp only [List.append_assoc] at hfind ⊢
  rw [hfind, List.filterMap_cons, hfield]

theorem exists_written_eq (f : Field) (ls : List (List Char × List Char)) (ws : List Char) :
    ∃ z, f.written ls ws = z ++ [','] :=
  ⟨_, (List.append_assoc _ _ _).symm⟩

theorem not_atLineStart_written (l : List Char) (f : Field) (ls : List (List Char × List Char))
    (ws : List Char) : ¬AtLineStart (l ++ f.written ls ws) := by
  obtain ⟨z, hz⟩ := exists_written_eq f ls ws
  apply not_atLineStart_append (c := ',')
  · rw [hz, List.getLast?_concat]
  · decide

theorem spaces_fieldIndent : ∀ c ∈ fieldIndent, c = ' ' :=
  forall_mem_of_all rfl

theorem spaces_ofText (d : List Char) : ∀ x ∈ ofText fieldIndent d, ∀ c ∈ x.1, c = ' ' := by
  intro x hx
  rw [fst_of_mem_ofText hx]
  exact spaces_fieldIndent

theorem filterMap_findFrom_lines {fs : List Field} (hfs : ∀ f ∈ fs, f.Readable)
    (hl : ¬AtLineStart l) :
    (fieldPattern.findFrom l (fs.flatMap ('\n' :: ·.lines))).filterMap fieldAt? = fs := by
  induction fs generalizing l with
  | nil =>
    have hnil := opening_field.findFrom_eq_nil (g := .doc) (l := l) blank_nil
    rw [← fieldPattern] at hnil
    rw [List.flatMap_nil, hnil]
    rfl
  | cons f fs ih =>
    obtain ⟨hf, hfs⟩ := List.forall_mem_cons.mp hfs
    have hstart : ¬AtLineStart (l ++ (['\n'] ++ f.lines)) := by
      rw [← List.append_assoc]
      exact not_atLineStart_written _ f _ _
    rw [List.flatMap_cons, ← List.singleton_append]
    have hstep := filterMap_findFrom_written hf (.inr ⟨rfl, hl⟩) rfl (spaces_ofText _)
      spaces_fieldIndent (fs.flatMap ('\n' :: ·.lines))
    exact hstep.trans (congrArg _ (ih hfs hstart))

theorem exists_lines_eq (f : Field) :
    ∃ ls ws, f.lines = fieldIndent ++ f.written ls ws ∧ Stops isBlank (f.written ls ws) ∧
      ls.map (·.2) = (ofText fieldIndent f.doc.toList).map (·.2) ∧
      (∀ x ∈ ls, ∀ c ∈ x.1, c = ' ') ∧ ∀ c ∈ ws, c = ' ' := by
  cases hls : ofText fieldIndent f.doc.toList with
  | nil =>
    refine ⟨[], [], ?_, .cons rfl _, rfl, by simp, by simp⟩
    simp [Field.lines, Field.written, hls, comments]
  | cons x ls =>
    have hspaces := spaces_ofText f.doc.toList
    have hindent := fst_of_mem_ofText
      (hls ▸ List.mem_cons_self : x ∈ ofText fieldIndent f.doc.toList)
    rw [hls] at hspaces
    refine ⟨([], x.2) :: ls, fieldIndent, ?_, .cons rfl _, rfl, ?_, spaces_fieldIndent⟩
    · simp [Field.lines, Field.written, hls, comments, comment, hindent]
    · exact List.forall_mem_cons.mpr ⟨by simp, (List.forall_mem_cons.mp hspaces).2⟩

theorem cons_flatMap_source (fs : List Field) :
    '\n' :: fs.flatMap Field.source = fs.flatMap ('\n' :: ·.lines) ++ ['\n'] := by
  induction fs with
  | nil => rfl
  | cons f fs ih =>
    rw [List.flatMap_cons, List.flatMap_cons, Field.source, List.append_assoc, List.append_assoc,
      List.singleton_append, ih]
    rfl

theorem exists_flatMap_lines (a : List Char) (fs : List Field) :
    ∃ z, a ++ [','] ++ fs.flatMap ('\n' :: ·.lines) = z ++ [','] := by
  induction fs generalizing a with
  | nil => exact ⟨a, by simp⟩
  | cons f fs ih =>
    obtain ⟨w, hw⟩ := exists_written_eq f (ofText fieldIndent f.doc.toList) fieldIndent
    obtain ⟨z, hz⟩ := ih (a ++ ',' :: '\n' :: w)
    refine ⟨z, ?_⟩
    rw [← hz, List.flatMap_cons, Field.lines, hw]
    simp

/-- The fields in the body of a struct are those that are written there, in order. -/
theorem fieldList_trim_sources {fs : List Field} (hfs : ∀ f ∈ fs, f.Readable) :
    fieldList (trim (fs.flatMap Field.source)) = fs := by
  cases fs with
  | nil =>
    have hnil := opening_field.findFrom_eq_nil (g := .doc) (l := []) blank_nil
    rw [← fieldPattern] at hnil
    rw [List.flatMap_nil, fieldList, findAll_eq_findFrom]
    exact congrArg _ hnil
  | cons f fs =>
    obtain ⟨hf, hfs⟩ := List.forall_mem_cons.mp hfs
    obtain ⟨ls, ws, hlines, hstops, hls, hi, hws⟩ := exists_lines_eq f
    have htrim : trim ((f :: fs).flatMap Field.source) =
        [] ++ f.written ls ws ++ fs.flatMap ('\n' :: ·.lines) := by
      obtain ⟨w, hw⟩ := exists_written_eq f ls ws
      obtain ⟨z, hz⟩ := exists_flatMap_lines w fs
      rw [← hw] at hz
      have ht : Trimmed (f.written ls ws ++ fs.flatMap ('\n' :: ·.lines)) := by
        apply trimmed_iff.mpr
        refine ⟨hstops.append (by simp [hw]) _, ?_⟩
        intro c hc
        rw [hz, List.getLast?_concat] at hc
        cases hc
        rfl
      have hb := ht.trim_append (blank_spaces spaces_fieldIndent) blank_newline
      rw [List.flatMap_cons, Field.source, List.append_assoc, List.singleton_append,
        cons_flatMap_source, hlines, List.nil_append, ← hb]
      simp only [List.append_assoc]
    have hstart := not_atLineStart_written [] f ls ws
    rw [fieldList, findAll_eq_findFrom, htrim,
      filterMap_findFrom_written hf (.inl ⟨rfl, .inl rfl⟩) hls hi hws]
    exact congrArg _ (filterMap_findFrom_lines hfs hstart)

end Scan

end RefDoc
