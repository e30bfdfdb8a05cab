import RefDoc.Proofs.FieldRoundTrip

namespace RefDoc

open Text Pattern DocComment Nesting

variable {t r : List Char}

namespace Text

theorem flatten_splitWhere {α : Type} (sep : α → Bool) (as : List α) :
    (splitWhere sep as).flatten = as.filter (!sep ·) := by
  induction as with
  | nil => rfl
  | cons a as ih =>
    rw [splitWhere]
    split
    · next ha => rw [List.flatten_cons, List.nil_append, ih, List.filter_cons_of_neg (by simp [ha])]
    · next ha =>
      have hne : splitWhere sep as ≠ [] := splitWhere_ne_nil as
      obtain ⟨x, xs, hx⟩ := List.exists_cons_of_ne_nil hne
      rw [List.filter_cons_of_pos (by simp [ha]), ← ih, hx]
      rfl

theorem filter_intercalate {f : Char → Bool} {s : List Char} (hs : ∀ c ∈ s, f c = false)
    (ps : List (List Char)) : (s.intercalate ps).filter f = ps.flatten.filter f := by
  induction ps with
  | nil => rfl
  | cons p ps ih =>
    cases ps with
    | nil => rw [List.intercalate_singleton, List.flatten_singleton]
    | cons q ps =>
      have hnone : s.filter f = [] := List.filter_eq_nil_iff.mpr fun c hc => by simp [hs c hc]
      rw [List.intercalate_cons_cons, List.flatten_cons, List.filter_append, List.filter_append,
        List.filter_append, hnone, ih, List.append_nil]

end Text

theorem Scan.filter_oneLine (t : List Char) :
    (oneLine t).filter (!isBlank ·) = t.filter (!isBlank ·) := by
  rw [oneLine]
  split
  · rw [filter_intercalate (by simp [isBlank_space]), words, List.flatten_filter_not_isEmpty,
      flatten_splitWhere, List.filter_filter]
    simp
  · rfl

theorem Scan.mem_oneLine {c : Char} (hc : isBlank c = false) : c ∈ oneLine t ↔ c ∈ t := by
  have hmem := congrArg (c ∈ ·) (filter_oneLine t)
  simpa [hc] using hmem

theorem Scan.dropLastCommas_concat (t : List Char) :
    dropLastCommas (t ++ [',']) = dropLastCommas t := by
  rw [dropLastCommas, List.reverse_concat, List.dropWhile_cons_of_pos rfl]
  rfl

theorem Scan.not_stop_of_not_mem (hc : ',' ∉ t) (hn : '\n' ∉ t) :
    ∀ c ∈ t, (c == ',' || c == '\n') = false := by
  intro c ht
  rw [Bool.or_eq_false_iff, beq_eq_false_iff_ne, beq_eq_false_iff_ne]
  exact ⟨ne_of_mem_of_not_mem ht hc, ne_of_mem_of_not_mem ht hn⟩

/-- A field without documentation whose type stands on one line and holds no comma and no `pub`. -/
@[mk_iff]
structure Field.Plain (f : Field) : Prop where
  name : IsName f.name.toList
  doc : f.doc = ""
  type_ne_nil : f.type.toList ≠ []
  type_trimmed : Trimmed f.type.toList
  type_line : '\n' ∉ f.type.toList
  type_comma : ',' ∉ f.type.toList
  type_pub : ¬"pub".toList <:+: f.type.toList

instance Field.decidablePlain (f : Field) : Decidable f.Plain :=
  decidable_of_iff' _ (Field.plain_iff f)

def Field.head (indent : List Char) (f : Field) : List Char :=
  indent ++ ("pub ".toList ++ (f.name.toList ++ ": ".toList))

def fieldLines (indent : List Char) (fs : List Field) : List Char :=
  fs.flatMap fun f => f.head indent ++ (f.type.toList ++ ",\n".toList)

/-- The text of a type that begins with `t` in front of the lines of the fields: as long as a
bracket is open, the next line belongs to it. -/
def typeText (indent t : List Char) : List Field → List Char
  | [] => t
  | f :: fs =>
    if Closed t then t
    else typeText indent (t ++ (",\n".toList ++ (f.head indent ++ f.type.toList))) fs

/-- The records of fields that are written one per line. -/
def recordedFields (indent : List Char) : List Field → List Field
  | [] => []
  | f :: fs =>
    { f with type := String.ofList (Scan.oneLine (typeText indent f.type.toList fs)) } ::
      recordedFields indent fs

/-- What is read of a type at the end of a line: it can end only outside all brackets. -/
structure TypeSoFar (t : List Char) : Prop where
  ne_nil : t ≠ []
  trimmed : Trimmed t
  last : t.getLast? ≠ some ','
  nested : OnlyNested (fun c => c == ',' || c == '\n') t

namespace Field.Plain

variable {f : Field} {indent : List Char}

theorem stops (hf : f.Plain) : ∀ c ∈ f.type.toList, (c == ',' || c == '\n') = false :=
  Scan.not_stop_of_not_mem hf.type_comma hf.type_line

theorem typeSoFar (hf : f.Plain) : TypeSoFar f.type.toList where
  ne_nil := hf.type_ne_nil
  trimmed := hf.type_trimmed
  last := fun h => hf.type_comma (List.mem_of_getLast? h)
  nested := fun x hx _ => hf.stops x.1 (fst_mem_of_mem_depthsFrom hx)

theorem head_stops (hf : f.Plain) (hi : ∀ c ∈ indent, c = ' ' ∨ c = '\t') :
    ∀ c ∈ f.head indent, (c == ',' || c == '\n') = false := by
  have hname : ∀ c ∈ f.name.toList, (c == ',' || c == '\n') = false := by
    apply Scan.not_stop_of_not_mem
    · intro hc
      cases hf.name.2 _ hc
    · intro hn
      cases hf.name.2 _ hn
  have hindent : ∀ c ∈ indent, (c == ',' || c == '\n') = false := by
    intro c hc
    rcases hi c hc with rfl | rfl <;> rfl
  have hpub : ∀ c ∈ "pub ".toList, (c == ',' || c == '\n') = false := forall_mem_of_all rfl
  have hcolon : ∀ c ∈ ": ".toList, (c == ',' || c == '\n') = false := forall_mem_of_all rfl
  simp only [Field.head, List.forall_mem_append]
  exact ⟨hindent, hpub, hname, hcolon⟩

end Field.Plain

namespace TypeSoFar

variable {f : Field} {indent : List Char}

theorem append (h : TypeSoFar t) (ht : ¬Closed t) (hf : f.Plain)
    (hi : ∀ c ∈ indent, c = ' ' ∨ c = '\t') :
    TypeSoFar (t ++ (",\n".toList ++ (f.head indent ++ f.type.toList))) := by
  have hlast : (t ++ (",\n".toList ++ (f.head indent ++ f.type.toList))).getLast? =
      f.type.toList.getLast? := by
    rw [← List.append_assoc, ← List.append_assoc]
    exact List.getLast?_append_of_ne_nil _ hf.type_ne_nil
  refine ⟨by simp [h.ne_nil], trimmed_iff.mpr ⟨?_, ?_⟩, ?_, ?_⟩
  · exact (trimmed_iff.mp h.trimmed).1.append h.ne_nil _
  · rw [hlast]
    exact (trimmed_iff.mp hf.type_trimmed).2
  · rw [hlast]
    exact hf.typeSoFar.last
  · rw [← List.append_assoc]
    have hcomma := h.nested.append_of_not_closed (r := ",\n".toList) ht (by decide)
    exact hcomma.append_of_forall (List.forall_mem_append.mpr ⟨hf.head_stops hi, hf.stops⟩)

theorem fieldType_end (h : TypeSoFar t) (ht : ¬Closed t) :
    Scan.fieldType (t ++ ",\n".toList) = Scan.oneLine t := by
  have hnested := h.nested.append_of_not_closed (r := ",\n".toList) ht (by decide)
  have htrimmed : Trimmed (t ++ [',']) := by
    apply trimmed_iff.mpr
    refine ⟨(trimmed_iff.mp h.trimmed).1.append h.ne_nil _, ?_⟩
    intro c hc
    rw [List.getLast?_concat] at hc
    cases hc
    rfl
  have htrim : trim (t ++ ",\n".toList) = t ++ [','] := by
    have hline := htrimmed.trim_append blank_nil blank_newline
    rwa [List.nil_append, List.append_assoc] at hline
  rw [Scan.fieldType, takeUntil_eq_self hnested, htrim, Scan.dropLastCommas_concat,
    Scan.dropLastCommas_eq_self h.last]

theorem fieldType_eq (h : TypeSoFar t) {fs : List Field} (hfs : ∀ f ∈ fs, f.Plain)
    (hi : ∀ c ∈ indent, c = ' ' ∨ c = '\t') :
    Scan.fieldType (t ++ (",\n".toList ++ fieldLines indent fs)) =
      Scan.oneLine (typeText indent t fs) := by
  induction fs generalizing t with
  | nil =>
    by_cases ht : Closed t
    · exact Scan.fieldType_of_closed h.trimmed h.nested h.last ht _
    · exact h.fieldType_end ht
  | cons f fs ih =>
    obtain ⟨hf, hfs⟩ := List.forall_mem_cons.mp hfs
    rw [typeText]
    split
    · next ht => exact Scan.fieldType_of_closed h.trimmed h.nested h.last ht _
    · next ht =>
      rw [← ih (h.append ht hf hi) hfs, fieldLines, List.flatMap_cons]
      simp only [List.append_assoc]
      rfl

theorem oneLine_ne_nil (h : TypeSoFar t) : Scan.oneLine t ≠ [] := by
  obtain ⟨c, t, rfl⟩ := List.exists_cons_of_ne_nil h.ne_nil
  have hc : isBlank c = false := (trimmed_iff.mp h.trimmed).1 c rfl
  exact List.ne_nil_of_mem ((Scan.mem_oneLine hc).mpr List.mem_cons_self)

theorem typeText {fs : List Field} (h : TypeSoFar t) (hfs : ∀ f ∈ fs, f.Plain)
    (hi : ∀ c ∈ indent, c = ' ' ∨ c = '\t') : TypeSoFar (typeText indent t fs) := by
  induction fs generalizing t with
  | nil => exact h
  | cons f fs ih =>
    obtain ⟨hf, hfs⟩ := List.forall_mem_cons.mp hfs
    rw [RefDoc.typeText]
    split
    · exact h
    · next ht => exact ih (h.append ht hf hi) hfs

end TypeSoFar

theorem prefix_typeText (indent t : List Char) (fs : List Field) : t <+: typeText indent t fs := by
  induction fs generalizing t with
  | nil => exact List.prefix_rfl
  | cons f fs ih =>
    rw [typeText]
    split
    · exact List.prefix_rfl
    · exact (List.prefix_append t _).trans (ih _)

/-- A type without a comma is recorded as written unless it leaves a bracket open in front of
another field. -/
theorem oneLine_typeText_eq_iff (indent : List Char) (fs : List Field) (hn : '\n' ∉ t)
    (hc : ',' ∉ t) : Scan.oneLine (typeText indent t fs) = t ↔ fs = [] ∨ Closed t := by
  cases fs with
  | nil =>
    rw [typeText, Scan.oneLine_eq_self hn]
    simp
  | cons f fs =>
    rw [typeText]
    split
    · next ht =>
      rw [Scan.oneLine_eq_self hn]
      simp [ht]
    · next ht =>
      refine iff_of_false ?_ (by simp [ht])
      intro heq
      -- The comma behind the type is recorded with it, and the type itself has none.
      apply hc
      rw [← heq, Scan.mem_oneLine rfl]
      apply (prefix_typeText indent _ fs).subset
      simp

theorem Field.retype_eq_iff (f : Field) (x : List Char) :
    { f with type := String.ofList x } = f ↔ x = f.type.toList := by
  constructor
  · intro h
    have htype := congrArg (·.type.toList) h
    simpa using htype
  · rintro rfl
    rw [String.ofList_toList]

theorem recordedFields_eq_iff {indent : List Char} {fs : List Field} (hfs : ∀ f ∈ fs, f.Plain) :
    recordedFields indent fs = fs ↔ ∀ f ∈ fs.dropLast, Closed f.type.toList := by
  induction fs with
  | nil => simp [recordedFields]
  | cons f fs ih =>
    obtain ⟨hf, hfs⟩ := List.forall_mem_cons.mp hfs
    rw [recordedFields, List.cons.injEq, f.retype_eq_iff,
      oneLine_typeText_eq_iff indent fs hf.type_line hf.type_comma, ih hfs]
    cases fs with
    | nil => simp
    | cons g fs => simp

namespace Scan

variable {f : Field} {indent l ws : List Char}

theorem filterMap_findFrom_head (hf : f.Plain) (hws : Blank ws)
    (htype : fieldType (f.type.toList ++ ',' :: r) ≠ []) :
    (fieldPattern.findFrom l (ws ++ ("pub ".toList ++ (f.name.toList ++ ": ".toList)) ++
        (f.type.toList ++ ',' :: r))).filterMap fieldAt? =
      { f with type := String.ofList (fieldType (f.type.toList ++ ',' :: r)) } ::
        (fieldPattern.findFrom (l ++ (ws ++ ("pub ".toList ++ (f.name.toList ++ ": ".toList))) ++
          (f.type.toList ++ [','])) r).filterMap fieldAt? := by
  have hstops : Stops isBlank (f.type.toList ++ ',' :: r) :=
    (trimmed_iff.mp hf.type_trimmed).1.append hf.type_ne_nil _
  have htakes := takes_fieldParts (l := l ++ ws) hf.name hstops
  obtain ⟨found, hfind, hstop, hgroup, _⟩ := opening_field.exists_findFrom_blank (g := .doc) hws
    (.inr (opening_field.rejects_docLine hws htakes l)) (by simp) htakes
  have hfield : fieldAt? found =
      some { f with type := String.ofList (fieldType (f.type.toList ++ ',' :: r)) } := by
    rw [fieldAt?_eq (by rw [hstop]; rfl) (hgroup .name) (hgroup .doc) htype, String.ofList_toList,
      hf.doc]
    rfl
  have hstart : ¬AtLineStart (l ++ (ws ++ ("pub ".toList ++ (f.name.toList ++ ": ".toList)))) := by
    apply not_atLineStart_append (c := ' ')
    · simp [List.getLast?_cons]
    · decide
  have hskip := findFrom_type hstart hf.type_line hf.type_pub r
  rw [List.append_assoc, List.singleton_append] at hskip
  rw [fieldPattern, hfind, ← fieldPattern, List.filterMap_cons_some hfield, hskip]

theorem filterMap_findFrom_fieldLines {fs : List Field} (hfs : ∀ f ∈ fs, f.Plain)
    (hi : ∀ c ∈ indent, c = ' ' ∨ c = '\t') (hws : Blank ws) (l : List Char) :
    (fieldPattern.findFrom l (ws ++ fieldLines indent fs)).filterMap fieldAt? =
      recordedFields indent fs := by
  induction fs generalizing l ws with
  | nil =>
    have hnil := opening_field.findFrom_eq_nil (g := .doc) (l := l) hws
    rw [fieldLines, List.flatMap_nil, List.append_nil, fieldPattern, hnil]
    rfl
  | cons f fs ih =>
    obtain ⟨hf, hfs⟩ := List.forall_mem_cons.mp hfs
    have htype : fieldType (f.type.toList ++ ',' :: '\n' :: fieldLines indent fs) =
        oneLine (typeText indent f.type.toList fs) := hf.typeSoFar.fieldType_eq hfs hi
    have hne := (hf.typeSoFar.typeText hfs hi).oneLine_ne_nil
    rw [← htype] at hne
    have hstep := filterMap_findFrom_head (l := l) hf (hws.append (blank_indent hi)) hne
    have htext : ws ++ fieldLines indent (f :: fs) =
        ws ++ indent ++ ("pub ".toList ++ (f.name.toList ++ ": ".toList)) ++
          (f.type.toList ++ ',' :: (['\n'] ++ fieldLines indent fs)) := by
      simp [fieldLines, Field.head]
    rw [htext, recordedFields, ← htype]
    exact hstep.trans (congrArg _ (ih hfs blank_newline _))

/-- Fields that are written one per line are all found, in order, each with its own name and with
the type that begins on its line. They come back as written exactly if every type but the last
leaves no bracket open, and so in particular if all brackets are balanced, angle signs included. -/
theorem fieldList_fieldLines (indent : List Char) (fs : List Field)
    (hi : ∀ c ∈ indent, c = ' ' ∨ c = '\t') (hfs : ∀ f ∈ fs, f.Plain) :
    fieldList (fieldLines indent fs) = recordedFields indent fs ∧
    (fieldList (fieldLines indent fs) = fs ↔ ∀ f ∈ fs.dropLast, Closed f.type.toList) ∧
    ((∀ f ∈ fs, Balanced typeBrackets f.type.toList) → fieldList (fieldLines indent fs) = fs) := by
  have hrecords : fieldList (fieldLines indent fs) = recordedFields indent fs := by
    rw [fieldList, findAll_eq_findFrom]
    exact filterMap_findFrom_fieldLines hfs hi blank_nil []
  rw [hrecords]
  refine ⟨rfl, recordedFields_eq_iff hfs, ?_⟩
  intro hbalanced
  apply (recordedFields_eq_iff hfs).mpr
  intro f hf
  exact (hbalanced f (List.mem_of_mem_dropLast hf)).closed

def closedFields : List Field :=
  [⟨"a", "Vec<fn(u8) -> [u8; 4]>", ""⟩, ⟨"b", "[u8; 4 >> 1]", ""⟩, ⟨"c", "u8", ""⟩]

theorem fieldList_closedFields : (∀ f ∈ closedFields, f.Plain) ∧
    fieldList (fieldLines fieldIndent closedFields) = closedFields := by
  have hplain : ∀ f ∈ closedFields, f.Plain := by decide +kernel
  have hclosed : ∀ f ∈ closedFields.dropLast, Closed f.type.toList := by decide +kernel
  have h := fieldList_fieldLines fieldIndent closedFields
    (fun c hc => .inl (spaces_fieldIndent c hc))
    hplain
  exact ⟨hplain, h.2.1.mpr hclosed⟩

def shiftedFields : List Field :=
  [⟨"a", "[u8; 1 << 2]", ""⟩, ⟨"b", "u8", ""⟩]

theorem fieldList_shiftedFields :
    (∀ f ∈ shiftedFields, f.Plain ∧ Balanced [('(', ')'), ('[', ']')] f.type.toList ∧
      '}' ∉ f.type.toList) ∧
    fieldList (fieldLines fieldIndent shiftedFields) =
      [⟨"a", "[u8; 1 << 2], pub b: u8", ""⟩, ⟨"b", "u8", ""⟩] := by
  decide +kernel

end Scan

end RefDoc
