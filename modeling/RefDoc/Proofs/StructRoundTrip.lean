import RefDoc.Proofs.FieldRoundTrip

namespace RefDoc

open Text Pattern DocComment Nesting

variable {l r : List Char}

/-- The lines of a struct, without the end of the last one. -/
def StructDecl.lines (s : StructDecl) : List Char :=
  comments (ofText [] s.doc.toList) ++ (s.attributes.flatMap (Scan.attributeLine ·.toList) ++
    ("pub struct ".toList ++ (s.name.toList ++ (" \x7b\n".toList ++
      (s.fields.flatMap Field.source ++ "\x7d".toList)))))

def StructDecl.source (s : StructDecl) : List Char :=
  s.lines ++ ['\n']

/-- The record of a struct that begins on the line `n` of the source. -/
def StructDecl.record (text file : String) (s : StructDecl) (n : Nat) : StructDecl :=
  { s with sourceFile := file, line := n, sizeCalculation := Scan.sizeCalculation text s.name }

@[mk_iff]
structure StructDecl.Readable (s : StructDecl) : Prop where
  name : IsName s.name.toList
  doc : CleanForm s.doc.toList
  attributes : ∀ c ∈ s.attributes,
    c.toList ≠ [] ∧ Trimmed c.toList ∧ '\n' ∉ c.toList ∧ ']' ∉ c.toList
  fields : ∀ f ∈ s.fields, f.Readable

instance StructDecl.decidableReadable (s : StructDecl) : Decidable s.Readable :=
  decidable_of_iff' _ (StructDecl.readable_iff s)

namespace Scan

theorem takes_attributePattern {c : List Char} (hne : c ≠ []) (hc : ']' ∉ c) :
    Takes attributePattern l ("#[".toList ++ (c ++ ("]".toList ++ []))) r [(.content, c)] := by
  apply Takes.skip (.literal _)
  apply Takes.keep (.many1_char hne (except_of_not_mem hc) (.cons rfl _))
  exact .skip (.literal _) .nil

theorem attributeList_lines {cs : List String}
    (hcs : ∀ c ∈ cs, c.toList ≠ [] ∧ Trimmed c.toList ∧ ']' ∉ c.toList) :
    attributeList (cs.flatMap (attributeLine ·.toList)) = cs := by
  have hrejects {l w : List Char} (hw : Stops (· == '#') w) : attributePattern.Rejects l w := by
    apply Rejects.head
    apply rejects_literal
    intro h
    obtain ⟨w', rfl⟩ := h
    cases hw '#' rfl
  rw [attributeList, findAll_eq_findFrom]
  generalize [] = l
  induction cs generalizing l with
  | nil =>
    rw [List.flatMap_nil, findFrom_nil (hrejects nofun)]
    rfl
  | cons c cs ih =>
    obtain ⟨⟨hne, htrim, hc⟩, hcs⟩ := List.forall_mem_cons.mp hcs
    obtain ⟨f, hf, _, _, hgroup⟩ := (takes_attributePattern (l := l)
      (r := '\n' :: cs.flatMap (attributeLine ·.toList)) hne hc).exists_findFrom (by simp)
    rw [findFrom_cons (hrejects (.cons rfl _))] at hf
    have hline : (c :: cs).flatMap (attributeLine ·.toList) = "#[".toList ++ (c.toList ++
        ("]".toList ++ [])) ++ '\n' :: cs.flatMap (attributeLine ·.toList) := by
      simp [attributeLine]
    have hcontent : f.group .content = c.toList := by
      rw [Found.group, hgroup]
      rfl
    rw [hline, hf, List.map_cons, hcontent, show trim c.toList = c.toList from htrim,
      String.ofList_toList, ih hcs]

theorem takes_body {γ : Type} {g : γ} {x : List Char} (hx : '}' ∉ x) :
    Takes (sequence [blanks, group g (.manyLazy (.char fun _ => true)), blanks, literal "\x7d"]) l
      (x ++ "\x7d".toList) r [(g, trim x)] := by
  obtain ⟨a, b, hab, ha, hb, hnil⟩ := exists_eq_trim x
  have hstops : Stops isBlank (trim x ++ (b ++ ("\x7d".toList ++ [])) ++ r) := by
    by_cases he : trim x = []
    · rw [he, hnil he]
      exact .cons rfl _
    · rw [List.append_assoc]
      exact (trimmed_iff.mp (trimmed_trim x)).1.append he _
  have hmem {d : List Char} (hd : d ⊆ trim x ++ b) : '}' ∉ d := by
    intro h
    apply hx
    rw [hab]
    exact List.mem_append_right a (hd h)
  have htext : x ++ "\x7d".toList = a ++ (trim x ++ (b ++ ("\x7d".toList ++ []))) := by
    nth_rewrite 1 [hab]
    simp only [List.append_assoc, List.append_nil]
  rw [htext]
  apply Takes.skip (.blanks ha hstops)
  apply Takes.keep_lazy (fun _ _ => rfl)
  · apply Takes.skip (.blanks hb (.cons rfl _))
    exact .skip (.literal _) .nil
  · -- In front of the end there is ink before the brace: the last character of the trimmed text.
    intro d c e he
    apply rejects_blanks rfl rfl
    have hbrace : '}' ∉ trimStart (c :: e ++ b) := by
      apply hmem
      rw [he]
      exact fun z hz => by
        have hz := (trimStart_suffix _).subset hz
        simp only [List.mem_append] at hz ⊢
        tauto
    have hsplit : c :: e ++ (b ++ ("\x7d".toList ++ []) ++ r) = c :: e ++ b ++ '}' :: r := by simp
    rw [hsplit, trimStart_append_cons rfl]
    intro h
    cases ht : trimStart (c :: e ++ b) with
    | nil =>
      have hblank : Blank (c :: e ++ b) := List.dropWhile_eq_nil_iff.mp ht
      have hlast : (trim x).getLast? = some ((c :: e).getLast (by simp)) := by
        rw [he, List.getLast?_append_cons, List.getLast?_eq_some_getLast]
      have hink := (trimmed_iff.mp (trimmed_trim x)).2 _ hlast
      rw [hblank _ (List.mem_append_left b (List.getLast_mem _))] at hink
      cases hink
    | cons y ys =>
      rw [ht] at h hbrace
      obtain ⟨z, hz⟩ := h
      cases hz
      exact hbrace List.mem_cons_self

theorem brace_not_mem_source {f : Field} (hf : f.Readable) : '}' ∉ f.source := by
  have hdoc : '}' ∉ comments (ofText fieldIndent f.doc.toList) := by
    intro h
    rcases mem_comments_ofText h with h | h | h
    · cases spaces_fieldIndent _ h
    · revert h
      decide
    · exact hf.doc_brace h
  have hname : '}' ∉ f.name.toList := by
    intro h
    cases hf.name.2 _ h
  have hindent : '}' ∉ fieldIndent := by decide
  simp [Field.source, Field.lines, Field.written, hdoc, hname, hf.type_brace, hindent]

theorem opening_struct : Opening (Begins ['#', 'p']) structParts where
  ink := begins_ink (forall_mem_of_all rfl)
  rejects := by
    intro l w hw
    apply rejects_of_not_begins _ hw
    · exact .head (rejects_literal_of_not_begins ⟨'p', _, rfl, by decide⟩ hw)
    · intro l m r ms h
      exact begins_of_reads_attributes ((reads_group rfl).mp h).1 (by decide)

theorem takes_structParts {as : List String} {n x : List Char} (has : ∀ a ∈ as, '\n' ∉ a.toList)
    (hn : IsName n) (hx : '}' ∉ x) :
    Takes (sequence structParts) l (as.flatMap (attributeLine ·.toList) ++
        ("pub struct ".toList ++ (n ++ (" \x7b".toList ++ (x ++ "\x7d".toList))))) r
      [(.attributes, as.flatMap (attributeLine ·.toList)), (.name, n), (.fields, trim x)] := by
  have htext : "pub struct ".toList ++ (n ++ (" \x7b".toList ++ (x ++ "\x7d".toList))) =
      "pub".toList ++ ([' '] ++ ("struct".toList ++ ([' '] ++ (n ++ ([' '] ++ ([] ++ ([] ++
        ("\x7b".toList ++ (x ++ "\x7d".toList))))))))) := by simp
  rw [htext]
  apply Takes.keep (prefers_attributes has ⟨'p', _, rfl, List.mem_singleton_self _⟩
    (forall_mem_of_all rfl))
  apply Takes.skip (.literal _)
  apply Takes.skip (.space (.cons rfl _))
  apply Takes.skip (.literal _)
  apply Takes.skip
  · apply Prefers.space
    rw [List.append_assoc]
    exact hn.stops_isBlank _
  apply Takes.keep (hn.prefers (.cons rfl _))
  apply Takes.skip (.blanks (blank_spaces (by simp)) (.cons rfl _))
  apply Takes.skip (.maybe_nil (.head (rejects_literal (by simp))))
  apply Takes.skip (.blanks blank_nil (.cons rfl _))
  apply Takes.skip (.literal _)
  exact takes_body hx

theorem lines_eq (s : StructDecl) :
    s.lines = comments (ofText [] s.doc.toList) ++
      (s.attributes.flatMap (attributeLine ·.toList) ++ ("pub struct ".toList ++ (s.name.toList ++
        (" \x7b".toList ++ ('\n' :: s.fields.flatMap Field.source ++ "\x7d".toList))))) := by
  simp [StructDecl.lines]

theorem getLast?_structLines (s : StructDecl) : s.lines.getLast? = some '}' := by
  simp [StructDecl.lines, List.getLast?_cons]

theorem map_findFrom_structLines {s : StructDecl} (hs : s.Readable) {gap : List Char}
    (hgap : IsGap l gap) (text file : String) (r : List Char) :
    (structPattern.findFrom l (gap ++ s.lines ++ r)).map (structDecl text.toList file) =
      s.record text file ((l ++ gap).count '\n' + 1) ::
        (structPattern.findFrom (l ++ (gap ++ s.lines)) r).map (structDecl text.toList file) := by
  have hbody : '}' ∉ '\n' :: s.fields.flatMap Field.source := by
    intro h
    rcases List.mem_cons.mp h with h | h
    · cases h
    · obtain ⟨f, hf, h⟩ := List.mem_flatMap.mp h
      exact brace_not_mem_source (hs.fields f hf) h
  have htrim : trim ('\n' :: s.fields.flatMap Field.source) =
      trim (s.fields.flatMap Field.source) :=
    congrArg trimEnd (trimStart_append (a := ['\n']) blank_newline)
  obtain ⟨found, hfind, hgroup, hline⟩ := opening_struct.exists_findFrom_ofText (g := .doc)
    (d := s.doc.toList) (r := r) hgap (by simp)
    (takes_structParts (fun a ha => (hs.attributes a ha).2.2.1) hs.name hbody)
  have hname : found.group .name = s.name.toList := by
    rw [Found.group, hgroup]
    rfl
  have hdoc : clean (found.group .doc) = s.doc.toList := by
    rw [Found.group, hgroup]
    exact hs.doc.clean_ofText
  have hattributes : attributeList (found.group .attributes) = s.attributes := by
    rw [Found.group, hgroup]
    exact attributeList_lines fun c hc =>
      ⟨(hs.attributes c hc).1, (hs.attributes c hc).2.1, (hs.attributes c hc).2.2.2⟩
  have hfields : fieldList (found.group .fields) = s.fields := by
    rw [Found.group, hgroup]
    exact (congrArg fieldList htrim).trans (fieldList_trim_sources hs.fields)
  rw [lines_eq, structPattern, hfind, List.map_cons, structDecl, hname, hdoc, hattributes, hfields,
    hline, String.ofList_toList, String.ofList_toList]
  rfl

/-- A source that holds structs and nothing else is read back as exactly these structs, in order,
each with the line on which it begins. -/
theorem structs_of_sources (ss : List StructDecl) (hss : ∀ s ∈ ss, s.Readable) (file : String) :
    structs (String.ofList (ss.flatMap StructDecl.source)) file =
      recordsFrom (StructDecl.record (String.ofList (ss.flatMap StructDecl.source)) file)
        StructDecl.source 1 ss := by
  have hend : ∀ s ∈ ss, ∀ l, ¬AtLineStart (l ++ s.lines) :=
    fun s _ l => not_atLineStart_append (getLast?_structLines s) (by decide) l
  have h := opening_struct.map_findFrom hend
    (fun s hs l gap r hgap => map_findFrom_structLines (hss s hs) hgap
      (String.ofList (ss.flatMap StructDecl.source)) file r) (.inl ⟨rfl, .inl rfl⟩)
  rw [String.toList_ofList] at h
  rw [structs, String.toList_ofList, findAll_eq_findFrom]
  exact h

def pointAndUnit : List StructDecl :=
  [{ name := "Point"
     doc := "A point.\n\npub struct Fake"
     fields := [
       { name := "x", type := "HashMap<u8, (u8, u8)>", doc := "pub y: u8," },
       { name := "z", type := "u8", doc := "" }]
     attributes := ["derive(Debug, Clone)", "repr(C)"]
     sourceFile := ""
     line := 0
     sizeCalculation := none },
   { name := "Unit", doc := "", fields := [], attributes := [], sourceFile := "", line := 0,
     sizeCalculation := none }]

theorem structs_of_pointAndUnit : (∀ s ∈ pointAndUnit, s.Readable) ∧
    structs (String.ofList (pointAndUnit.flatMap StructDecl.source)) "point.rs" =
      recordsFrom (StructDecl.record (String.ofList (pointAndUnit.flatMap StructDecl.source))
        "point.rs") StructDecl.source 1 pointAndUnit := by
  have hreadable : ∀ s ∈ pointAndUnit, s.Readable := by decide +kernel
  exact ⟨hreadable, structs_of_sources pointAndUnit hreadable "point.rs"⟩

end Scan

end RefDoc
