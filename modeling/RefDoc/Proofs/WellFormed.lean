import RefDoc.Proofs.Layout
import RefDoc.Run.Extraction

namespace RefDoc

open Text Pattern DocComment

structure Field.WellFormed (f : Field) : Prop where
  name : IsName f.name.toList
  type_ne_nil : f.type.toList ≠ []
  type_line : '\n' ∉ f.type.toList
  doc : clean f.doc.toList = f.doc.toList

structure Param.WellFormed (p : Param) : Prop where
  name_ne_nil : p.name.toList ≠ []
  name_trimmed : Trimmed p.name.toList
  type_line : '\n' ∉ p.type.toList

def IsLineOf (n : Nat) (text : String) : Prop :=
  1 ≤ n ∧ n ≤ 1 + text.toList.count '\n'

structure StructDecl.WellFormed (text : String) (s : StructDecl) : Prop where
  name : IsName s.name.toList
  doc : clean s.doc.toList = s.doc.toList
  fields : ∀ f ∈ s.fields, f.WellFormed
  attributes : ∀ a ∈ s.attributes, Trimmed a.toList ∧ ']' ∉ a.toList
  line : IsLineOf s.line text
  size : ∀ b ∈ s.sizeCalculation, b.toList ≠ [] ∧ Trimmed b.toList ∧ '}' ∉ b.toList

structure FunctionDecl.WellFormed (text : String) (f : FunctionDecl) : Prop where
  name : IsName f.name.toList
  doc : clean f.doc.toList = f.doc.toList
  signature : ∃ raw : String, ')' ∉ raw.toList ∧
    f.signature = "fn " ++ f.name ++ "(" ++ raw ++ ") -> " ++ f.returnType
  line : IsLineOf f.line text
  params : ∀ p ∈ f.params, p.WellFormed
  returnType : f.returnType.toList ≠ [] ∧ Trimmed f.returnType.toList ∧
    '{' ∉ f.returnType.toList ∧ ';' ∉ f.returnType.toList

variable {γ : Type} {p : Pattern γ} {ps : List (Pattern γ)} {f : Found γ} {t : List Char}

instance [DecidableEq γ] (ms : List (Mark γ)) (g : γ) : Decidable (Avoids ms g) :=
  inferInstanceAs (Decidable (_ ∧ _))

theorem Found.IsReading.reads_group [DecidableEq γ] {g : γ} {i : Nat}
    (h : f.IsReading (sequence ps) t) (hi : ps[i]? = some (Pattern.group g p))
    (hps : Avoids (sequence (ps.take i)).marks g) (hp : p.marks = []) :
    ∃ l r, Reads p l (f.group g) r [] := by
  obtain ⟨_, _, _, _, _, _, h⟩ := h
  obtain ⟨l, m, r, hm, hg⟩ := h.capture_group hi hps hp
  have hgroup : f.group g = m := by
    rw [Found.group, Found.group?, hg, Option.getD_some]
  exact ⟨l, r, hgroup ▸ hm⟩

theorem Found.IsReading.reads_maybe_group [DecidableEq γ] {qs : List (Pattern γ)} {g : γ}
    {i j : Nat}
    {m : List Char} (h : f.IsReading (sequence ps) t) (hi : ps[i]? = some (maybe (sequence qs)))
    (hj : qs[j]? = some (Pattern.group g p)) (hps : Avoids (sequence (ps.take i)).marks g)
    (hrest : Avoids (sequence (ps.drop (i + 1))).marks g)
    (hqs : Avoids (sequence (qs.take j)).marks g) (hp : p.marks = []) (hm : f.group? g = some m) :
    ∃ l r, Reads p l m r [] := by
  obtain ⟨_, _, _, _, _, _, h⟩ := h
  exact h.capture_maybe hi hj hps hrest hqs hp hm

theorem not_mem_of_reads_except {l m r : List Char} {cs : List Char} {c : Char}
    (h : Reads (.many (except cs) : Pattern γ) l m r []) (hc : c ∈ cs) : c ∉ m := by
  intro hm
  have hf := (reads_many_char.mp h).1 c hm
  simp [hc] at hf

theorem not_mem_of_reads_except1 {l m r : List Char} {cs : List Char} {c : Char}
    (h : Reads (many1 (except cs) : Pattern γ) l m r []) (hc : c ∈ cs) : c ∉ m := by
  intro hm
  have hf := (reads_many1_char.mp h).1.2 c hm
  simp [hc] at hf

theorem isName_of_reads {l m r : List Char} (h : Reads (word : Pattern γ) l m r []) :
    IsName (String.ofList m).toList := by
  rw [String.toList_ofList]
  exact (reads_many1_char.mp h).1

theorem clean_ofList_clean (t : List Char) :
    clean (String.ofList (clean t)).toList = (String.ofList (clean t)).toList := by
  rw [String.toList_ofList]
  exact (isClean_clean t).clean_eq

namespace Scan

theorem isLineOf_lineOf {text : String} (h : f.IsReading p text.toList) :
    IsLineOf (lineOf f) text := by
  obtain ⟨l, m, r, ht, hstart, hstop, _⟩ := h
  have hle : (m.takeWhile isBlank).count '\n' ≤ m.count '\n' :=
    (List.takeWhile_sublist isBlank).count_le '\n'
  rw [IsLineOf, lineOf, Found.text, hstart, hstop, Place.textTo_between, Place.between_line, ht]
  simp only [List.count_append]
  omega

theorem newline_not_mem_oneLine (t : List Char) : '\n' ∉ oneLine t := by
  rw [oneLine]
  split
  · intro h
    rcases mem_intercalate h with h | ⟨w, hw, h⟩
    · cases List.mem_singleton.mp h
    · have hblank := (of_mem_splitWhere (List.mem_filter.mp hw).1 _ h).2
      rw [isBlank_newline] at hblank
      cases hblank
  · next h =>
    rw [List.contains_iff_mem] at h
    exact h

theorem wellFormed_of_mem_fieldList {body : List Char} {x : Field} (h : x ∈ fieldList body) :
    x.WellFormed := by
  obtain ⟨f, hf, hx⟩ := List.mem_filterMap.mp h
  obtain ⟨l, r, hname⟩ := (isReading_of_mem_findAll hf).reads_group (i := 4) rfl (by decide) rfl
  rw [fieldAt?] at hx
  by_cases hempty : (fieldType f.stop.rest).isEmpty = true
  · simp [hempty] at hx
  · simp only [hempty, Bool.false_eq_true, ↓reduceIte, Option.some.injEq] at hx
    subst x
    rw [List.isEmpty_iff] at hempty
    exact {
      name := isName_of_reads hname
      type_ne_nil := by rwa [String.toList_ofList]
      type_line := by
        rw [String.toList_ofList]
        exact newline_not_mem_oneLine _
      doc := clean_ofList_clean _ }

theorem wellFormed_of_mem_attributeList {t : List Char} {a : String} (h : a ∈ attributeList t) :
    Trimmed a.toList ∧ ']' ∉ a.toList := by
  obtain ⟨f, hf, rfl⟩ := List.mem_map.mp h
  obtain ⟨l, r, hcontent⟩ := (isReading_of_mem_findAll hf).reads_group (i := 1) rfl (by decide) rfl
  rw [String.toList_ofList]
  exact ⟨trimmed_trim _, fun hm =>
    not_mem_of_reads_except1 hcontent (List.mem_singleton_self _) (mem_of_mem_trim hm)⟩

theorem wellFormed_of_mem_sizeBody {t name body : List Char} (h : body ∈ sizeBody t name) :
    body ≠ [] ∧ Trimmed body ∧ '}' ∉ body := by
  obtain ⟨f, hf, h⟩ := Option.bind_eq_some_iff.mp h
  obtain ⟨l, r, hbody⟩ : ∃ l r, Reads (many1 (except ['}'])) l (f.group .body) r [] := by
    apply (isReading_of_find? hf).reads_group (i := 24) rfl _ rfl
    -- The name is not known, but the pattern that reads it has no groups.
    simp only [implParts, tailParts, methodParts, List.cons_append, List.nil_append, marks_sequence,
      List.take_succ_cons, List.take_zero, List.flatMap_cons, List.flatMap_nil, marks_charList]
    decide
  by_cases hempty : (trim (f.group .body)).isEmpty = true
  · simp [hempty] at h
  · simp only [hempty, Bool.false_eq_true, ↓reduceIte, Option.some.injEq] at h
    subst body
    rw [List.isEmpty_iff] at hempty
    exact ⟨hempty, trimmed_trim _, fun hm =>
      not_mem_of_reads_except1 hbody (List.mem_singleton_self _) (mem_of_mem_trim hm)⟩

theorem wellFormed_of_mem_structs {text file : String} {s : StructDecl}
    (h : s ∈ structs text file) :
    s.WellFormed text := by
  obtain ⟨f, hf, rfl⟩ := List.mem_map.mp h
  have hreading := isReading_of_mem_findAll hf
  obtain ⟨l, r, hname⟩ := hreading.reads_group (g := .name) (i := 7) rfl (by decide) rfl
  exact {
    name := isName_of_reads hname
    doc := clean_ofList_clean _
    fields := fun x hx => wellFormed_of_mem_fieldList hx
    attributes := fun a ha => wellFormed_of_mem_attributeList ha
    line := isLineOf_lineOf hreading
    size := by
      intro b hb
      obtain ⟨body, hbody, rfl⟩ := Option.map_eq_some_iff.mp hb
      rw [String.toList_ofList]
      exact wellFormed_of_mem_sizeBody hbody }

theorem wellFormed_of_param? {piece : List Char} {p : Param} (h : param? piece = some p) :
    p.WellFormed := by
  rw [param?] at h
  split at h
  · cases h
  · next type _ =>
    by_cases hempty : (paramName ((trim piece).takeWhile (· != ':'))).isEmpty = true
    · simp [hempty] at h
    · simp only [hempty, Bool.false_eq_true, ↓reduceIte, Option.some.injEq] at h
      subst p
      rw [List.isEmpty_iff] at hempty
      exact {
        name_ne_nil := by rwa [String.toList_ofList]
        name_trimmed := by
          rw [String.toList_ofList]
          exact trimmed_trim _
        type_line := by
          rw [String.toList_ofList]
          exact newline_not_mem_oneLine _ }

theorem wellFormed_of_mem_paramList {t : List Char} {p : Param} (h : p ∈ paramList t) :
    p.WellFormed := by
  obtain ⟨piece, _, hp⟩ := List.mem_filterMap.mp h
  exact wellFormed_of_param? hp

theorem wellFormed_returnType {result : Option (List Char)}
    (h : ∀ m ∈ result, '{' ∉ m ∧ ';' ∉ m) :
    returnType result ≠ [] ∧ Trimmed (returnType result) ∧ '{' ∉ returnType result ∧
      ';' ∉ returnType result := by
  rw [returnType]
  split
  · decide
  · decide
  · next type hnil he =>
    obtain ⟨m, hm, rfl⟩ := Option.map_eq_some_iff.mp he
    obtain ⟨hbrace, hsemi⟩ := h m hm
    refine ⟨hnil, trimmed_trim m, ?_, ?_⟩
    · exact fun hmem => hbrace (mem_of_mem_trim hmem)
    · exact fun hmem => hsemi (mem_of_mem_trim hmem)

theorem signature_of_isReading {f : Found FunctionPart} (h : f.IsReading functionPattern t) :
    IsName (f.group .name) ∧ ')' ∉ f.group .params ∧
      ∀ m ∈ f.group? .result, '{' ∉ m ∧ ';' ∉ m := by
  obtain ⟨l, r, hname⟩ := h.reads_group (g := .name) (i := 8) rfl (by decide) rfl
  obtain ⟨l', r', hparams⟩ := h.reads_group (g := .params) (i := 13) rfl (by decide) rfl
  refine ⟨(reads_many1_char.mp hname).1,
    not_mem_of_reads_except hparams (List.mem_singleton_self _), ?_⟩
  intro m hm
  obtain ⟨l, r, hreads⟩ := h.reads_maybe_group (i := 16) (j := 2) rfl rfl (by decide)
    (by decide) (by decide) rfl hm
  exact ⟨not_mem_of_reads_except1 hreads (by decide), not_mem_of_reads_except1 hreads (by decide)⟩

theorem wellFormed_of_mem_functions {text file : String} {d : FunctionDecl}
    (h : d ∈ functions text file) : d.WellFormed text := by
  obtain ⟨f, hf, rfl⟩ := List.mem_map.mp h
  have hreading := isReading_of_mem_findAll hf
  obtain ⟨hname, hparams, hresult⟩ := signature_of_isReading hreading
  exact {
    name := by rwa [← String.toList_ofList (l := f.group .name)] at hname
    doc := clean_ofList_clean _
    signature := by
      refine ⟨String.ofList (f.group .params), ?_, rfl⟩
      rwa [String.toList_ofList]
    line := isLineOf_lineOf hreading
    params := fun p hp => wellFormed_of_mem_paramList hp
    returnType := by
      have hreturn := wellFormed_returnType hresult
      rwa [← String.toList_ofList (l := returnType (f.group? .result))] at hreturn }

theorem filterMap_struct?_declarations (text file : String) :
    (declarations text file).filterMap Declaration.struct? = structs text file := by
  have hs : Declaration.struct? ∘ Declaration.struct = some := rfl
  have hf : Declaration.struct? ∘ Declaration.function = fun _ => none := rfl
  rw [declarations, List.filterMap_append, List.filterMap_map, List.filterMap_map, hs, hf,
    List.filterMap_some, List.filterMap_none, List.append_nil]

theorem filterMap_function?_declarations (text file : String) :
    (declarations text file).filterMap Declaration.function? = functions text file := by
  have hs : Declaration.function? ∘ Declaration.struct = fun _ => none := rfl
  have hf : Declaration.function? ∘ Declaration.function = some := rfl
  rw [declarations, List.filterMap_append, List.filterMap_map, List.filterMap_map, hs, hf,
    List.filterMap_some, List.filterMap_none, List.nil_append]

end Scan

def Catalog.addSources (c : Catalog) (xs : List (String × String)) : Catalog :=
  xs.foldl (fun c x => c.addSource x.1 x.2) c

theorem Catalog.addSources_append (c : Catalog) (xs ys : List (String × String)) :
    c.addSources (xs ++ ys) = (c.addSources xs).addSources ys :=
  List.foldl_append

theorem Catalog.structs_addSources (c : Catalog) (xs : List (String × String)) :
    (c.addSources xs).structs = c.structs ++ xs.flatMap fun x => Scan.structs x.1 x.2 := by
  induction xs generalizing c with
  | nil => exact (List.append_nil _).symm
  | cons x xs ih =>
    have hx : (c.addSource x.1 x.2).structs = c.structs ++ Scan.structs x.1 x.2 :=
      congrArg _ (Scan.filterMap_struct?_declarations x.1 x.2)
    rw [addSources, List.foldl_cons, List.flatMap_cons, ← List.append_assoc, ← hx]
    exact ih _

theorem Catalog.functions_addSources (c : Catalog) (xs : List (String × String)) :
    (c.addSources xs).functions = c.functions ++ xs.flatMap fun x => Scan.functions x.1 x.2 := by
  induction xs generalizing c with
  | nil => exact (List.append_nil _).symm
  | cons x xs ih =>
    have hx : (c.addSource x.1 x.2).functions = c.functions ++ Scan.functions x.1 x.2 :=
      congrArg _ (Scan.filterMap_function?_declarations x.1 x.2)
    rw [addSources, List.foldl_cons, List.flatMap_cons, ← List.append_assoc, ← hx]
    exact ih _

def readable (t : FileTree) (files : List SourceFile) : List (String × String) :=
  files.filterMap fun f =>
    match t.read f.path with
    | .ok text => some (text, f.relative)
    | .error _ => none

theorem Extraction.catalog_foldl_addFile (t : FileTree) (e : Extraction) (files : List SourceFile) :
    (files.foldl (addFile t) e).catalog = e.catalog.addSources (readable t files) := by
  induction files generalizing e with
  | nil => rfl
  | cons f files ih =>
    rw [List.foldl_cons, ih, addFile]
    simp only [readable, List.filterMap_cons]
    cases t.read f.path with
    | ok text => rfl
    | error cause => rfl

/-- One call that adds to a catalog. -/
inductive Call where
  | source (text file : String)
  | files (t : FileTree) (fs : List SourceFile)

namespace Call

def run (c : Catalog) : Call → Catalog
  | .source text file => c.addSource text file
  | .files t fs => (Extraction.ofFiles t c fs).catalog

/-- The texts that a call scans, with the names of their files. -/
def scanned : Call → List (String × String)
  | .source text file => [(text, file)]
  | .files t fs => readable t fs

theorem run_eq (c : Catalog) (call : Call) : run c call = c.addSources call.scanned := by
  cases call with
  | source text file => rfl
  | files t fs => exact Extraction.catalog_foldl_addFile t { catalog := c } fs

theorem foldl_run (c : Catalog) (calls : List Call) :
    calls.foldl run c = c.addSources (calls.flatMap scanned) := by
  induction calls generalizing c with
  | nil => rfl
  | cons call calls ih =>
    rw [List.foldl_cons, ih, run_eq, List.flatMap_cons, Catalog.addSources_append]

end Call

/-- Whatever calls are made, each record of the catalog comes from a text that was scanned, and it
is well-formed, with a line of that text. -/
theorem Call.wellFormed_run (calls : List Call) :
    (∀ s ∈ (calls.foldl run {}).structs, ∃ x ∈ calls.flatMap scanned,
      s ∈ Scan.structs x.1 x.2 ∧ s.WellFormed x.1) ∧
    ∀ f ∈ (calls.foldl run {}).functions, ∃ x ∈ calls.flatMap scanned,
      f ∈ Scan.functions x.1 x.2 ∧ f.WellFormed x.1 := by
  rw [foldl_run, Catalog.structs_addSources, Catalog.functions_addSources]
  refine ⟨fun s hs => ?_, fun f hf => ?_⟩
  · obtain ⟨x, hx, hs⟩ := List.mem_flatMap.mp hs
    exact ⟨x, hx, hs, Scan.wellFormed_of_mem_structs hs⟩
  · obtain ⟨x, hx, hf⟩ := List.mem_flatMap.mp hf
    exact ⟨x, hx, hf, Scan.wellFormed_of_mem_functions hf⟩

end RefDoc
