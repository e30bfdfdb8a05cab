import RefDoc.Proofs.PageAgreement
import RefDoc.Proofs.TreeWrites
import RefDoc.Run.Program

namespace RefDoc

def Artifact.page? (a : Artifact) : Option (String × String) :=
  a.content.map (a.file, ·)

def isReport (line : String) : Bool :=
  "Generated: ".toList.isPrefixOf line.toList

/-- The pages of the sources in a tree, in the order in which they are written. -/
def Settings.pages (s : Settings) (generatedAt : String) (t : FileTree) : List (String × String) :=
  ((s.extraction t).catalog.artifacts generatedAt s.json).filterMap Artifact.page?

namespace FileTree

variable {t : FileTree} {out place : List String} {pages : List (String × String)}

def putFiles (t : FileTree) (out : List String) (pages : List (String × String)) : FileTree :=
  pages.foldl (fun t p => t.put (out ++ [p.1]) (.file p.2.toUTF8)) t

theorem putFiles_cons (t : FileTree) (out : List String) (p : String × String)
    (pages : List (String × String)) :
    t.putFiles out (p :: pages) =
      (t.put (out ++ [p.1]) (.file p.2.toUTF8)).putFiles out pages := rfl

theorem node?_putFiles_of_ne (h : ∀ p ∈ pages, place ≠ out ++ [p.1]) :
    (t.putFiles out pages).node? place = t.node? place := by
  induction pages generalizing t with
  | nil => rfl
  | cons p pages ih =>
    obtain ⟨hp, hpages⟩ := List.forall_mem_cons.1 h
    rw [putFiles_cons, ih hpages, node?_put_of_ne t _ hp]

theorem node?_putFiles (h : (pages.map Prod.fst).Nodup) {p : String × String} (hp : p ∈ pages) :
    (t.putFiles out pages).node? (out ++ [p.1]) = some (.file p.2.toUTF8) := by
  induction pages generalizing t with
  | nil => cases hp
  | cons q pages ih =>
    obtain ⟨hq, hpages⟩ := List.nodup_cons.1 h
    rw [putFiles_cons]
    rcases List.mem_cons.1 hp with rfl | hp
    · have hothers : ∀ p' ∈ pages, out ++ [p.1] ≠ out ++ [p'.1] := by
        intro p' hp' heq
        have hname : p.1 = p'.1 := by simpa using heq
        exact hq (hname ▸ List.mem_map_of_mem hp')
      rw [node?_putFiles_of_ne hothers, node?_put_self t (by simp)]
    · exact ih hpages hp

end FileTree

namespace Progress

variable {dir : String} {out : List String} {p : Progress}

def wrote (p : Progress) (dir : String) (out : List String) (page : String × String) : Progress :=
  { p with
    tree := p.tree.put (out ++ [page.1]) (.file page.2.toUTF8)
    printed := p.printed ++ [report dir page.1] }

/-- A page is written, or ends the run because a directory is in its place. -/
theorem writeAll_page (hout : p.tree.Reaches (Path.segments dir) out) (page : String × String)
    (hfile : Path.IsOrdinary page.1) (as : List Artifact) :
    p.writeAll dir (⟨page.1, some page.2⟩ :: as) =
      if p.tree.isDir (out ++ [page.1]) then
        { p with failure := some (.write (Path.join dir page.1) .isDirectory) }
      else (p.wrote dir out page).writeAll dir as := by
  have hwrite := hout.write_join hfile page.2
  conv =>
    lhs
    unfold writeAll
  split at hwrite
  · next hdir => simp only [hwrite, if_pos hdir]
  · next hdir =>
    simp only [hwrite, if_neg hdir]
    rfl

theorem isDir_wrote {page : String × String} (hdir : ¬p.tree.isDir (out ++ [page.1]) = true)
    (place : List String) :
    (p.wrote dir out page).tree.isDir place = p.tree.isDir place := by
  rw [wrote, FileTree.isDir, FileTree.isDir]
  by_cases h : place = out ++ [page.1]
  · rw [h, FileTree.node?_put_self _ (by simp)]
    exact (Bool.not_eq_true _ |>.mp hdir).symm
  · rw [FileTree.node?_put_of_ne _ _ h]

theorem reaches_wrote (hout : p.tree.Reaches (Path.segments dir) out) {page : String × String}
    (hdir : ¬p.tree.isDir (out ++ [page.1]) = true) :
    (p.wrote dir out page).tree.Reaches (Path.segments dir) out :=
  hout.mono (FileTree.extends_put (by simp) hdir)

end Progress

/-- From one state of a run to its last: the pages that are done are in the tree and reported, and
the others are left because a directory is in the place of their first. -/
structure Wrote (dir : String) (out : List String) (p q : Progress)
    (done left : List (String × String)) : Prop where
  tree : q.tree = p.tree.putFiles out done
  reaches : q.tree.Reaches (Path.segments dir) out
  printed : q.printed = p.printed ++ done.map (fun page => report dir page.1) ++
    if left = [] then [completion] else []
  failure : q.failure = left.head?.map fun page => .write (Path.join dir page.1) .isDirectory
  free : ∀ page ∈ done, ¬p.tree.isDir (out ++ [page.1]) = true
  blocked : ∀ page ∈ left.head?, p.tree.isDir (out ++ [page.1]) = true

section Writing

variable {dir : String} {out : List String} {p q : Progress} {page : String × String}
  {done left : List (String × String)}

theorem Wrote.failure_eq_none_iff (h : Wrote dir out p q done left) :
    q.failure = none ↔ left = [] := by
  rw [h.failure, Option.map_eq_none_iff, List.head?_eq_none_iff]

theorem Wrote.cons (hdir : ¬p.tree.isDir (out ++ [page.1]) = true)
    (h : Wrote dir out (p.wrote dir out page) q done left) :
    Wrote dir out p q (page :: done) left where
  tree := h.tree
  reaches := h.reaches
  printed := by
    have hmap : p.printed ++ (page :: done).map (fun page => report dir page.1) =
        (p.wrote dir out page).printed ++ done.map fun page => report dir page.1 :=
      List.append_cons _ _ _
    rw [hmap]
    exact h.printed
  failure := h.failure
  free := by
    refine List.forall_mem_cons.2 ⟨hdir, fun other hother => ?_⟩
    rw [← Progress.isDir_wrote hdir]
    exact h.free other hother
  blocked other hother := by
    rw [← Progress.isDir_wrote hdir]
    exact h.blocked other hother

theorem exists_wrote {as : List Artifact} (hnames : ∀ a ∈ as, Path.IsOrdinary a.file)
    (hp : p.failure = none) (hout : p.tree.Reaches (Path.segments dir) out) :
    ∃ done left, as.filterMap Artifact.page? = done ++ left ∧
      Wrote dir out p (p.writeAll dir as) done left := by
  induction as generalizing p with
  | nil =>
    refine ⟨[], [], rfl, rfl, hout, ?_, hp, nofun, nofun⟩
    rw [List.map_nil, List.append_nil, if_pos rfl]
    rfl
  | cons a as ih =>
    obtain ⟨ha, has⟩ := List.forall_mem_cons.1 hnames
    obtain ⟨file, content⟩ := a
    cases content with
    | none =>
      -- An artifact without content only adds to the log.
      let next : Progress :=
        { p with
          log := p.log ++
            [⟨.debug, .program, "skipping " ++ file ++ ": nothing to document"⟩] }
      obtain ⟨done, left, hpages, hw⟩ := ih has (p := next) hp hout
      exact ⟨done, left, hpages, hw.tree, hw.reaches, hw.printed, hw.failure, hw.free, hw.blocked⟩
    | some content =>
      rw [Progress.writeAll_page hout (file, content) ha]
      split
      · next hdir =>
        refine ⟨[], (file, content) :: as.filterMap Artifact.page?, rfl, rfl, hout, by simp, rfl,
          nofun, ?_⟩
        rintro page ⟨⟩
        exact hdir
      · next hdir =>
        obtain ⟨done, left, hpages, hw⟩ :=
          ih has (p := p.wrote dir out (file, content)) hp (Progress.reaches_wrote hout hdir)
        exact ⟨(file, content) :: done, left, congrArg ((file, content) :: ·) hpages, hw.cons hdir⟩

end Writing

def artifactFiles (json : Bool) : List String :=
  (({} : Catalog).artifacts "" json).map (·.file)

theorem map_file_artifacts (c : Catalog) (generatedAt : String) (json : Bool) :
    (c.artifacts generatedAt json).map (·.file) = artifactFiles json := by
  cases json <;> simp [artifactFiles, Catalog.artifacts]

theorem nodup_artifactFiles : ∀ json, (artifactFiles json).Nodup := by
  decide

theorem isOrdinary_artifactFiles : ∀ json, ∀ file ∈ artifactFiles json, Path.IsOrdinary file := by
  decide +kernel

theorem isSourceName_artifactFiles :
    ∀ json, ∀ file ∈ artifactFiles json, Discovery.isSourceName file = false := by
  decide +kernel

theorem lineEnd_not_mem_artifactFiles :
    ∀ json, ∀ file ∈ artifactFiles json, '\n' ∉ file.toList ∧ '\r' ∉ file.toList := by
  decide +kernel

theorem isOrdinary_of_mem_artifacts {c : Catalog} {generatedAt : String} {json : Bool}
    {a : Artifact} (ha : a ∈ c.artifacts generatedAt json) : Path.IsOrdinary a.file := by
  apply isOrdinary_artifactFiles json
  rw [← map_file_artifacts c generatedAt]
  exact List.mem_map_of_mem ha

theorem map_fst_filterMap_page? (as : List Artifact) :
    ((as.filterMap Artifact.page?).map Prod.fst).Sublist (as.map (·.file)) := by
  induction as with
  | nil => exact .refl _
  | cons a as ih =>
    obtain ⟨file, content⟩ := a
    cases content with
    | none => exact ih.cons file
    | some content => exact ih.cons_cons file

theorem map_fst_pages (s : Settings) (generatedAt : String) (t : FileTree) :
    ((s.pages generatedAt t).map Prod.fst).Sublist (artifactFiles s.json) := by
  rw [← map_file_artifacts (s.extraction t).catalog generatedAt]
  exact map_fst_filterMap_page? _

theorem lines_of_not_mem {text : String} (h : '\n' ∉ text.toList) :
    Text.lines text.toList = [text.toList] :=
  Text.splitWhere_eq_singleton (Text.not_mem_iff_beq.1 h)

theorem linesOf_append (xs ys : List String) : linesOf (xs ++ ys) = linesOf xs ++ linesOf ys :=
  List.flatMap_append

theorem linesOf_eq_self {texts : List String}
    (h : ∀ x ∈ texts, '\n' ∉ x.toList ∧ x.toList.getLast? ≠ some '\r') : linesOf texts = texts := by
  induction texts with
  | nil => rfl
  | cons x texts ih =>
    obtain ⟨⟨hline, hend⟩, hrest⟩ := List.forall_mem_cons.1 h
    have hx : linesOf [x] = [x] := by
      simp [linesOf, lines_of_not_mem hline, Text.dropReturn, hend]
    rw [← List.singleton_append, linesOf_append, hx, ih hrest]

theorem head?_dropReturn {l : List Char} {c : Char} (h : l.head? = some c) (hc : c ≠ '\r') :
    (Text.dropReturn l).head? = some c := by
  obtain ⟨cs, rfl⟩ := List.head?_eq_some_iff.1 h
  rw [Text.dropReturn]
  cases cs with
  | nil => rw [if_neg (by simpa using hc), List.head?_cons]
  | cons d cs => split <;> rfl

theorem isReport_report (dir file : String) : isReport (report dir file) = true := by
  rw [isReport, report, String.toList_append, List.isPrefixOf_iff_prefix]
  exact List.prefix_append _ _

theorem isReport_of_head? {line : String} {c : Char} (h : line.toList.head? = some c)
    (hc : c ≠ 'G') : isReport line = false := by
  obtain ⟨cs, hline⟩ := List.head?_eq_some_iff.1 h
  have hbegin : "Generated: ".toList = 'G' :: "enerated: ".toList := rfl
  rw [isReport, hline, hbegin, List.isPrefixOf_cons_cons, beq_eq_false_iff_ne.2 (Ne.symm hc)]
  rfl

theorem completion_ne_of_isReport {line : String} (h : isReport line = true) :
    completion ≠ line := by
  rintro rfl
  exact absurd h (by decide)

theorem mem_summary {s : Settings} {e : Extraction} {text : String} (h : text ∈ s.summary e) :
    s.verbose = true ∧
      text ∈ ["Scanning source directory: " ++ s.sourceDir, "Output directory: " ++ s.outputDir,
        "Found " ++ Nat.repr e.catalog.structs.length ++ " structs and " ++
          Nat.repr e.catalog.functions.length ++ " functions in " ++ Nat.repr e.scanned ++ " files",
        "Skipped " ++ Nat.repr e.skipped ++ " unreadable files"] := by
  unfold Settings.summary at h
  split at h
  · next hverbose =>
    refine ⟨hverbose, ?_⟩
    split at h
    · exact h
    · rw [List.append_nil] at h
      exact List.mem_append_left _ h
  · cases h

/-- No directory that is printed has a line feed in its name. -/
def Settings.OneLine (s : Settings) : Prop :=
  '\n' ∉ s.outputDir.toList ∧ (s.verbose = true → '\n' ∉ s.sourceDir.toList)

section Lines

variable {s : Settings} {e : Extraction} (hs : s.OneLine)

include hs

theorem newline_not_mem_summary {text : String} (h : text ∈ s.summary e) : '\n' ∉ text.toList := by
  obtain ⟨hverbose, hmem⟩ := mem_summary h
  have hout := hs.1
  have hsource := hs.2 hverbose
  simp only [List.mem_cons, List.not_mem_nil, or_false] at hmem
  rcases hmem with rfl | rfl | rfl | rfl
  · simp [hsource]
  · simp [hout]
  · simp [Reference.newline_not_mem_toDigits]
  · simp [Reference.newline_not_mem_toDigits]

theorem head?_of_mem_linesOf_summary {line : String} (h : line ∈ linesOf (s.summary e)) :
    ∃ c, line.toList.head? = some c ∧ c ≠ 'G' ∧ c ≠ 'D' := by
  obtain ⟨text, htext, hline⟩ := List.mem_flatMap.1 h
  rw [lines_of_not_mem (newline_not_mem_summary hs htext), List.map_singleton,
    List.mem_singleton] at hline
  have hhead : ∃ c, text.toList.head? = some c ∧ c ≠ '\r' ∧ c ≠ 'G' ∧ c ≠ 'D' := by
    obtain ⟨-, hmem⟩ := mem_summary htext
    simp only [List.mem_cons, List.not_mem_nil, or_false] at hmem
    rcases hmem with rfl | rfl | rfl | rfl
    · exact ⟨'S', by simp, by decide, by decide, by decide⟩
    · exact ⟨'O', by simp, by decide, by decide, by decide⟩
    · exact ⟨'F', by simp, by decide, by decide, by decide⟩
    · exact ⟨'S', by simp, by decide, by decide, by decide⟩
  obtain ⟨c, hc, hreturn, hothers⟩ := hhead
  refine ⟨c, ?_, hothers⟩
  rw [hline, String.toList_ofList, head?_dropReturn hc hreturn]

theorem filter_isReport_summary : (linesOf (s.summary e)).filter isReport = [] := by
  rw [List.filter_eq_nil_iff]
  intro line hline
  obtain ⟨c, hhead, hc, _⟩ := head?_of_mem_linesOf_summary hs hline
  rw [isReport_of_head? hhead hc]
  exact Bool.false_ne_true

theorem completion_not_mem_summary : completion ∉ linesOf (s.summary e) := by
  intro h
  obtain ⟨c, hhead, _, hc⟩ := head?_of_mem_linesOf_summary hs h
  exact hc (Option.some.inj hhead).symm

theorem linesOf_reports {pages : List (String × String)}
    (hfiles : ∀ page ∈ pages, page.1 ∈ artifactFiles s.json) :
    linesOf (pages.map fun page => report s.outputDir page.1) =
      pages.map fun page => report s.outputDir page.1 := by
  apply linesOf_eq_self
  intro text htext
  obtain ⟨page, hpage, rfl⟩ := List.mem_map.1 htext
  have hfile := hfiles page hpage
  obtain ⟨hline, hreturn⟩ := lineEnd_not_mem_artifactFiles s.json page.1 hfile
  have hne : page.1.toList ≠ [] :=
    mt String.toList_eq_nil_iff.1 (isOrdinary_artifactFiles s.json page.1 hfile).1
  have hjoin : ∃ front, (report s.outputDir page.1).toList = front ++ page.1.toList ∧
      '\n' ∉ front := by
    unfold report Path.join
    split
    · exact ⟨"Generated: ".toList ++ s.outputDir.toList, by simp, by simp [hs.1]⟩
    · exact ⟨"Generated: ".toList ++ s.outputDir.toList ++ "/".toList, by simp, by simp [hs.1]⟩
  obtain ⟨front, hfront, hnewline⟩ := hjoin
  rw [hfront, List.mem_append, List.getLast?_append_of_ne_nil front hne]
  exact ⟨fun h => h.elim hnewline hline, fun h => hreturn (List.mem_of_getLast? h)⟩

end Lines

namespace Progress

variable (p : Progress) (filter : LogLevel)

theorem tree_outcome : (p.outcome filter).tree = p.tree := by
  unfold outcome
  split <;> rfl

theorem output_outcome : (p.outcome filter).output = p.printed := by
  unfold outcome
  split <;> rfl

theorem exitCode_outcome : (p.outcome filter).exitCode = if p.failure = none then 0 else 1 := by
  unfold outcome
  split
  · next h => rw [if_pos h]
  · next h => rw [if_neg (by simp [h])]

theorem report_suffix_errors {f : Failure} (h : p.failure = some f) :
    f.report <:+ (p.outcome filter).errors := by
  rw [outcome, h]
  exact List.suffix_append _ _

end Progress

theorem reported_of_printed {s : Settings} {e : Extraction} {r : Outcome}
    {done : List (String × String)} (hs : s.OneLine)
    (hfiles : ∀ page ∈ done, page.1 ∈ artifactFiles s.json)
    (hprinted : r.output = s.summary e ++ done.map (fun p => report s.outputDir p.1) ++
      if r.exitCode = 0 then [completion] else []) :
    r.outputLines.filter isReport = (done.map fun p => report s.outputDir p.1) ∧
      (completion ∈ r.outputLines ↔ r.exitCode = 0) := by
  have hend : linesOf (if r.exitCode = 0 then [completion] else []) =
      if r.exitCode = 0 then [completion] else [] := by
    split <;> rfl
  rw [Outcome.outputLines, hprinted, linesOf_append, linesOf_append,
    linesOf_reports hs hfiles, hend]
  constructor
  · have hreports : (done.map fun p => report s.outputDir p.1).filter isReport =
        done.map fun p => report s.outputDir p.1 := by
      rw [List.filter_eq_self]
      intro line hline
      obtain ⟨page, _, rfl⟩ := List.mem_map.1 hline
      exact isReport_report s.outputDir page.1
    have hcompletion : (if r.exitCode = 0 then [completion] else []).filter isReport = [] := by
      split <;> rfl
    rw [List.filter_append, List.filter_append, filter_isReport_summary hs, hreports, hcompletion,
      List.nil_append, List.append_nil]
  · have hreports : completion ∉ done.map fun p => report s.outputDir p.1 := by
      intro h
      obtain ⟨page, _, hpage⟩ := List.mem_map.1 h
      exact completion_ne_of_isReport (isReport_report s.outputDir page.1) hpage.symm
    rw [List.mem_append, List.mem_append,
      or_iff_right (not_or.2 ⟨completion_not_mem_summary hs, hreports⟩)]
    split <;> simp [*]

/-- What a run leaves behind if the given pages are done and the others are left. -/
structure Effect (s : Settings) (generatedAt : String) (t : FileTree) (r : Outcome)
    (done left : List (String × String)) : Prop where
  pages : s.pages generatedAt t = done ++ left
  printed : r.output = s.summary (s.extraction t) ++
    done.map (fun p => report s.outputDir p.1) ++ if r.exitCode = 0 then [completion] else []
  reported : s.OneLine →
    r.outputLines.filter isReport = done.map fun p => report s.outputDir p.1
  completed : s.OneLine → (completion ∈ r.outputLines ↔ r.exitCode = 0)
  written : ∀ p ∈ done, r.tree.read (Path.join s.outputDir p.1) = .ok p.2 ∧
    ∃ out, r.tree.Reaches (Path.segments s.outputDir) out ∧
      r.tree.file? (out ++ [p.1]) = some p.2.toUTF8
  kept : ∀ place, r.tree.file? place = t.file? place ∨
    ∃ p ∈ done, ∃ out, r.tree.Reaches (Path.segments s.outputDir) out ∧ place = out ++ [p.1]
  keptSources : ∀ place, place.getLast?.any Discovery.isSourceName = true →
    r.tree.file? place = t.file? place
  keptLeft : ∀ p ∈ left, ∀ out, r.tree.Reaches (Path.segments s.outputDir) out →
    r.tree.file? (out ++ [p.1]) = t.file? (out ++ [p.1])
  success : r.exitCode = 0 ↔ (∃ u, t.createDir s.outputDir = .ok u) ∧ left = []
  failure : r.exitCode = 0 ∨ r.exitCode = 1
  uncreated : ∀ cause, t.createDir s.outputDir = .error cause →
    done = [] ∧ (Failure.createDir s.outputDir cause).report <:+ r.errors
  stopped : ∀ u, t.createDir s.outputDir = .ok u →
    ∃ out, u.Reaches (Path.segments s.outputDir) out ∧
      r.tree.Reaches (Path.segments s.outputDir) out ∧
      (∀ p ∈ done, ¬u.isDir (out ++ [p.1]) = true) ∧
      ∀ p ∈ left.head?, u.isDir (out ++ [p.1]) = true ∧
        (Failure.write (Path.join s.outputDir p.1) .isDirectory).report <:+ r.errors

theorem Effect.of_uncreated {s : Settings} {generatedAt : String} {t : FileTree} {p : Progress}
    {cause : FileError} (hcreate : t.createDir s.outputDir = .error cause) (htree : p.tree = t)
    (hprinted : p.printed = s.summary (s.extraction t))
    (hfailure : p.failure = some (.createDir s.outputDir cause)) (filter : LogLevel) :
    Effect s generatedAt t (p.outcome filter) [] (s.pages generatedAt t) := by
  have hexit : (p.outcome filter).exitCode = 1 := by
    rw [Progress.exitCode_outcome, if_neg (by simp [hfailure])]
  have hfile : ∀ place, (p.outcome filter).tree.file? place = t.file? place := by
    intro place
    rw [Progress.tree_outcome, htree]
  have houtput : (p.outcome filter).output = s.summary (s.extraction t) ++
      ([] : List (String × String)).map (fun p => report s.outputDir p.1) ++
      if (p.outcome filter).exitCode = 0 then [completion] else [] := by
    rw [Progress.output_outcome, hprinted, hexit]
    simp
  constructor
  case pages => rfl
  case printed => exact houtput
  case reported => exact fun hs => (reported_of_printed hs (List.forall_mem_nil _) houtput).1
  case completed => exact fun hs => (reported_of_printed hs (List.forall_mem_nil _) houtput).2
  case written => exact nofun
  case kept => exact fun place => .inl (hfile place)
  case keptSources => exact fun place _ => hfile place
  case keptLeft => exact fun page _ out _ => hfile _
  case success =>
    rw [hexit, hcreate]
    simp
  case failure => exact .inr hexit
  case uncreated =>
    rintro cause' hcause
    obtain rfl : cause = cause' := Except.error.inj (hcreate.symm.trans hcause)
    exact ⟨rfl, Progress.report_suffix_errors p filter hfailure⟩
  case stopped =>
    intro u hu
    rw [hcreate] at hu
    cases hu

section Created

variable {s : Settings} {generatedAt : String} {t : FileTree} {p q : Progress} {out : List String}
  {done left : List (String × String)}

theorem Wrote.file?_of_ne (hw : Wrote s.outputDir out p q done left) (hmade : t.Made p.tree)
    {place : List String} (h : ∀ page ∈ done, place ≠ out ++ [page.1]) :
    q.tree.file? place = t.file? place := by
  rw [← hmade.file place, hw.tree, FileTree.file?, FileTree.file?, FileTree.node?_putFiles_of_ne h]

theorem Wrote.exitCode_outcome (hw : Wrote s.outputDir out p q done left) (filter : LogLevel) :
    (q.outcome filter).exitCode = 0 ↔ left = [] := by
  rw [Progress.exitCode_outcome, ← hw.failure_eq_none_iff]
  split <;> simp_all

theorem Wrote.output_outcome (hw : Wrote s.outputDir out p q done left) (filter : LogLevel) :
    (q.outcome filter).output = p.printed ++ done.map (fun page => report s.outputDir page.1) ++
      if (q.outcome filter).exitCode = 0 then [completion] else [] := by
  rw [Progress.output_outcome, hw.printed, if_congr (hw.exitCode_outcome filter) rfl rfl]

theorem Wrote.node?_of_mem (hw : Wrote s.outputDir out p q done left)
    (hdone : (done.map Prod.fst).Nodup) {page : String × String} (hpage : page ∈ done) :
    q.tree.node? (out ++ [page.1]) = some (.file page.2.toUTF8) := by
  rw [hw.tree]
  exact FileTree.node?_putFiles hdone hpage

theorem Wrote.file?_source (hw : Wrote s.outputDir out p q done left) (hmade : t.Made p.tree)
    (hfiles : ∀ page ∈ done, page.1 ∈ artifactFiles s.json) {place : List String}
    (hsource : place.getLast?.any Discovery.isSourceName = true) :
    q.tree.file? place = t.file? place := by
  refine hw.file?_of_ne hmade fun page hpage heq => ?_
  rw [heq, List.getLast?_concat, Option.any_some,
    isSourceName_artifactFiles s.json page.1 (hfiles page hpage)] at hsource
  cases hsource

theorem Effect.of_wrote (hw : Wrote s.outputDir out p q done left)
    (hpages : s.pages generatedAt t = done ++ left)
    (hcreate : t.createDir s.outputDir = .ok p.tree) (hmade : t.Made p.tree)
    (hout : p.tree.Reaches (Path.segments s.outputDir) out)
    (hp : p.printed = s.summary (s.extraction t)) (filter : LogLevel) :
    Effect s generatedAt t (q.outcome filter) done left := by
  have hfiles := map_fst_pages s generatedAt t
  rw [hpages] at hfiles
  have hnodup := hfiles.nodup (nodup_artifactFiles s.json)
  rw [List.map_append, List.nodup_append] at hnodup
  obtain ⟨hdone, -, hdisjoint⟩ := hnodup
  have hmem : ∀ page ∈ done, page.1 ∈ artifactFiles s.json := fun page hpage =>
    hfiles.subset (List.mem_map_of_mem (List.mem_append_left left hpage))
  have houtput := hw.output_outcome filter
  rw [hp] at houtput
  constructor
  case pages => exact hpages
  case printed => exact houtput
  case reported => exact fun hs => (reported_of_printed hs hmem houtput).1
  case completed => exact fun hs => (reported_of_printed hs hmem houtput).2
  case written =>
    intro page hpage
    rw [Progress.tree_outcome]
    have hordinary := isOrdinary_artifactFiles s.json page.1 (hmem page hpage)
    have hnode := hw.node?_of_mem hdone hpage
    refine ⟨hw.reaches.read_join hordinary hnode, out, hw.reaches, ?_⟩
    rw [FileTree.file?, hnode]
  case kept =>
    intro place
    rw [Progress.tree_outcome]
    by_cases h : ∀ page ∈ done, place ≠ out ++ [page.1]
    · exact .inl (hw.file?_of_ne hmade h)
    · simp only [not_forall, not_not] at h
      obtain ⟨page, hpage, heq⟩ := h
      exact .inr ⟨page, hpage, out, hw.reaches, heq⟩
  case keptSources =>
    intro place hsource
    rw [Progress.tree_outcome]
    exact hw.file?_source hmade hmem hsource
  case keptLeft =>
    intro page hpage out' hout'
    rw [Progress.tree_outcome] at hout' ⊢
    obtain rfl := hout'.unique hw.reaches
    refine hw.file?_of_ne hmade fun page' hpage' heq => ?_
    have hname : page.1 = page'.1 := by simpa using heq
    exact hdisjoint _ (List.mem_map_of_mem hpage') _ (List.mem_map_of_mem hpage) hname.symm
  case success =>
    rw [hw.exitCode_outcome filter]
    exact ⟨fun h => ⟨⟨_, hcreate⟩, h⟩, And.right⟩
  case failure =>
    rw [Progress.exitCode_outcome]
    split
    · exact .inl rfl
    · exact .inr rfl
  case uncreated =>
    intro cause hcause
    rw [hcreate] at hcause
    cases hcause
  case stopped =>
    intro u hu
    obtain rfl : p.tree = u := Except.ok.inj (hcreate.symm.trans hu)
    refine ⟨out, hout, by rw [Progress.tree_outcome]; exact hw.reaches, hw.free, ?_⟩
    intro page hpage
    refine ⟨hw.blocked page hpage, Progress.report_suffix_errors q filter ?_⟩
    rw [hw.failure, Option.mem_def.1 hpage, Option.map_some]

end Created

/-- Every run, from whatever tree and with whatever settings, is done with the first of its pages,
up to one in whose place is a directory, and leaves everything else as it was. -/
theorem generate_effect (s : Settings) (generatedAt : String) (t : FileTree) :
    ∃ done left, Effect s generatedAt t (s.run generatedAt t) done left := by
  let e := s.extraction t
  let as := e.catalog.artifacts generatedAt s.json
  let start : Progress :=
    { tree := t, printed := s.summary e, log := Discovery.log s.sourceDir (s.sources t) ++ e.log }
  have hrun : generate s generatedAt t = start.writeTo s.outputDir as := rfl
  rw [Settings.run, hrun, Progress.writeTo]
  cases hcreate : t.createDir s.outputDir with
  | error cause => exact ⟨[], _, .of_uncreated hcreate rfl rfl rfl _⟩
  | ok u =>
    obtain ⟨hmade, out, hout⟩ := FileTree.createDir_spec hcreate
    have hordinary : ∀ a ∈ as, Path.IsOrdinary a.file := fun _ => isOrdinary_of_mem_artifacts
    obtain ⟨done, left, hpages, hw⟩ :=
      exists_wrote hordinary (p := { start with tree := u }) rfl hout
    exact ⟨done, left, .of_wrote hw hpages hcreate hmade hout rfl _⟩

/-- A directory whose name goes on with a line of its own. -/
def twoLineSettings : Settings :=
  { sourceDir := "x\nDocumentation generation complete!", outputDir := "out", verbose := true }

def blockedTree : FileTree :=
  { entries := [(["out"], .file ⟨#[]⟩)] }

/-- A run that fails can print the line of a run that succeeds. -/
theorem completion_of_twoLines :
    (blockedTree.createDir twoLineSettings.outputDir).isOk = false ∧
      (twoLineSettings.run "now" blockedTree).exitCode = 1 ∧
      completion ∈ (twoLineSettings.run "now" blockedTree).outputLines := by
  decide +kernel

end RefDoc
