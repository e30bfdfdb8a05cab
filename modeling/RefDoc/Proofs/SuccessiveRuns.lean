import RefDoc.Proofs.RunEffect

namespace RefDoc

open Reference

def Settings.catalog (s : Settings) (t : FileTree) : Catalog :=
  (s.extraction t).catalog

section Run

variable {s : Settings} {generatedAt : String} {t u : FileTree} {out : List String}

theorem mem_pages {a : Artifact} {content : String}
    (ha : a ∈ (s.catalog t).artifacts generatedAt s.json) (hcontent : a.content = some content) :
    (a.file, content) ∈ s.pages generatedAt t := by
  apply List.mem_filterMap.2
  exact ⟨a, ha, by rw [Artifact.page?, hcontent, Option.map_some]⟩

theorem ne_file_of_mem_pages {a : Artifact} {page : String × String}
    (ha : a ∈ (s.catalog t).artifacts generatedAt s.json) (hcontent : a.content = none)
    (hpage : page ∈ s.pages generatedAt t) : a.file ≠ page.1 := by
  intro hfile
  obtain ⟨b, hb, hb'⟩ := List.mem_filterMap.1 hpage
  obtain ⟨content, hcontent', rfl⟩ := Option.map_eq_some_iff.1 hb'
  have hnodup : (((s.catalog t).artifacts generatedAt s.json).map (·.file)).Nodup := by
    rw [map_file_artifacts]
    exact nodup_artifactFiles s.json
  obtain rfl := List.inj_on_of_nodup_map hnodup ha hb hfile
  rw [hcontent] at hcontent'
  cases hcontent'

theorem nodup_pages (s : Settings) (generatedAt : String) (t : FileTree) :
    ((s.pages generatedAt t).map Prod.fst).Nodup :=
  (map_fst_pages s generatedAt t).nodup (nodup_artifactFiles s.json)

theorem exists_wrote_of_writeTo {dir : String} {p : Progress} {as : List Artifact}
    (hnames : ∀ a ∈ as, Path.IsOrdinary a.file) (hp : p.failure = none)
    (h : (p.writeTo dir as).failure = none) :
    ∃ out q, p.tree.Made q.tree ∧
      Wrote dir out q (p.writeTo dir as) (as.filterMap Artifact.page?) [] := by
  rw [Progress.writeTo] at h ⊢
  cases hcreate : p.tree.createDir dir with
  | error cause =>
    simp only [hcreate] at h
    cases h
  | ok u =>
    simp only [hcreate] at h ⊢
    obtain ⟨hmade, out, hout⟩ := FileTree.createDir_spec hcreate
    obtain ⟨done, left, hpages, hw⟩ := exists_wrote hnames (p := { p with tree := u }) hp hout
    obtain rfl := hw.failure_eq_none_iff.1 h
    rw [List.append_nil] at hpages
    exact ⟨out, { p with tree := u }, hmade, hpages ▸ hw⟩

theorem exists_wrote_pages (h : (s.run generatedAt t).exitCode = 0) :
    ∃ out p, t.Made p.tree ∧
      Wrote s.outputDir out p (generate s generatedAt t) (s.pages generatedAt t) [] := by
  have hfailure : (generate s generatedAt t).failure = none := by
    rw [Settings.run, Progress.exitCode_outcome] at h
    split at h
    · assumption
    · cases h
  rw [generate] at hfailure ⊢
  exact exists_wrote_of_writeTo (fun _ => isOrdinary_of_mem_artifacts) rfl hfailure

theorem exists_reaches (h : (s.run generatedAt t).exitCode = 0) :
    ∃ out, (s.run generatedAt t).tree.Reaches (Path.segments s.outputDir) out := by
  obtain ⟨out, p, _, hw⟩ := exists_wrote_pages h
  exact ⟨out, by rw [Settings.run, Progress.tree_outcome]; exact hw.reaches⟩

theorem file?_run (h : (s.run generatedAt t).exitCode = 0)
    (hout : (s.run generatedAt t).tree.Reaches (Path.segments s.outputDir) out) {a : Artifact}
    (ha : a ∈ (s.catalog t).artifacts generatedAt s.json) :
    (s.run generatedAt t).tree.file? (out ++ [a.file]) =
      (a.content.map String.toUTF8).or (t.file? (out ++ [a.file])) := by
  obtain ⟨out', p, hmade, hw⟩ := exists_wrote_pages h
  rw [Settings.run, Progress.tree_outcome] at hout ⊢
  obtain rfl := hw.reaches.unique hout
  cases hcontent : a.content with
  | none =>
    rw [Option.map_none, Option.none_or]
    apply hw.file?_of_ne hmade
    intro page hpage heq
    have hfile : a.file = page.1 := by simpa using heq
    exact ne_file_of_mem_pages ha hcontent hpage hfile
  | some content =>
    have hnode := hw.node?_of_mem (nodup_pages s generatedAt t) (mem_pages ha hcontent)
    rw [FileTree.file?, hnode]
    rfl

end Run

/-- From one tree to another by successful runs into the directory at `out`, and by changes between
them that leave its page of zero-copy structs alone. The list has the page of each run. -/
inductive Runs (out : List String) (t : FileTree) : List (Option String) → FileTree → Prop
  | start : Runs out t [] t
  | change {u v : FileTree} {pages : List (Option String)} : Runs out t pages u →
      v.file? (out ++ [zeroCopyFile]) = u.file? (out ++ [zeroCopyFile]) → Runs out t pages v
  | run {u : FileTree} {pages : List (Option String)} (s : Settings) (generatedAt : String) :
      Runs out t pages u → (s.run generatedAt u).exitCode = 0 →
      (s.run generatedAt u).tree.Reaches (Path.segments s.outputDir) out →
      Runs out t (pages ++ [zeroCopyPage (s.catalog u)]) (s.run generatedAt u).tree

section Runs

variable {s : Settings} {generatedAt : String} {t u : FileTree} {out : List String}
  {pages : List (Option String)}

theorem file?_zeroCopy (h : (s.run generatedAt t).exitCode = 0)
    (hout : (s.run generatedAt t).tree.Reaches (Path.segments s.outputDir) out) :
    (s.run generatedAt t).tree.file? (out ++ [zeroCopyFile]) =
      ((zeroCopyPage (s.catalog t)).map String.toUTF8).or (t.file? (out ++ [zeroCopyFile])) :=
  file?_run h hout (a := ⟨zeroCopyFile, zeroCopyPage (s.catalog t)⟩)
    (List.mem_append_left _ List.mem_cons_self)

/-- After any number of runs, the page is that of the last run that has one. -/
theorem Runs.file?_eq (h : Runs out t pages u) :
    u.file? (out ++ [zeroCopyFile]) =
      ((pages.reverse.findSome? id).map String.toUTF8).or (t.file? (out ++ [zeroCopyFile])) := by
  induction h with
  | start => rfl
  | change _ hv ih => rw [hv, ih]
  | run s generatedAt _ hexit hout ih =>
    rw [file?_zeroCopy hexit hout, ih, List.reverse_concat, List.findSome?_cons]
    cases zeroCopyPage (s.catalog _) with
    | none => rfl
    | some page => rfl

end Runs

/-- After a run that succeeds, the page of zero-copy structs is there exactly if the run found such
a struct or the page was there already. In the first case it is the page of this run. In the other
it is unchanged, and after earlier runs it is the page of the last one that found such a struct. -/
theorem zeroCopyFile_after_run (s : Settings) (generatedAt : String) (t : FileTree)
    (h : (s.run generatedAt t).exitCode = 0) :
    ∃ out, (s.run generatedAt t).tree.Reaches (Path.segments s.outputDir) out ∧
      (((s.run generatedAt t).tree.file? (out ++ [zeroCopyFile])).isSome ↔
        (s.catalog t).zeroCopyStructs ≠ [] ∨ (t.file? (out ++ [zeroCopyFile])).isSome) ∧
      (∀ page, zeroCopyPage (s.catalog t) = some page →
        (s.run generatedAt t).tree.file? (out ++ [zeroCopyFile]) = some page.toUTF8) ∧
      ((s.catalog t).zeroCopyStructs = [] →
        (s.run generatedAt t).tree.file? (out ++ [zeroCopyFile]) =
          t.file? (out ++ [zeroCopyFile]) ∧
        ∀ first pages, Runs out first pages t →
          t.file? (out ++ [zeroCopyFile]) = ((pages.reverse.findSome? id).map String.toUTF8).or
            (first.file? (out ++ [zeroCopyFile]))) := by
  obtain ⟨out, hout⟩ := exists_reaches h
  have hfile := file?_zeroCopy h hout
  have hnone : zeroCopyPage (s.catalog t) = none ↔ (s.catalog t).zeroCopyStructs = [] :=
    (zeroCopyPage_eq_none_iff _).trans List.length_eq_zero_iff
  refine ⟨out, hout, ?_, ?_, ?_⟩
  · rw [hfile, Option.isSome_or, Option.isSome_map, Bool.or_eq_true, ne_eq, ← hnone,
      Option.isSome_iff_ne_none]
  · intro page hpage
    rw [hfile, hpage]
    rfl
  · intro hempty
    refine ⟨?_, fun first pages hruns => hruns.file?_eq⟩
    rw [hfile, hnone.2 hempty]
    rfl

def vaultTree : FileTree :=
  { entries :=
      [(["src"], .dir),
        (["src", "v.rs"], .file "#[account(zero_copy)]\npub struct Vault \x7b \x7d\n".toUTF8)] }

def vaultSettings : Settings :=
  { sourceDir := "src", outputDir := "out" }

theorem zeroCopyFile_after_vault : (vaultSettings.run "now" vaultTree).exitCode = 0 ∧
    ∃ out, (vaultSettings.run "now" vaultTree).tree.Reaches ["out"] out ∧
      ((vaultSettings.run "now" vaultTree).tree.file? (out ++ [zeroCopyFile])).isSome := by
  obtain ⟨hexit, hstructs⟩ : (vaultSettings.run "now" vaultTree).exitCode = 0 ∧
      (vaultSettings.catalog vaultTree).zeroCopyStructs ≠ [] := by decide +kernel
  obtain ⟨out, hout, hexists, _⟩ := zeroCopyFile_after_run vaultSettings "now" vaultTree hexit
  exact ⟨hexit, out, hout, hexists.2 (.inl hstructs)⟩

def emptiedTree : FileTree :=
  (vaultSettings.run "now" vaultTree).tree.put ["src", "v.rs"] (.file "".toUTF8)

theorem zeroCopyFile_leftover : (vaultSettings.run "later" emptiedTree).exitCode = 0 ∧
    (vaultSettings.run "later" emptiedTree).tree.Reaches (Path.segments vaultSettings.outputDir)
      ["out"] ∧
    (vaultSettings.catalog emptiedTree).zeroCopyStructs = [] ∧
    ((vaultSettings.run "later" emptiedTree).tree.file? ["out", zeroCopyFile]).isSome := by
  decide +kernel

end RefDoc
