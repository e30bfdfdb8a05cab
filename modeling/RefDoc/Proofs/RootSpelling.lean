import RefDoc.File.Discovery
import RefDoc.Proofs.PathSegments

namespace RefDoc

namespace Discovery

open RefDoc.Path

variable {t : FileTree} {r : String} {names : List String}

theorem advance_of_not_isDir {x : Position} (h : ¬ t.isDir x.place = true) (s : String) :
    advance t x s = none := by
  rw [advance, Bool.not_eq_true _ |>.mp h]
  rfl

theorem start?_of_head?_ne (t : FileTree) (h : (segments r).head? ≠ some "") :
    start? t r = ((segments r).foldlM (advance t) { place := t.workDir }).bind
      fun x => if t.isDir x.place then some x else none := by
  unfold start?
  split
  · next rest hr => exact absurd (by rw [hr, List.head?_cons]) h
  · rfl

theorem start?_dot (t : FileTree) (h : (segments r).head? ≠ some "") :
    start? t ("./" ++ r) = start? t r := by
  have hdot : (segments ("./" ++ r)).head? ≠ some "" := by
    rw [segments_dot, List.head?_cons]
    decide
  rw [start?_of_head?_ne t h, start?_of_head?_ne t hdot, segments_dot, List.foldlM_cons]
  by_cases hdir : t.isDir t.workDir = true
  · have hstay : advance t { place := t.workDir } "." = some { place := t.workDir } := by
      rw [advance, hdir]
      rfl
    rw [hstay]
    rfl
  · obtain ⟨s, ss, hss⟩ := List.exists_cons_of_ne_nil (segments_ne_nil r)
    rw [hss, List.foldlM_cons, advance_of_not_isDir hdir, advance_of_not_isDir hdir]
    rfl

/-- The way along a root is printed as it is written. -/
theorem printed_of_foldlM {ss : List String} {x y : Position} (hss : ∀ s ∈ ss, Counts s)
    (h : ss.foldlM (advance t) x = some y) : y.printed = x.printed ++ ss := by
  induction ss generalizing x with
  | nil =>
    cases h
    rw [List.append_nil]
  | cons s ss ih =>
    obtain ⟨⟨hempty, hdot⟩, hss⟩ := List.forall_mem_cons.mp hss
    rw [List.foldlM_cons] at h
    obtain ⟨z, hz, hy⟩ := Option.bind_eq_some_iff.mp h
    have hprinted : z.printed = x.printed ++ [s] := by
      rw [advance, beq_eq_false_iff_ne.mpr hempty, beq_eq_false_iff_ne.mpr hdot] at hz
      simp only [Bool.false_eq_true, Bool.false_and, ↓reduceIte] at hz
      rw [Option.ite_none_left_eq_some, Option.ite_none_right_eq_some] at hz
      obtain ⟨_, _, hz⟩ := hz
      cases hz
      rfl
    rw [ih hss hy, hprinted, List.append_assoc, List.singleton_append]

theorem printed_of_start? {x : Position} (hr : ∀ s ∈ segments r, Counts s)
    (h : start? t r = some x) : x.printed = segments r := by
  rw [start?_of_head?_ne t (head?_ne_of_counts hr)] at h
  obtain ⟨y, hy, hx⟩ := Option.bind_eq_some_iff.mp h
  split at hx
  · cases hx
    exact printed_of_foldlM hr hy
  · cases hx

theorem relative_eq (hr : ∀ s ∈ segments r, Counts s) (names : List String) :
    relative r (segments r ++ names) = ofSegments (names.filter fun s => s != "" && s != ".") := by
  have hroot : rooted (segments r) = segments r := by
    have h := rooted_append hr (segments_ne_nil r) []
    rwa [List.append_nil, List.filter_nil, List.append_nil] at h
  rw [relative, hroot, rooted_append hr (segments_ne_nil r), below?_append]
  rfl

theorem relative_dot (hr : ∀ s ∈ segments r, Counts s) (names : List String) :
    relative ("./" ++ r) (segments r ++ names) =
      ofSegments (segments r ++ names.filter fun s => s != "" && s != ".") := by
  obtain ⟨a, as, ha⟩ := List.exists_cons_of_ne_nil (segments_ne_nil r)
  have hdot : a ≠ "." := (hr a (ha ▸ List.mem_cons_self)).2
  have hroot : rooted ("." :: segments r) = components ("." :: segments r) := rfl
  rw [relative, segments_dot, hroot, rooted_append hr (segments_ne_nil r), ha, components,
    List.cons_append, below?, if_neg hdot.symm]
  rfl

theorem exists_entry_of_mem_sourcesBelow {place : List String} (h : names ∈ sourcesBelow t place) :
    (∃ e ∈ t.entries, below? place e.1 = some names) ∧ names.getLast?.any isSourceName = true := by
  obtain ⟨⟨path, node⟩, he, hn⟩ := List.mem_filterMap.mp h
  cases node with
  | dir => cases hn
  | file bytes =>
    obtain ⟨ns, hns, hn⟩ := Option.bind_eq_some_iff.mp hn
    split at hn
    · next hlast =>
      cases hn
      exact ⟨⟨_, he, hns⟩, hlast⟩
    · cases hn

theorem filter_ne_nil (h : names.getLast?.any isSourceName = true) :
    names.filter (fun s => s != "" && s != ".") ≠ [] := by
  obtain ⟨s, hs, hsource⟩ := (Option.any_eq_true _ _).mp h
  have hcounts : Counts s := by
    refine ⟨?_, ?_⟩
    · rintro rfl
      cases hsource
    · rintro rfl
      cases hsource
  exact List.ne_nil_of_mem (List.mem_filter.mpr ⟨List.mem_of_getLast? hs, counts_iff.mp hcounts⟩)

theorem subset_of_below? {place path : List String} (h : below? place path = some names) :
    names ⊆ path := by
  fun_induction below? place path with
  | case1 path =>
    cases h
    exact List.Subset.refl _
  | case2 => cases h
  | case3 a as bs ih => exact List.subset_cons_of_subset _ (ih h)
  | case4 => cases h

theorem relative_dot_eq (hr : ∀ s ∈ segments r, Counts s)
    (h : names.getLast?.any isSourceName = true) :
    relative ("./" ++ r) (segments r ++ names) =
      r ++ "/" ++ relative r (segments r ++ names) := by
  rw [relative_dot hr, relative_eq hr, ofSegments,
    String.intercalate_append_of_ne_nil (segments_ne_nil r) (filter_ne_nil h)]
  exact congrArg (· ++ "/" ++ _) (ofSegments_segments r)

theorem path_eq (hr : ∀ s ∈ segments r, Counts s) (hnames : ∀ s ∈ names, Counts s)
    (h : names.getLast?.any isSourceName = true) :
    ofSegments (segments r ++ names) = r ++ "/" ++ relative r (segments r ++ names) := by
  have hfilter : names.filter (fun s => s != "" && s != ".") = names :=
    List.filter_eq_self.mpr fun s hs => counts_iff.mp (hnames s hs)
  rw [← relative_dot_eq hr h, relative_dot hr, hfilter]

/-- With a dot in front of the root the same files are found. But each is then documented with the
root in front of its name, while without the dot its name is its path below the root. -/
theorem sourceFiles_dot (t : FileTree) (r : String) (hr : ∀ s ∈ segments r, Counts s) :
    sourceFiles t ("./" ++ r) =
        (sourceFiles t r).map (fun f => { f with relative := r ++ "/" ++ f.relative }) ∧
      ((∀ e ∈ t.entries, ∀ s ∈ e.1, Counts s) →
        ∀ f ∈ sourceFiles t r, f.path = r ++ "/" ++ f.relative) := by
  rw [sourceFiles, sourceFiles, start?_dot t (head?_ne_of_counts hr)]
  cases hx : start? t r with
  | none => exact ⟨rfl, nofun⟩
  | some x =>
    simp only [printed_of_start? hr hx, List.map_map]
    refine ⟨?_, ?_⟩
    · apply List.map_congr_left
      intro names hnames
      have h := (exists_entry_of_mem_sourcesBelow (List.mem_mergeSort.mp hnames)).2
      rw [Function.comp_apply, relative_dot_eq hr h]
    · intro ht f hf
      obtain ⟨names, hnames, rfl⟩ := List.mem_map.mp hf
      obtain ⟨⟨e, he, hbelow⟩, h⟩ := exists_entry_of_mem_sourcesBelow (List.mem_mergeSort.mp hnames)
      exact path_eq hr (fun s hs => ht e he s (subset_of_below? hbelow hs)) h

def srcTree : FileTree :=
  { entries := [(["src"], .dir), (["src", "a.rs"], .file ⟨#[]⟩)] }

theorem sourceFiles_dot_srcTree : (∀ s ∈ segments "src", Counts s) ∧
    (∀ e ∈ srcTree.entries, ∀ s ∈ e.1, Counts s) ∧
    sourceFiles srcTree ("./" ++ "src") = (sourceFiles srcTree "src").map
      (fun f => { f with relative := "src" ++ "/" ++ f.relative }) ∧
    ∀ f ∈ sourceFiles srcTree "src", f.path = "src" ++ "/" ++ f.relative := by
  have hr : ∀ s ∈ segments "src", Counts s := by decide +kernel
  have ht : ∀ e ∈ srcTree.entries, ∀ s ∈ e.1, Counts s := by decide +kernel
  have h := sourceFiles_dot srcTree "src" hr
  exact ⟨hr, ht, h.1, h.2 ht⟩

theorem sourceFiles_srcTree : sourceFiles srcTree "src" = [⟨"src/a.rs", "a.rs"⟩] ∧
    sourceFiles srcTree "./src" = [⟨"src/a.rs", "src/a.rs"⟩] := by
  decide +kernel

end Discovery

end RefDoc
