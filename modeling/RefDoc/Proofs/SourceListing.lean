import RefDoc.Proofs.ByteOrder
import RefDoc.Proofs.RootSpelling
import RefDoc.Proofs.TreeNodes
import RefDoc.Run.Extraction

namespace RefDoc

namespace Path

variable {as bs cs : List String} {root : String}

/-- The order of paths by the bytes of their names, one name after the other. -/
def Before (as bs : List String) : Prop :=
  List.Lex (fun a b => Text.bytes a < Text.bytes b) as bs

theorem precedes_cons (a b : String) (as bs : List String) :
    precedes (a :: as) (b :: bs) = true ↔ a < b ∨ a = b ∧ precedes as bs = true := by
  rw [precedes]
  split
  · next h =>
    subst h
    exact ⟨fun h => .inr ⟨rfl, h⟩, fun h => h.elim (fun h => absurd h (lt_irrefl a)) And.right⟩
  · next hne =>
    rw [decide_eq_true_eq]
    exact ⟨.inl, fun h => h.elim id fun h => absurd h.1 hne⟩

theorem precedes_trans (as bs cs : List String) (hab : precedes as bs = true)
    (hbc : precedes bs cs = true) : precedes as cs = true := by
  induction as generalizing bs cs with
  | nil => rfl
  | cons a as ih =>
    cases bs with
    | nil => cases hab
    | cons b bs =>
      cases cs with
      | nil => cases hbc
      | cons c cs =>
        rw [precedes_cons] at hab hbc ⊢
        rcases hab with hab | ⟨rfl, hab⟩
        · rcases hbc with hbc | ⟨rfl, _⟩
          · exact .inl (lt_trans hab hbc)
          · exact .inl hab
        · rcases hbc with hbc | ⟨rfl, hbc⟩
          · exact .inl hbc
          · exact .inr ⟨rfl, ih bs cs hab hbc⟩

theorem precedes_total (as bs : List String) : (precedes as bs || precedes bs as) = true := by
  rw [Bool.or_eq_true]
  induction as generalizing bs with
  | nil => exact .inl rfl
  | cons a as ih =>
    cases bs with
    | nil => exact .inr rfl
    | cons b bs =>
      rw [precedes_cons, precedes_cons]
      rcases lt_trichotomy a b with hlt | rfl | hgt
      · exact .inl (.inl hlt)
      · exact (ih bs).imp (fun h => .inr ⟨rfl, h⟩) fun h => .inr ⟨rfl, h⟩
      · exact .inr (.inl hgt)

theorem precedes_antisymm (hab : precedes as bs = true) (hba : precedes bs as = true) :
    as = bs := by
  induction as generalizing bs with
  | nil =>
    cases bs with
    | nil => rfl
    | cons b bs => cases hba
  | cons a as ih =>
    cases bs with
    | nil => cases hab
    | cons b bs =>
      rw [precedes_cons] at hab hba
      rcases hab with hab | ⟨rfl, hab⟩
      · rcases hba with hba | ⟨rfl, _⟩
        · exact absurd hba (lt_asymm hab)
        · exact absurd hab (lt_irrefl b)
      · rcases hba with hba | ⟨_, hba⟩
        · exact absurd hba (lt_irrefl a)
        · rw [ih hab hba]

theorem before_of_precedes (h : precedes as bs = true) (hne : as ≠ bs) : Before as bs := by
  induction as generalizing bs with
  | nil =>
    cases bs with
    | nil => exact absurd rfl hne
    | cons b bs => exact .nil
  | cons a as ih =>
    cases bs with
    | nil => cases h
    | cons b bs =>
      rcases (precedes_cons a b as bs).mp h with hlt | ⟨rfl, hle⟩
      · exact .rel (Text.bytes_lt_bytes hlt)
      · exact .cons (ih hle fun he => hne (he ▸ rfl))

theorem Before.ne (h : Before as bs) : as ≠ bs := by
  induction h with
  | nil => exact (List.cons_ne_nil _ _).symm
  | rel h =>
    intro heq
    cases heq
    exact List.lt_irrefl _ h
  | cons _ ih => exact fun heq => ih (List.cons.inj heq).2

/-- A path that begins with a name and in which no name is one dot or two. Slashes may be repeated,
and the path may end in one. -/
def IsPlain (path : String) : Prop :=
  (segments path).head? ≠ some "" ∧ ∀ s ∈ segments path, s ≠ "." ∧ s ≠ ".."

instance (path : String) : Decidable (IsPlain path) :=
  inferInstanceAs (Decidable ((segments path).head? ≠ some "" ∧
    ∀ s ∈ segments path, s ≠ "." ∧ s ≠ ".."))

def names (path : String) : List String :=
  components (segments path)

theorem IsPlain.names_eq (h : IsPlain root) : names root = (segments root).filter (· != "") := by
  have hdot (rest : List String) : segments root ≠ "." :: rest := fun he =>
    (h.2 "." (he ▸ List.mem_cons_self)).1 rfl
  rw [names, components]
  · apply List.filter_congr
    intro s hs
    rw [bne_iff_ne.mpr (h.2 s hs).1, Bool.and_true]
  · exact hdot

theorem IsPlain.rooted_eq (h : IsPlain root) : rooted (segments root) = names root := by
  rw [rooted, isAbsolute_of_head?_ne h.1]
  rfl

theorem IsPlain.counts_of_mem (h : IsPlain root) {s : String} (hs : s ∈ names root) : Counts s := by
  rw [h.names_eq, List.mem_filter, bne_iff_ne] at hs
  exact ⟨hs.2, (h.2 s hs.1).1⟩

theorem IsPlain.slash_not_mem (h : IsPlain root) {s : String} (hs : s ∈ names root) :
    '/' ∉ s.toList := by
  rw [h.names_eq, List.mem_filter, segments, List.mem_map] at hs
  obtain ⟨⟨cs, hcs, rfl⟩, _⟩ := hs
  rw [String.toList_ofList]
  intro hslash
  have hsep := (Text.of_mem_splitWhere hcs _ hslash).2
  rw [beq_self_eq_true] at hsep
  cases hsep

theorem IsPlain.names_ne_nil (h : IsPlain root) : names root ≠ [] := by
  obtain ⟨s, ss, hs⟩ := List.exists_cons_of_ne_nil (segments_ne_nil root)
  have hne : s ≠ "" := by
    rintro rfl
    exact h.1 (by rw [hs, List.head?_cons])
  rw [h.names_eq, hs, List.filter_cons, if_pos (bne_iff_ne.mpr hne)]
  exact List.cons_ne_nil _ _

theorem IsPlain.ofSegments_names (h : IsPlain root) (hne : "" ∉ segments root) :
    ofSegments (names root) = root := by
  have hall : ∀ s ∈ segments root, (s != "") = true := fun s hs =>
    bne_iff_ne.mpr fun he => hne (he ▸ hs)
  rw [h.names_eq, List.filter_eq_self.mpr hall, ofSegments_segments]

end Path

namespace Discovery

open RefDoc.Path

variable {t u : FileTree} {root : String} {place ns : List String}

theorem advance_empty {x : Position} (hdir : t.isDir x.place = true) (hne : x.printed ≠ []) :
    advance t x "" = some x := by
  rw [advance, hdir]
  exact if_neg (mt List.isEmpty_iff.mp hne)

theorem advance_name {x : Position} (hdir : t.isDir x.place = true) {s : String} (hempty : s ≠ "")
    (hdot : s ≠ ".") (hdots : s ≠ "..") : advance t x s =
      if (t.node? (x.place ++ [s])).isSome then some ⟨x.printed ++ [s], x.place ++ [s]⟩
      else none := by
  rw [advance, hdir, step_name hempty hdot hdots, beq_eq_false_iff_ne.mpr hempty,
    beq_eq_false_iff_ne.mpr hdot]
  rfl

theorem foldlM_advance (ht : t.WellFormed) (base printed : List String) {ss : List String}
    (hss : ∀ s ∈ ss, s ≠ "." ∧ s ≠ "..") (hprinted : printed ≠ [] ∨ ss.head? ≠ some "") :
    ((ss.foldlM (advance t) ⟨printed, base ++ printed⟩).bind
        fun x => if t.isDir x.place then some x else none) =
      if t.isDir (base ++ (printed ++ ss.filter (· != ""))) then
        some ⟨printed ++ ss.filter (· != ""), base ++ (printed ++ ss.filter (· != ""))⟩
      else none := by
  induction ss generalizing printed with
  | nil =>
    rw [List.filter_nil, List.append_nil]
    rfl
  | cons s ss ih =>
    obtain ⟨⟨hdot, hdots⟩, hrest⟩ := List.forall_mem_cons.mp hss
    rw [List.foldlM_cons]
    by_cases hdir : t.isDir (base ++ printed) = true
    · by_cases hempty : s = ""
      · subst hempty
        have hne : printed ≠ [] := hprinted.resolve_right fun h => h rfl
        rw [advance_empty hdir hne]
        exact ih printed hrest (.inl hne)
      · have hfilter : printed ++ (s :: ss).filter (· != "") =
            (printed ++ [s]) ++ ss.filter (· != "") := by
          rw [List.filter_cons, if_pos (bne_iff_ne.mpr hempty), List.append_assoc,
            List.singleton_append]
        rw [advance_name hdir hempty hdot hdots, hfilter, List.append_assoc base printed [s]]
        split
        · exact ih _ hrest (.inl (List.append_ne_nil_of_right_ne_nil _ (List.cons_ne_nil s [])))
        · next hnone =>
          rw [if_neg]
          · rfl
          · intro h
            rw [← List.append_assoc] at h
            exact hnone (by rw [FileTree.isDir_iff.mp (ht.isDir_of_append h)]; rfl)
    · rw [advance_of_not_isDir hdir, if_neg]
      · rfl
      · intro h
        rw [← List.append_assoc] at h
        exact hdir (ht.isDir_of_append h)

theorem start?_eq (ht : t.WellFormed) (hroot : IsPlain root) :
    start? t root =
      if t.isDir (t.workDir ++ names root) then some ⟨names root, t.workDir ++ names root⟩
      else none := by
  have h := foldlM_advance ht t.workDir [] hroot.2 (.inr hroot.1)
  rw [List.nil_append, List.append_nil, ← hroot.names_eq] at h
  rw [start?_of_head?_ne t hroot.1]
  exact h

theorem isSourceName_iff {s : String} : isSourceName s = true ↔ ∃ stem, s = stem ++ ".rs" := by
  rw [isSourceName, List.isSuffixOf_iff_suffix]
  constructor
  · rintro ⟨stem, h⟩
    refine ⟨String.ofList stem, String.toList_injective ?_⟩
    rw [String.toList_append, String.toList_ofList, ← h]
    rfl
  · rintro ⟨stem, rfl⟩
    rw [String.toList_append]
    exact List.suffix_append _ _

theorem any_getLast?_iff : ns.getLast?.any isSourceName = true ↔
    ∃ dirs stem, ns = dirs ++ [stem ++ ".rs"] := by
  rw [Option.any_eq_true]
  constructor
  · rintro ⟨s, hs, hsource⟩
    obtain ⟨stem, rfl⟩ := isSourceName_iff.mp hsource
    obtain ⟨dirs, rfl⟩ := List.getLast?_eq_some_iff.mp hs
    exact ⟨dirs, stem, rfl⟩
  · rintro ⟨dirs, stem, rfl⟩
    exact ⟨_, List.getLast?_concat, isSourceName_iff.mpr ⟨stem, rfl⟩⟩

theorem sourceBelow?_eq_some_iff {e : List String × Node} : sourceBelow? place e = some ns ↔
    e.1 = place ++ ns ∧ (∃ bytes, e.2 = .file bytes) ∧ ns.getLast?.any isSourceName = true := by
  obtain ⟨path, n⟩ := e
  cases n with
  | dir => exact ⟨nofun, fun ⟨_, ⟨_, h⟩, _⟩ => nomatch h⟩
  | file bytes =>
    rw [sourceBelow?, ← below?_eq_some_iff]
    constructor
    · intro h
      obtain ⟨ns', hns, h⟩ := Option.bind_eq_some_iff.mp h
      obtain ⟨hlast, h⟩ := Option.ite_none_right_eq_some.mp h
      cases h
      exact ⟨hns, ⟨bytes, rfl⟩, hlast⟩
    · rintro ⟨hns, _, hlast⟩
      exact Option.bind_eq_some_iff.mpr ⟨ns, hns, if_pos hlast⟩

theorem mem_sourcesBelow (ht : t.WellFormed) : ns ∈ sourcesBelow t place ↔
    (∃ bytes, t.node? (place ++ ns) = some (.file bytes)) ∧
      ns.getLast?.any isSourceName = true := by
  rw [sourcesBelow, List.mem_filterMap]
  constructor
  · rintro ⟨⟨path, n⟩, he, hn⟩
    obtain ⟨rfl, ⟨bytes, rfl⟩, hlast⟩ := sourceBelow?_eq_some_iff.mp hn
    exact ⟨⟨bytes, (ht.node?_eq_some_iff (ht.nonempty _ he)).mpr he⟩, hlast⟩
  · rintro ⟨⟨bytes, hn⟩, hlast⟩
    have hne : ns ≠ [] := by
      rintro rfl
      cases hlast
    have he := (ht.node?_eq_some_iff (List.append_ne_nil_of_right_ne_nil place hne)).mp hn
    exact ⟨_, he, sourceBelow?_eq_some_iff.mpr ⟨rfl, ⟨bytes, rfl⟩, hlast⟩⟩

theorem nodup_sourcesBelow (ht : t.WellFormed) (place : List String) :
    (sourcesBelow t place).Nodup := by
  rw [sourcesBelow, List.Nodup, List.pairwise_filterMap]
  apply (List.pairwise_map.mp ht.nodup).imp
  intro e e' hne ns hns ns' hns' heq
  apply hne
  rw [(sourceBelow?_eq_some_iff.mp hns).1, (sourceBelow?_eq_some_iff.mp hns').1, heq]

theorem ordinary_of_mem_sourcesBelow (ht : t.WellFormed) (h : ns ∈ sourcesBelow t place) :
    ∀ s ∈ ns, IsOrdinary s := by
  obtain ⟨⟨e, he, hbelow⟩, _⟩ := exists_entry_of_mem_sourcesBelow h
  exact fun s hs => ht.ordinary e he s (subset_of_below? hbelow hs)

theorem ne_nil_of_mem_sourcesBelow (h : ns ∈ sourcesBelow t place) : ns ≠ [] := by
  rintro rfl
  cases (exists_entry_of_mem_sourcesBelow h).2

theorem relative_names (hroot : IsPlain root) (hns : ∀ s ∈ ns, IsOrdinary s) :
    relative root (names root ++ ns) = ofSegments ns := by
  have hfilter : ns.filter (fun s => s != "" && s != ".") = ns :=
    List.filter_eq_self.mpr fun s hs => counts_iff.mp ⟨(hns s hs).1, (hns s hs).2.1⟩
  have hcounts : ∀ s ∈ names root, Counts s := fun s hs => hroot.counts_of_mem hs
  rw [relative, hroot.rooted_eq, rooted_append hcounts hroot.names_ne_nil, hfilter, below?_append]
  rfl

def fileBelow (root : String) (ns : List String) : SourceFile where
  path := ofSegments (names root ++ ns)
  relative := ofSegments ns

theorem sourceFiles_eq (ht : t.WellFormed) (hroot : IsPlain root) : sourceFiles t root =
    ((sourcesBelow t (t.workDir ++ names root)).mergeSort precedes).map (fileBelow root) := by
  rw [sourceFiles, start?_eq ht hroot]
  by_cases hdir : t.isDir (t.workDir ++ names root) = true
  · rw [if_pos hdir]
    apply List.map_congr_left
    intro ns hns
    have hordinary := ordinary_of_mem_sourcesBelow ht (List.mem_mergeSort.mp hns)
    exact congrArg (SourceFile.mk _) (relative_names hroot hordinary)
  · have hnil : sourcesBelow t (t.workDir ++ names root) = [] := by
      apply List.eq_nil_iff_forall_not_mem.mpr
      intro ns hns
      obtain ⟨⟨bytes, hn⟩, _⟩ := (mem_sourcesBelow ht).mp hns
      exact hdir (ht.isDir_of_node? (ne_nil_of_mem_sourcesBelow hns) hn)
    rw [if_neg hdir, hnil, List.mergeSort_nil]
    rfl

theorem mem_sourceFiles (ht : t.WellFormed) (hroot : IsPlain root) {f : SourceFile} :
    f ∈ sourceFiles t root ↔ ∃ dirs stem bytes,
      t.node? (t.workDir ++ names root ++ (dirs ++ [stem ++ ".rs"])) = some (.file bytes) ∧
        f = fileBelow root (dirs ++ [stem ++ ".rs"]) := by
  rw [sourceFiles_eq ht hroot, List.mem_map]
  constructor
  · rintro ⟨ns, hns, rfl⟩
    obtain ⟨⟨bytes, hn⟩, hlast⟩ := (mem_sourcesBelow ht).mp (List.mem_mergeSort.mp hns)
    obtain ⟨dirs, stem, rfl⟩ := any_getLast?_iff.mp hlast
    exact ⟨dirs, stem, bytes, hn, rfl⟩
  · rintro ⟨dirs, stem, bytes, hn, rfl⟩
    refine ⟨_, List.mem_mergeSort.mpr ((mem_sourcesBelow ht).mpr ⟨⟨bytes, hn⟩, ?_⟩), rfl⟩
    exact any_getLast?_iff.mpr ⟨dirs, stem, rfl⟩

theorem segments_fileBelow (hroot : IsPlain root) (hns : ∀ s ∈ ns, IsOrdinary s) :
    segments (fileBelow root ns).path = names root ++ ns := by
  apply segments_ofSegments (List.append_ne_nil_of_left_ne_nil hroot.names_ne_nil ns)
  intro s hs
  rcases List.mem_append.mp hs with hs | hs
  · exact hroot.slash_not_mem hs
  · exact (hns s hs).2.2.2

theorem path_fileBelow (hroot : IsPlain root) (hne : ns ≠ []) :
    (fileBelow root ns).path = ofSegments (names root) ++ "/" ++ (fileBelow root ns).relative :=
  String.intercalate_append_of_ne_nil hroot.names_ne_nil hne

theorem pairwise_sourceFiles (ht : t.WellFormed) (hroot : IsPlain root) :
    (sourceFiles t root).Pairwise fun f g => Before (segments f.path) (segments g.path) := by
  let place := t.workDir ++ names root
  have hsorted := List.pairwise_mergeSort precedes_trans precedes_total (sourcesBelow t place)
  have hnodup : ((sourcesBelow t place).mergeSort precedes).Nodup :=
    (List.mergeSort_perm _ _).nodup_iff.mpr (nodup_sourcesBelow ht _)
  rw [sourceFiles_eq ht hroot, List.pairwise_map]
  apply (hsorted.and hnodup).imp_of_mem
  rintro ns ns' hns hns' ⟨hle, hne⟩
  have hordinary {ns : List String} (h : ns ∈ (sourcesBelow t place).mergeSort precedes) :=
    ordinary_of_mem_sourcesBelow ht (List.mem_mergeSort.mp h)
  rw [segments_fileBelow hroot (hordinary hns), segments_fileBelow hroot (hordinary hns')]
  exact List.Lex.append_left _ (before_of_precedes hle hne) _

/-- The order in which the nodes of a tree are listed does not show in what is found. -/
theorem sourceFiles_of_sameNodes (ht : t.WellFormed) (hu : u.WellFormed) (h : u.SameNodes t)
    (hroot : IsPlain root) : sourceFiles u root = sourceFiles t root := by
  have hperm : (sourcesBelow u (t.workDir ++ names root)).Perm
      (sourcesBelow t (t.workDir ++ names root)) := by
    rw [List.perm_ext_iff_of_nodup (nodup_sourcesBelow hu _) (nodup_sourcesBelow ht _)]
    intro ns
    rw [mem_sourcesBelow hu, mem_sourcesBelow ht, h.node]
  rw [sourceFiles_eq ht hroot, sourceFiles_eq hu hroot, h.workDir]
  congr 1
  refine List.Perm.eq_of_pairwise (fun _ _ _ _ => precedes_antisymm)
    (List.pairwise_mergeSort precedes_trans precedes_total _)
    (List.pairwise_mergeSort precedes_trans precedes_total _) ?_
  exact ((List.mergeSort_perm _ _).trans hperm).trans (List.mergeSort_perm _ _).symm

/-- The files are those below the root whose names end in the extension of source files, each once
and in increasing order, each documented by its path below the root. -/
structure Lists (t : FileTree) (root : String) (files : List SourceFile) : Prop where
  mem_iff : ∀ f, f ∈ files ↔ ∃ dirs stem bytes,
    t.node? (t.workDir ++ names root ++ (dirs ++ [stem ++ ".rs"])) = some (.file bytes) ∧
      f = fileBelow root (dirs ++ [stem ++ ".rs"])
  nodup : files.Nodup
  increasing : files.Pairwise fun f g => Before (segments f.path) (segments g.path)
  path_eq : ∀ f ∈ files, f.path = ofSegments (names root) ++ "/" ++ f.relative

theorem lists_sourceFiles (ht : t.WellFormed) (hroot : IsPlain root) :
    Lists t root (sourceFiles t root) where
  mem_iff _ := mem_sourceFiles ht hroot
  nodup := (pairwise_sourceFiles ht hroot).imp fun h heq =>
    h.ne (congrArg (fun f => segments f.path) heq)
  increasing := pairwise_sourceFiles ht hroot
  path_eq f hf := by
    obtain ⟨dirs, stem, bytes, _, rfl⟩ := (mem_sourceFiles ht hroot).mp hf
    exact path_fileBelow hroot (List.append_ne_nil_of_right_ne_nil dirs (List.cons_ne_nil _ _))

theorem ofFiles_of_sameNodes (h : u.SameNodes t) (c : Catalog) (files : List SourceFile) :
    Extraction.ofFiles u c files = Extraction.ofFiles t c files := by
  have hadd : Extraction.addFile u = Extraction.addFile t := by
    funext e f
    rw [Extraction.addFile, Extraction.addFile, h.read_eq]
  rw [Extraction.ofFiles, Extraction.ofFiles, hadd]

/-- Under a root all source files are found, and nothing else. The order in which the nodes of the
tree are listed or were put there shows neither in what is found nor in what is read from it. -/
theorem sourceFiles_exact (t : FileTree) (root : String) (ht : t.WellFormed)
    (hroot : IsPlain root) :
    Lists t root (sourceFiles t root) ∧
      ("" ∉ segments root → ∀ f ∈ sourceFiles t root, f.path = root ++ "/" ++ f.relative) ∧
      ∀ es, es.Perm t.entries →
        ∀ u, u = { t with entries := es } ∨ u = FileTree.ofEntries t.workDir es →
        sourceFiles u root = sourceFiles t root ∧
          ∀ c, Extraction.ofFiles u c (sourceFiles u root) =
            Extraction.ofFiles t c (sourceFiles t root) := by
  have hlists := lists_sourceFiles ht hroot
  refine ⟨hlists, fun hne f hf => ?_, fun es hes u hu => ?_⟩
  · rw [hlists.path_eq f hf, hroot.ofSegments_names hne]
  · have hsame : u.WellFormed ∧ u.SameNodes t := by
      rcases hu with rfl | rfl
      · exact ⟨ht.of_perm hes, ht.node?_of_perm hes, rfl⟩
      · exact ht.ofEntries hes
    have hfiles := sourceFiles_of_sameNodes ht hsame.1 hsame.2 hroot
    exact ⟨hfiles, fun c => by rw [hfiles, ofFiles_of_sameNodes hsame.2]⟩

def mixedTree : FileTree :=
  { entries :=
      [(["work"], .dir), (["work", "src"], .dir), (["work", "src", "a.rs"], .file ⟨#[]⟩),
        (["work", "src", "a"], .dir), (["work", "src", "a", "b.rs"], .file ⟨#[]⟩),
        (["work", "src", "a-b.rs"], .file ⟨#[]⟩), (["work", "src", "x.rs"], .dir),
        (["work", "src", "x.rs", ".rs"], .file ⟨#[]⟩),
        (["work", "src", "notes.md"], .file ⟨#[]⟩)]
    workDir := ["work"] }

theorem sourceFiles_exact_mixedTree : mixedTree.WellFormed ∧ IsPlain "src" ∧
    Lists mixedTree "src" (sourceFiles mixedTree "src") ∧
    (∀ f ∈ sourceFiles mixedTree "src", f.path = "src" ++ "/" ++ f.relative) ∧
    ∀ u, u = { mixedTree with entries := mixedTree.entries.reverse } ∨
        u = FileTree.ofEntries mixedTree.workDir mixedTree.entries.reverse →
      sourceFiles u "src" = sourceFiles mixedTree "src" ∧
        ∀ c, Extraction.ofFiles u c (sourceFiles u "src") =
          Extraction.ofFiles mixedTree c (sourceFiles mixedTree "src") := by
  have ht : mixedTree.WellFormed :=
    ⟨by decide +kernel, by decide +kernel, by decide +kernel, by decide +kernel⟩
  have hroot : IsPlain "src" := by decide +kernel
  have hne : "" ∉ segments "src" := by decide +kernel
  obtain ⟨hlists, hpath, horder⟩ := sourceFiles_exact mixedTree "src" ht hroot
  exact ⟨ht, hroot, hlists, hpath hne, horder _ (List.reverse_perm _)⟩

end Discovery

end RefDoc
