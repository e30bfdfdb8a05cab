import RefDoc.Proofs.WellFormed

namespace RefDoc

def Catalog.size (c : Catalog) : Nat :=
  c.structs.length + c.functions.length

theorem Catalog.size_extract (c : Catalog) (text file : String) :
    (c.extract text file).1.size = c.size + (c.extract text file).2 := by
  have hstructs : (c.addSources [(text, file)]).structs = c.structs ++ Scan.structs text file := by
    rw [structs_addSources, List.flatMap_singleton]
  have hfunctions : (c.addSources [(text, file)]).functions =
      c.functions ++ Scan.functions text file := by
    rw [functions_addSources, List.flatMap_singleton]
  have hextract : (c.extract text file).1 = c.addSources [(text, file)] := rfl
  have hfound : (c.extract text file).2 =
      (Scan.structs text file).length + (Scan.functions text file).length := by
    rw [extract, Scan.declarations, List.length_append, List.length_map, List.length_map]
  rw [hextract, hfound, size, size, hstructs, hfunctions, List.length_append, List.length_append]
  omega

theorem readable_append (t : FileTree) (xs ys : List SourceFile) :
    readable t (xs ++ ys) = readable t xs ++ readable t ys :=
  List.filterMap_append

theorem readable_of_error {t : FileTree} {f : SourceFile} {cause : FileError}
    (h : t.read f.path = .error cause) : readable t [f] = [] := by
  simp only [readable, List.filterMap_cons, List.filterMap_nil, h]

namespace Extraction

variable {t : FileTree} {f : SourceFile}

/-- An extraction that goes on with another. -/
def followedBy (e next : Extraction) : Extraction where
  catalog := next.catalog
  scanned := e.scanned + next.scanned
  skipped := e.skipped + next.skipped
  log := e.log ++ next.log

theorem followedBy_assoc (a b c : Extraction) :
    (a.followedBy b).followedBy c = a.followedBy (b.followedBy c) := by
  simp only [followedBy, Nat.add_assoc, List.append_assoc]

theorem followedBy_empty (e : Extraction) : e.followedBy { catalog := e.catalog } = e := by
  simp only [followedBy, Nat.add_zero, List.append_nil]

theorem addFile_eq (t : FileTree) (e : Extraction) (f : SourceFile) :
    e.addFile t f = e.followedBy (ofFiles t e.catalog [f]) := by
  rw [ofFiles, List.foldl_cons, List.foldl_nil, addFile, addFile]
  split <;> simp only [followedBy, Nat.zero_add, List.nil_append, Nat.add_zero]

theorem foldl_addFile (t : FileTree) (e : Extraction) (fs : List SourceFile) :
    fs.foldl (addFile t) e = e.followedBy (ofFiles t e.catalog fs) := by
  induction fs generalizing e with
  | nil => exact (followedBy_empty e).symm
  | cons f fs ih =>
    have hcons : ofFiles t e.catalog (f :: fs) = (ofFiles t e.catalog [f]).followedBy
        (ofFiles t (ofFiles t e.catalog [f]).catalog fs) := ih _
    rw [List.foldl_cons, ih, addFile_eq, followedBy_assoc, hcons]
    rfl

theorem ofFiles_append (t : FileTree) (c : Catalog) (xs ys : List SourceFile) :
    ofFiles t c (xs ++ ys) =
      (ofFiles t c xs).followedBy (ofFiles t (ofFiles t c xs).catalog ys) := by
  rw [ofFiles, List.foldl_append]
  exact foldl_addFile t _ ys

theorem catalog_ofFiles (t : FileTree) (c : Catalog) (fs : List SourceFile) :
    (ofFiles t c fs).catalog = c.addSources (readable t fs) :=
  catalog_foldl_addFile t { catalog := c } fs

theorem catalog_ofFiles_of_error {cause : FileError} (h : t.read f.path = .error cause)
    (c : Catalog) (xs ys : List SourceFile) :
    (ofFiles t c (xs ++ f :: ys)).catalog = (ofFiles t c (xs ++ ys)).catalog := by
  rw [catalog_ofFiles, catalog_ofFiles, List.append_cons, readable_append, readable_append,
    readable_of_error h, List.append_nil, ← readable_append]

/-- The numbers of an extraction from some files say how many of them could be read, and how many
could not. -/
structure Counts (t : FileTree) (fs : List SourceFile) (e : Extraction) : Prop where
  scanned : e.scanned = (readable t fs).length
  given : e.scanned + e.skipped = fs.length

theorem Counts.append {xs ys : List SourceFile} {a b : Extraction} (ha : Counts t xs a)
    (hb : Counts t ys b) : Counts t (xs ++ ys) (a.followedBy b) where
  scanned := by
    rw [readable_append, List.length_append, ← ha.scanned, ← hb.scanned]
    rfl
  given := by
    have hgiven : a.scanned + b.scanned + (a.skipped + b.skipped) = xs.length + ys.length := by
      rw [← ha.given, ← hb.given]
      omega
    rw [List.length_append]
    exact hgiven

theorem counts_file (t : FileTree) (c : Catalog) (f : SourceFile) :
    Counts t [f] (ofFiles t c [f]) := by
  rw [ofFiles, List.foldl_cons, List.foldl_nil, addFile]
  split
  · next h => exact ⟨by simp [readable, h], rfl⟩
  · next h => exact ⟨by simp [readable, h], rfl⟩

theorem counts_ofFiles (t : FileTree) (c : Catalog) (fs : List SourceFile) :
    Counts t fs (ofFiles t c fs) := by
  induction fs generalizing c with
  | nil => exact ⟨rfl, rfl⟩
  | cons f fs ih =>
    rw [← List.singleton_append, ofFiles_append]
    exact (counts_file t c f).append (ih _)

end Extraction

open Extraction

/-- Whatever calls are made, the records are those of the readable texts, in their order. From any
catalog, scanning a text returns by how much the catalog grows. Reading files counts each of them
once, passes over those that cannot be read, and can be done in two calls as well as in one. -/
theorem Call.run_concatenates (calls : List Call) :
    (calls.foldl run {}).structs =
        (calls.flatMap scanned).flatMap (fun x => Scan.structs x.1 x.2) ∧
    (calls.foldl run {}).functions =
        (calls.flatMap scanned).flatMap (fun x => Scan.functions x.1 x.2) ∧
    (∀ c text file, (Catalog.extract c text file).1 = run c (.source text file) ∧
      (Catalog.extract c text file).1.size = c.size + (Catalog.extract c text file).2) ∧
    ∀ t c, (∀ fs, Counts t fs (ofFiles t c fs)) ∧
      (∀ xs f ys cause, t.read f.path = .error cause →
        run c (.files t (xs ++ f :: ys)) = run c (.files t (xs ++ ys))) ∧
      ∀ xs ys, ofFiles t c (xs ++ ys) =
        (ofFiles t c xs).followedBy (ofFiles t (run c (.files t xs)) ys) := by
  refine ⟨?_, ?_, ?_, ?_⟩
  · rw [foldl_run, Catalog.structs_addSources]
    rfl
  · rw [foldl_run, Catalog.functions_addSources]
    rfl
  · intro c text file
    exact ⟨rfl, c.size_extract text file⟩
  · intro t c
    refine ⟨counts_ofFiles t c, ?_, ofFiles_append t c⟩
    intro xs f ys cause h
    exact catalog_ofFiles_of_error h c xs ys

def stopTree : FileTree :=
  { entries := [(["a.rs"], .file "pub fn stop();".toUTF8)] }

theorem Call.run_stopTree : stopTree.read "b.rs" = .error .notFound ∧
    run {} (.files stopTree ([⟨"a.rs", "a.rs"⟩] ++ ⟨"b.rs", "b.rs"⟩ :: [⟨"a.rs", "c.rs"⟩])) =
      run {} (.files stopTree ([⟨"a.rs", "a.rs"⟩] ++ [⟨"a.rs", "c.rs"⟩])) ∧
    (run {} (.files stopTree ([⟨"a.rs", "a.rs"⟩] ++ [⟨"a.rs", "c.rs"⟩]))).functions.map
      (·.sourceFile) = ["a.rs", "c.rs"] := by
  have hmissing : stopTree.read "b.rs" = .error .notFound := by decide +kernel
  obtain ⟨_, _, _, hfiles⟩ := Call.run_concatenates []
  have hpassed := (hfiles stopTree {}).2.1 [⟨"a.rs", "a.rs"⟩] ⟨"b.rs", "b.rs"⟩ [⟨"a.rs", "c.rs"⟩]
    .notFound hmissing
  exact ⟨hmissing, hpassed, by decide +kernel⟩

end RefDoc
