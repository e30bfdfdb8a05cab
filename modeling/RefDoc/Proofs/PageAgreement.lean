import Mathlib.Data.List.Basic
import Mathlib.Data.List.Nodup
import RefDoc.Proofs.Trim
import RefDoc.Reference.Artifact

namespace RefDoc

section Grouping

variable {α κ : Type}

theorem nodup_eraseDups [DecidableEq α] (as : List α) : as.eraseDups.Nodup := by
  induction h : as.length using Nat.strongRecOn generalizing as with
  | ind n ih =>
    cases as with
    | nil => simp
    | cons a as =>
      rw [List.eraseDups_cons, List.nodup_cons]
      refine ⟨by simp, ih _ ?_ _ rfl⟩
      have hle := List.length_filter_le (fun b => !b == a) as
      rw [List.length_cons] at h
      omega

theorem perm_flatMap_filter [DecidableEq κ] (key : α → κ) {ks : List κ} (hks : ks.Nodup)
    {as : List α} (h : ∀ a ∈ as, key a ∈ ks) :
    (ks.flatMap fun k => as.filter (key · = k)).Perm as := by
  induction ks generalizing as with
  | nil =>
    cases as with
    | nil => exact .refl _
    | cons a as => exact absurd (h a List.mem_cons_self) List.not_mem_nil
  | cons k ks ih =>
    obtain ⟨hk, hks⟩ := List.nodup_cons.1 hks
    have hothers : ∀ a ∈ as.filter (fun a => !decide (key a = k)), key a ∈ ks := by
      intro a ha
      obtain ⟨ha, hne⟩ := List.mem_filter.1 ha
      exact (List.mem_cons.1 (h a ha)).resolve_left (by simpa using hne)
    -- What the other keys select, they select among the elements without the first key.
    have hselect : ∀ k' ∈ ks, as.filter (key · = k') =
        (as.filter fun a => !decide (key a = k)).filter (key · = k') := by
      intro k' hk'
      rw [List.filter_filter]
      refine List.filter_congr fun a _ => ?_
      by_cases ha : key a = k'
      · have hne : key a ≠ k := fun he => hk (by rwa [← he, ha])
        simp [ha, ha ▸ hne]
      · simp [ha]
    rw [List.flatMap_cons, List.flatMap_congr hselect]
    exact ((ih hks hothers).append_left _).trans (List.filter_append_perm (key · = k) as)

theorem flatMap_filter_isEmpty (groups : List (κ × List α)) :
    (groups.filter (! ·.2.isEmpty)).flatMap (·.2) = groups.flatMap (·.2) := by
  induction groups with
  | nil => rfl
  | cons g groups ih =>
    obtain ⟨k, as⟩ := g
    cases as with
    | nil => simpa using ih
    | cons a as => simp [ih]

theorem Category.perm_groups (ss : List StructDecl) :
    ((Category.groups ss).flatMap (·.2)).Perm ss := by
  have hall : ∀ s ∈ ss, s.category ∈ all := by
    intro s _
    cases s.category <;> decide
  rw [groups, flatMap_filter_isEmpty, List.flatMap_map]
  exact perm_flatMap_filter StructDecl.category (by decide) hall

theorem Reference.perm_functionGroups (fs : List FunctionDecl) :
    ((functionGroups fs).flatMap (·.2)).Perm fs := by
  have hperm := List.mergeSort_perm (fs.map (·.sourceFile)).eraseDups fun a b => a ≤ b
  have hall : ∀ f ∈ fs, f.sourceFile ∈
      (fs.map (·.sourceFile)).eraseDups.mergeSort fun a b => a ≤ b := by
    intro f hf
    rw [hperm.mem_iff, List.mem_eraseDups]
    exact List.mem_map_of_mem hf
  rw [functionGroups, List.flatMap_map]
  exact perm_flatMap_filter FunctionDecl.sourceFile (hperm.nodup_iff.2 (nodup_eraseDups _)) hall

end Grouping

namespace Text

theorem occursIn_of_isPrefix {part whole t : List Char} (h : part <+: whole)
    (ht : occursIn whole t = true) : occursIn part t = true := by
  induction t with
  | nil =>
    rw [occursIn, List.isEmpty_iff] at ht
    rw [ht] at h
    rw [List.prefix_nil.1 h]
    rfl
  | cons c t ih =>
    rw [occursIn, Bool.or_eq_true, List.isPrefixOf_iff_prefix] at ht ⊢
    rcases ht with ht | ht
    · exact .inl (h.trans ht)
    · exact .inr (ih ht)

end Text

theorem StructDecl.category_of_isZeroCopy {s : StructDecl} (h : s.isZeroCopy = true) :
    s.category = .account := by
  have hprefix : "account".toList <+: "account(zero_copy)".toList := by decide
  obtain ⟨a, ha, hmarker⟩ := List.any_eq_true.1 h
  have haccount : s.isAccount = true :=
    List.any_eq_true.2 ⟨a, ha, Text.occursIn_of_isPrefix hprefix hmarker⟩
  rw [category, if_pos haccount]

namespace Reference

/-- The number that a line states behind a label. -/
def numberBehind? (label line : List Char) : Option Nat :=
  if label.isPrefixOf line then
    some (Nat.ofDigitChars 10 ((line.drop label.length).takeWhile Char.isDigit) 0)
  else none

/-- The numbers that the lines of a page state behind a label, from the first line to the last. -/
def statedNumbers (label page : String) : List Nat :=
  (Text.lines page.toList).filterMap (numberBehind? label.toList)

section Numbers

variable {label : String}

theorem numberBehind?_toDigits (label : List Char) (n : Nat) {rest : List Char}
    (h : Text.Stops Char.isDigit rest) :
    numberBehind? label (label ++ (Nat.toDigits 10 n ++ rest)) = some n := by
  have hprefix : label.isPrefixOf (label ++ (Nat.toDigits 10 n ++ rest)) = true :=
    List.isPrefixOf_iff_prefix.2 (List.prefix_append _ _)
  have hdigits : ∀ d ∈ Nat.toDigits 10 n, d.isDigit = true := fun d hd =>
    Nat.isDigit_of_mem_toDigits (by decide) (by decide) hd
  have hrest : rest.takeWhile Char.isDigit = [] := by
    cases rest with
    | nil => rfl
    | cons c rest => simp [h c rfl]
  rw [numberBehind?, if_pos hprefix, List.drop_left, List.takeWhile_append_of_pos hdigits, hrest,
    List.append_nil, Nat.ofDigitChars_ten_toDigits]

theorem statedNumbers_append (label a b : String) :
    statedNumbers label (a ++ "\n" ++ b) = statedNumbers label a ++ statedNumbers label b := by
  have hlines : Text.lines (a ++ "\n" ++ b).toList =
      Text.lines a.toList ++ Text.lines b.toList := by
    rw [String.toList_append, String.toList_append, List.append_assoc]
    exact Text.splitWhere_append_sep a.toList b.toList rfl
  rw [statedNumbers, hlines, List.filterMap_append]
  rfl

theorem newline_not_mem_toDigits (n : Nat) : '\n' ∉ Nat.toDigits 10 n := by
  intro h
  exact absurd (Nat.isDigit_of_mem_toDigits (by decide) (by decide) h) (by decide)

theorem lines_labelled {rest : String} (hlabel : '\n' ∉ label.toList) (n : Nat)
    (hrest : '\n' ∉ rest.toList) :
    Text.lines (label ++ Nat.repr n ++ rest).toList =
      [label.toList ++ (Nat.toDigits 10 n ++ rest.toList)] := by
  have hline : '\n' ∉ label.toList ++ (Nat.toDigits 10 n ++ rest.toList) := by
    simp [hlabel, newline_not_mem_toDigits, hrest]
  rw [String.toList_append, String.toList_append, Nat.repr_eq_ofList_toDigits, String.toList_ofList,
    List.append_assoc, Text.lines_eq_singleton hline]

theorem statedNumbers_labelled {rest : String} (hlabel : '\n' ∉ label.toList) (n : Nat)
    (hrest : '\n' ∉ rest.toList) (hstop : Text.Stops Char.isDigit rest.toList) :
    statedNumbers label (label ++ Nat.repr n ++ rest) = [n] := by
  rw [statedNumbers, lines_labelled hlabel n hrest, List.filterMap_cons,
    numberBehind?_toDigits label.toList n hstop]
  rfl

theorem statedNumbers_labelled_end (hlabel : '\n' ∉ label.toList) (n : Nat) :
    statedNumbers label (label ++ Nat.repr n) = [n] := by
  have h : statedNumbers label (label ++ Nat.repr n ++ "") = [n] :=
    statedNumbers_labelled hlabel n (by decide) (fun _ hc => by cases hc)
  rwa [String.append_empty] at h

theorem statedNumbers_line {line : String} (hline : '\n' ∉ line.toList)
    (h : label.toList.isPrefixOf line.toList = false) : statedNumbers label line = [] := by
  rw [statedNumbers, Text.lines_eq_singleton hline, List.filterMap_cons, numberBehind?, h]
  rfl

theorem head?_statedNumbers {start front : String} (hstart : start = front ++ "\n")
    (hfront : statedNumbers label front = []) (hlabel : '\n' ∉ label.toList) (n : Nat)
    (rest : String) :
    (statedNumbers label (start ++ label ++ Nat.repr n ++ "**\n" ++ rest)).head? = some n := by
  have hend : "**\n" = "**" ++ "\n" := by decide
  have htext : start ++ label ++ Nat.repr n ++ "**\n" ++ rest =
      front ++ "\n" ++ (label ++ Nat.repr n ++ "**") ++ "\n" ++ rest := by
    rw [hstart, hend]
    simp only [String.append_assoc, -String.reduceAppend]
  have hline : statedNumbers label (label ++ Nat.repr n ++ "**") = [n] :=
    statedNumbers_labelled hlabel n (by decide) (.cons (by decide) _)
  rw [htext, statedNumbers_append, statedNumbers_append, hfront, hline]
  rfl

theorem statedNumbers_otherLabel {other : String} (hother : '\n' ∉ other.toList)
    (h : ∀ t, label.toList.isPrefixOf (other.toList ++ t) = false) (n : Nat) :
    statedNumbers label (other ++ Nat.repr n) = [] := by
  refine statedNumbers_line ?_ (by rw [String.toList_append, h])
  rw [String.toList_append, Nat.repr_eq_ofList_toDigits, String.toList_ofList]
  simp [hother, newline_not_mem_toDigits]

end Numbers

section Index

def indexHead (generatedAt : String) : String :=
  "# Auto-Generated Documentation Index\n\n" ++
  "This index is automatically generated from the Rust source code.\n\n" ++
  "Last updated: " ++ generatedAt ++ "\n\n" ++ "## Statistics\n"

def linkSection (heading : String) (links : List Link) : String :=
  "\n" ++ heading ++ "\n" ++ "\n" ++ String.join (links.map Link.item)

theorem indexPage_eq (generatedAt : String) (c : Catalog) :
    indexPage generatedAt c = indexHead generatedAt ++ "\n" ++
      ("- **Structures documented**: " ++ Nat.repr c.structs.length) ++ "\n" ++
      ("- **Functions documented**: " ++ Nat.repr c.publicFunctions.length) ++ "\n" ++
      ("- **Zero-copy structures**: " ++ Nat.repr c.zeroCopyStructs.length) ++ "\n" ++ "" ++
      linkSection "## Generated Files" generatedPages ++
      linkSection "## Manual Documentation" manualPages := by
  have hstatistics : "## Statistics\n\n" = "## Statistics\n" ++ "\n" := by decide
  have hgenerated : "\n## Generated Files\n\n" = "\n" ++ "## Generated Files" ++ "\n" ++ "\n" := by
    decide
  have hmanual : "\n## Manual Documentation\n\n" =
      "\n" ++ "## Manual Documentation" ++ "\n" ++ "\n" := by decide
  unfold indexPage indexHead linkSection
  conv =>
    lhs
    simp only [hstatistics, hgenerated, hmanual, String.append_assoc, -String.reduceAppend]
  conv =>
    rhs
    simp only [String.append_assoc, String.empty_append, -String.reduceAppend]

variable {label : String} (hlabel : ['-', ' ', '*'] <+: label.toList)
include hlabel

theorem isPrefixOf_indexLabel {line : List Char} (h : ¬['-', ' ', '*'] <+: line) :
    label.toList.isPrefixOf line = false := by
  rw [← Bool.not_eq_true, List.isPrefixOf_iff_prefix]
  exact fun hline => h (hlabel.trans hline)

theorem statedNumbers_empty : statedNumbers label "" = [] :=
  statedNumbers_line (by decide) (isPrefixOf_indexLabel hlabel (by decide))

theorem statedNumbers_link {l : Link} (htitle : '\n' ∉ l.title.toList)
    (htarget : '\n' ∉ l.target.toList) (t : String) :
    statedNumbers label (l.item ++ t) = statedNumbers label t := by
  have hend : ")\n" = ")" ++ "\n" := by decide
  have hitem : l.item = "- [" ++ l.title ++ "](" ++ l.target ++ ")" ++ "\n" := by
    rw [Link.item, hend, ← String.append_assoc]
  have hline : '\n' ∉ ("- [" ++ l.title ++ "](" ++ l.target ++ ")").toList := by
    simp [htitle, htarget]
  have hbegin : ¬['-', ' ', '*'] <+: ("- [" ++ l.title ++ "](" ++ l.target ++ ")").toList := by
    simp
  rw [hitem, statedNumbers_append, statedNumbers_line hline (isPrefixOf_indexLabel hlabel hbegin)]
  rfl

theorem statedNumbers_links {links : List Link}
    (h : ∀ l ∈ links, '\n' ∉ l.title.toList ∧ '\n' ∉ l.target.toList) :
    statedNumbers label (String.join (links.map Link.item)) = [] := by
  induction links with
  | nil => exact statedNumbers_empty hlabel
  | cons l links ih =>
    obtain ⟨⟨htitle, htarget⟩, hlinks⟩ := List.forall_mem_cons.1 h
    rw [List.map_cons, String.join_cons, statedNumbers_link hlabel htitle htarget, ih hlinks]

theorem statedNumbers_linkSection {heading : String} (hheading : '\n' ∉ heading.toList)
    (hmark : ¬['-', ' ', '*'] <+: heading.toList) {links : List Link}
    (h : ∀ l ∈ links, '\n' ∉ l.title.toList ∧ '\n' ∉ l.target.toList) (t : String) :
    statedNumbers label (t ++ linkSection heading links) = statedNumbers label t := by
  have htext : t ++ linkSection heading links = t ++ "\n" ++ heading ++ "\n" ++ "" ++ "\n" ++
      String.join (links.map Link.item) := by
    simp only [linkSection, String.append_assoc, String.empty_append, -String.reduceAppend]
  rw [htext, statedNumbers_append, statedNumbers_append, statedNumbers_append,
    statedNumbers_empty hlabel, statedNumbers_links hlabel h,
    statedNumbers_line hheading (isPrefixOf_indexLabel hlabel hmark)]
  simp

theorem statedNumbers_indexPage (generatedAt : String) (c : Catalog) :
    statedNumbers label (indexPage generatedAt c) =
      statedNumbers label (indexHead generatedAt) ++
      statedNumbers label ("- **Structures documented**: " ++ Nat.repr c.structs.length) ++
      statedNumbers label ("- **Functions documented**: " ++ Nat.repr c.publicFunctions.length) ++
      statedNumbers label
        ("- **Zero-copy structures**: " ++ Nat.repr c.zeroCopyStructs.length) := by
  have hpages : ∀ l ∈ generatedPages ++ manualPages,
      '\n' ∉ l.title.toList ∧ '\n' ∉ l.target.toList := by decide +kernel
  obtain ⟨hgenerated, hmanual⟩ := List.forall_mem_append.1 hpages
  rw [indexPage_eq, statedNumbers_linkSection hlabel (by decide) (by decide) hmanual,
    statedNumbers_linkSection hlabel (by decide) (by decide) hgenerated, statedNumbers_append,
    statedNumbers_append, statedNumbers_append, statedNumbers_append, statedNumbers_empty hlabel,
    List.append_nil]

end Index

theorem getLast?_statedNumbers_indexPage (generatedAt : String) (c : Catalog) :
    (statedNumbers "- **Structures documented**: " (indexPage generatedAt c)).getLast? =
      some c.structs.length ∧
    (statedNumbers "- **Functions documented**: " (indexPage generatedAt c)).getLast? =
      some c.publicFunctions.length ∧
    (statedNumbers "- **Zero-copy structures**: " (indexPage generatedAt c)).getLast? =
      some c.zeroCopyStructs.length := by
  refine ⟨?_, ?_, ?_⟩
  all_goals
    rw [statedNumbers_indexPage (by decide), statedNumbers_labelled_end (by decide),
      statedNumbers_otherLabel (by decide) (fun _ => rfl),
      statedNumbers_otherLabel (by decide) (fun _ => rfl)]
    simp

def sectionsText {α : Type} (entry : α → String) (sections : List (String × List α)) : String :=
  String.join (sections.map fun s => titled s.1 (s.2.map entry))

/-- The page of the structs shows all of them, in the given sections, as many as the index says. -/
structure ShowsStructs (c : Catalog) (index page : String)
    (sections : List (String × List StructDecl)) : Prop where
  text : page = "# API Structures Reference\n\n" ++
    "Comprehensive reference for all data structures used in the protocol.\n" ++
    sectionsText StructDecl.entry sections
  titles : (sections.map (·.1)).Sublist (Category.all.map Category.title)
  all : (sections.flatMap (·.2)).Perm c.structs
  count : (statedNumbers "- **Structures documented**: " index).getLast? =
    some (sections.flatMap (·.2)).length

/-- The page of the functions shows the public ones, in the given sections, as many as the page
itself and the index say. -/
structure ShowsFunctions (c : Catalog) (index page : String)
    (sections : List (String × List FunctionDecl)) : Prop where
  text : page = "# Function Reference\n\n" ++
    "Reference documentation for all public functions in the protocol.\n\n" ++
    "Total public functions: **" ++ Nat.repr (sections.flatMap (·.2)).length ++ "**\n" ++
    sectionsText FunctionDecl.entry sections
  all : (sections.flatMap (·.2)).Perm (c.functions.filter (·.isPublic))
  total : (statedNumbers "Total public functions: **" page).head? =
    some (sections.flatMap (·.2)).length
  count : (statedNumbers "- **Functions documented**: " index).getLast? =
    some (sections.flatMap (·.2)).length

/-- A zero-copy page shows the zero-copy structs, which are among those of the account section, as
many as the page itself and the index say. -/
structure ShowsZeroCopy (c : Catalog) (index page : String)
    (sections : List (String × List StructDecl)) (shown : List StructDecl) : Prop where
  all : shown = c.structs.filter (·.isZeroCopy)
  text : page = "# Zero-Copy Structures Reference\n\n" ++
    "This document provides detailed reference information for all zero-copy structures " ++
    "in the protocol.\n\n" ++ "## Overview\n\n" ++
    "Total zero-copy structures: **" ++ Nat.repr shown.length ++ "**\n" ++
    entries (shown.map StructDecl.entry)
  total : (statedNumbers "Total zero-copy structures: **" page).head? = some shown.length
  count : (statedNumbers "- **Zero-copy structures**: " index).getLast? = some shown.length
  accounts : ∃ accounts, ("Account Structures", accounts) ∈ sections ∧ shown.Sublist accounts

def structSections (c : Catalog) : List (String × List StructDecl) :=
  (Category.groups c.structs).map fun g => (g.1.title, g.2)

theorem perm_structSections (c : Catalog) : ((structSections c).flatMap (·.2)).Perm c.structs := by
  rw [structSections, List.flatMap_map]
  exact Category.perm_groups c.structs

theorem showsStructs (generatedAt : String) (c : Catalog) :
    ShowsStructs c (indexPage generatedAt c) (structuresPage c) (structSections c) where
  text := by
    have hsections : String.join ((Category.groups c.structs).map fun g =>
        titled g.1.title (g.2.map StructDecl.entry)) =
        sectionsText StructDecl.entry (structSections c) := by
      rw [sectionsText, structSections, List.map_map]
      rfl
    unfold structuresPage
    exact congrArg (_ ++ ·) hsections
  titles := by
    have htitles : (structSections c).map (·.1) =
        (Category.groups c.structs).map fun g => g.1.title := by
      rw [structSections, List.map_map]
      rfl
    have hall : Category.all.map Category.title =
        (Category.all.map fun k => (k, c.structs.filter (·.category = k))).map
          fun g => g.1.title := by
      rw [List.map_map]
      rfl
    rw [htitles, hall]
    exact List.filter_sublist.map _
  all := perm_structSections c
  count := by
    rw [(perm_structSections c).length_eq]
    exact (getLast?_statedNumbers_indexPage generatedAt c).1

theorem showsFunctions (generatedAt : String) (c : Catalog) :
    ShowsFunctions c (indexPage generatedAt c) (functionsPage c)
      (functionGroups c.publicFunctions) := by
  have hall := perm_functionGroups c.publicFunctions
  refine ⟨?_, hall, ?_, ?_⟩
  · rw [hall.length_eq]
    rfl
  · have hstart : "# Function Reference\n\n" ++
        "Reference documentation for all public functions in the protocol.\n\n" =
        "# Function Reference\n\n" ++
        "Reference documentation for all public functions in the protocol.\n" ++ "\n" := by
      decide +kernel
    rw [hall.length_eq]
    exact head?_statedNumbers hstart (by decide +kernel) (by decide) c.publicFunctions.length _
  · rw [hall.length_eq]
    exact (getLast?_statedNumbers_indexPage generatedAt c).2.1

theorem zeroCopyStructs_sublist (c : Catalog) :
    c.zeroCopyStructs.Sublist (c.structs.filter (·.category = .account)) :=
  List.monotone_filter_right _ fun _ h => decide_eq_true (StructDecl.category_of_isZeroCopy h)

theorem accounts_mem_structSections {c : Catalog}
    (h : c.structs.filter (·.category = .account) ≠ []) :
    ("Account Structures", c.structs.filter (·.category = .account)) ∈ structSections c := by
  have hgroup : (Category.account, c.structs.filter (·.category = .account)) ∈
      Category.groups c.structs := by
    refine List.mem_filter.2 ⟨List.mem_map.2 ⟨.account, by decide, rfl⟩, ?_⟩
    simpa using h
  exact List.mem_map.2 ⟨_, hgroup, rfl⟩

theorem showsZeroCopy (generatedAt : String) {c : Catalog} {page : String}
    (h : zeroCopyPage c = some page) :
    ShowsZeroCopy c (indexPage generatedAt c) page (structSections c) c.zeroCopyStructs := by
  have hne : c.zeroCopyStructs ≠ [] := by
    intro he
    rw [zeroCopyPage, he] at h
    cases h
  have htext := h
  rw [zeroCopyPage, if_neg (by simpa using hne)] at htext
  have hstart : "# Zero-Copy Structures Reference\n\n" ++
      "This document provides detailed reference information for all zero-copy structures " ++
      "in the protocol.\n\n" ++ "## Overview\n\n" =
      "# Zero-Copy Structures Reference\n\n" ++
      "This document provides detailed reference information for all zero-copy structures " ++
      "in the protocol.\n\n" ++ "## Overview\n" ++ "\n" := by
    decide +kernel
  have hsublist := zeroCopyStructs_sublist c
  refine ⟨rfl, (Option.some.inj htext).symm, ?_,
    (getLast?_statedNumbers_indexPage generatedAt c).2.2,
    _, accounts_mem_structSections ?_, hsublist⟩
  · rw [← Option.some.inj htext]
    exact head?_statedNumbers hstart (by decide +kernel) (by decide) c.zeroCopyStructs.length _
  · intro he
    rw [he] at hsublist
    exact hne (List.sublist_nil.1 hsublist)

theorem zeroCopyPage_eq_none_iff (c : Catalog) :
    zeroCopyPage c = none ↔ c.zeroCopyStructs.length = 0 := by
  rw [zeroCopyPage, List.length_eq_zero_iff, ← List.isEmpty_iff]
  split <;> simp_all

end Reference

open Reference

/-- The content of a file of the reference. -/
def Catalog.content? (c : Catalog) (generatedAt : String) (json : Bool) (file : String) :
    Option String :=
  ((c.artifacts generatedAt json).find? (·.file == file)).bind (·.content)

/-- The pages that are written for a catalog count and show the same declarations. The zero-copy
page is left out just if the index counts no zero-copy structs. -/
theorem Catalog.artifacts_agree (c : Catalog) (generatedAt : String) (json : Bool) :
    ∃ index structs functions structSections functionSections,
      c.content? generatedAt json "auto-generated-index.md" = some index ∧
      c.content? generatedAt json "api-structures.md" = some structs ∧
      c.content? generatedAt json "function-reference.md" = some functions ∧
      ShowsStructs c index structs structSections ∧
      ShowsFunctions c index functions functionSections ∧
      (c.content? generatedAt json "zero-copy-reference.md" = none ↔
        (statedNumbers "- **Zero-copy structures**: " index).getLast? = some 0) ∧
      ∀ page ∈ c.content? generatedAt json "zero-copy-reference.md",
        ∃ shown, ShowsZeroCopy c index page structSections shown := by
  have hzeroCopy := (getLast?_statedNumbers_indexPage generatedAt c).2.2
  refine ⟨indexPage generatedAt c, structuresPage c, functionsPage c, structSections c,
    functionGroups c.publicFunctions, rfl, rfl, rfl, showsStructs generatedAt c,
    showsFunctions generatedAt c, ?_, ?_⟩
  · rw [hzeroCopy, Option.some.injEq]
    exact zeroCopyPage_eq_none_iff c
  · intro page hpage
    exact ⟨c.zeroCopyStructs, showsZeroCopy generatedAt hpage⟩

end RefDoc
