import Mathlib.Data.List.Pairwise
import RefDoc.Proofs.ByteOrder
import RefDoc.Proofs.PageAgreement

namespace RefDoc

section Lists

variable {α κ : Type} [DecidableEq κ] {key : α → κ} {as bs : List α}

/-- Groups of the elements by their keys, in the order of the keys. -/
structure Grouped (key : α → κ) (lt : κ → κ → Prop) (as : List α) (gs : List (κ × List α)) :
    Prop where
  increasing : gs.Pairwise fun g h => lt g.1 h.1
  nonempty : ∀ g ∈ gs, g.2 ≠ []
  members : ∀ g ∈ gs, g.2 = as.filter (key · = g.1)
  complete : ∀ a ∈ as, ∃ g ∈ gs, g.1 = key a

theorem mem_of_filter_eq (h : ∀ k, as.filter (key · = k) = bs.filter (key · = k)) {a : α}
    (ha : a ∈ as) : a ∈ bs := by
  have hfilter : a ∈ as.filter (key · = key a) := List.mem_filter.mpr ⟨ha, decide_eq_true rfl⟩
  rw [h] at hfilter
  exact (List.mem_filter.mp hfilter).1

theorem filter_eq_of_sublist {p : α → Bool} (h : as.Perm bs) (hs : (as.filter p).Sublist bs) :
    as.filter p = bs.filter p := by
  have hfilter := hs.filter p
  rw [List.filter_filter] at hfilter
  simp only [Bool.and_self] at hfilter
  exact hfilter.eq_of_length (h.filter p).length_eq

namespace Grouped

variable {lt : κ → κ → Prop} {gs gs' : List (κ × List α)}

theorem imp {lt' : κ → κ → Prop} (h : Grouped key lt as gs) (himp : ∀ k l, lt k l → lt' k l) :
    Grouped key lt' as gs :=
  { h with increasing := h.increasing.imp (himp _ _) }

theorem congr (h : Grouped key lt as gs)
    (heq : ∀ k, as.filter (key · = k) = bs.filter (key · = k)) : Grouped key lt bs gs where
  increasing := h.increasing
  nonempty := h.nonempty
  members g hg := (h.members g hg).trans (heq g.1)
  complete b hb := h.complete b (mem_of_filter_eq (fun k => (heq k).symm) hb)

theorem mem_of_mem (h : Grouped key lt as gs) (h' : Grouped key lt as gs') {g : κ × List α}
    (hg : g ∈ gs) : g ∈ gs' := by
  obtain ⟨a, ha⟩ := List.exists_mem_of_ne_nil _ (h.nonempty g hg)
  rw [h.members g hg, List.mem_filter, decide_eq_true_eq] at ha
  obtain ⟨g', hg', hkey⟩ := h'.complete a ha.1
  have hfst : g'.1 = g.1 := hkey.trans ha.2
  have hsnd : g'.2 = g.2 := by
    rw [h.members g hg, h'.members g' hg', hfst]
  rwa [← show g' = g from Prod.ext hfst hsnd]

theorem nodup (hirrefl : ∀ k, ¬lt k k) (h : Grouped key lt as gs) : gs.Nodup := by
  refine h.increasing.imp fun {g g'} hlt he => ?_
  rw [he] at hlt
  exact hirrefl _ hlt

/-- The groups are determined by their order and by what belongs to them. -/
theorem unique (hasymm : ∀ k l, lt k l → ¬lt l k) (h : Grouped key lt as gs)
    (h' : Grouped key lt as gs') : gs = gs' := by
  have hirrefl : ∀ k, ¬lt k k := fun k hk => hasymm k k hk hk
  have hperm : gs.Perm gs' := by
    rw [List.perm_ext_iff_of_nodup (h.nodup hirrefl) (h'.nodup hirrefl)]
    exact fun g => ⟨h.mem_of_mem h', h'.mem_of_mem h⟩
  refine hperm.eq_of_pairwise ?_ h.increasing h'.increasing
  intro g g' _ _ hlt hgt
  exact absurd hgt (hasymm _ _ hlt)

theorem key_of_mem {g : κ × List α} {a : α} (h : Grouped key lt as gs) (hg : g ∈ gs)
    (ha : a ∈ g.2) : key a = g.1 := by
  rw [h.members g hg, List.mem_filter, decide_eq_true_eq] at ha
  exact ha.2

theorem filter_flatMap (h : Grouped key lt as gs) (hperm : (gs.flatMap (·.2)).Perm as) (k : κ) :
    (gs.flatMap (·.2)).filter (key · = k) = as.filter (key · = k) := by
  refine (filter_eq_of_sublist hperm.symm ?_).symm
  rcases hpart : as.filter (key · = k) with _ | ⟨a, part⟩
  · exact List.nil_sublist _
  · have ha : a ∈ as.filter (key · = k) := hpart ▸ List.mem_cons_self
    rw [List.mem_filter, decide_eq_true_eq] at ha
    obtain ⟨g, hg, hkey⟩ := h.complete a ha.1
    rw [← hpart, ← ha.2, ← hkey, ← h.members g hg]
    exact List.sublist_flatten_of_mem (List.mem_map_of_mem hg)

end Grouped

end Lists

section Sorting

variable {α κ : Type} [LinearOrder κ]

theorem decide_le_trans (key : α → κ) (a b c : α) (hab : decide (key a ≤ key b) = true)
    (hbc : decide (key b ≤ key c) = true) : decide (key a ≤ key c) = true :=
  decide_eq_true (le_trans (of_decide_eq_true hab) (of_decide_eq_true hbc))

theorem decide_le_total (key : α → κ) (a b : α) :
    (decide (key a ≤ key b) || decide (key b ≤ key a)) = true := by
  simpa using le_total (key a) (key b)

theorem pairwise_mergeSort_key (key : α → κ) (as : List α) :
    (as.mergeSort fun a b => key a ≤ key b).Pairwise (key · ≤ key ·) :=
  (List.pairwise_mergeSort (decide_le_trans key) (decide_le_total key) as).imp of_decide_eq_true

variable {key : α → κ} {as bs : List α}

theorem le_of_mem_cons {a b : α} (h : (a :: as).Pairwise (key · ≤ key ·)) (hb : b ∈ a :: as) :
    key a ≤ key b := by
  rcases List.mem_cons.mp hb with rfl | hb
  · exact le_rfl
  · exact (List.pairwise_cons.mp h).1 b hb

variable [DecidableEq κ]

theorem eq_of_filter_eq (has : as.Pairwise (key · ≤ key ·)) (hbs : bs.Pairwise (key · ≤ key ·))
    (h : ∀ k, as.filter (key · = k) = bs.filter (key · = k)) : as = bs := by
  have h' := fun k => (h k).symm
  induction as generalizing bs with
  | nil =>
    cases bs with
    | nil => rfl
    | cons b bs => cases mem_of_filter_eq h' List.mem_cons_self
  | cons a as ih =>
    cases bs with
    | nil => cases mem_of_filter_eq h List.mem_cons_self
    | cons b bs =>
      -- Each of the two heads stands in the other list, so that neither has the greater key.
      have hkey : key b = key a := le_antisymm
        (le_of_mem_cons hbs (mem_of_filter_eq h List.mem_cons_self))
        (le_of_mem_cons has (mem_of_filter_eq h' List.mem_cons_self))
      have hheads := h (key a)
      rw [List.filter_cons_of_pos (by simp), List.filter_cons_of_pos (by simpa using hkey),
        List.cons.injEq] at hheads
      obtain ⟨rfl, htails⟩ := hheads
      have hrest : ∀ k, as.filter (key · = k) = bs.filter (key · = k) := by
        intro k
        by_cases hk : key a = k
        · rw [← hk, htails]
        · have hk' := h k
          rwa [List.filter_cons_of_neg (by simpa using hk),
            List.filter_cons_of_neg (by simpa using hk)] at hk'
      rw [ih has.of_cons hbs.of_cons hrest fun k => (hrest k).symm]

theorem filter_mergeSort (key : α → κ) (k : κ) (as : List α) :
    (as.mergeSort fun a b => key a ≤ key b).filter (key · = k) = as.filter (key · = k) := by
  have hpart : (as.filter (key · = k)).Pairwise fun a b => decide (key a ≤ key b) = true := by
    refine List.pairwise_of_forall_mem_list fun a ha b hb => ?_
    rw [List.mem_filter, decide_eq_true_eq] at ha hb
    exact decide_eq_true (ha.2.trans hb.2.symm).le
  refine (filter_eq_of_sublist (List.mergeSort_perm as _).symm ?_).symm
  exact List.sublist_mergeSort (decide_le_trans key) (decide_le_total key) hpart List.filter_sublist

/-- The groups, one behind the other, are the elements in the stable order of their keys. -/
theorem Grouped.flatMap_eq_mergeSort {gs : List (κ × List α)} (h : Grouped key (· < ·) as gs)
    (hperm : (gs.flatMap (·.2)).Perm as) :
    gs.flatMap (·.2) = as.mergeSort fun a b => key a ≤ key b := by
  have hsorted : (gs.flatMap (·.2)).Pairwise (key · ≤ key ·) := by
    refine List.pairwise_flatMap.mpr ⟨fun g hg => ?_, ?_⟩
    · refine List.pairwise_of_forall_mem_list fun a ha b hb => ?_
      exact ((h.key_of_mem hg ha).trans (h.key_of_mem hg hb).symm).le
    · refine h.increasing.imp_of_mem fun {g g'} hg hg' hlt a ha b hb => ?_
      rw [h.key_of_mem hg ha, h.key_of_mem hg' hb]
      exact hlt.le
  refine eq_of_filter_eq hsorted (pairwise_mergeSort_key key as) fun k => ?_
  rw [h.filter_flatMap hperm, filter_mergeSort]

end Sorting

namespace Category

/-- The place of a category in the order in which they are presented. -/
def rank (c : Category) : Nat :=
  all.idxOf c

theorem grouped_groups (ss : List StructDecl) :
    Grouped StructDecl.category (rank · < rank ·) ss (groups ss) where
  increasing := by
    have hall : all.Pairwise (rank · < rank ·) := by decide
    refine List.Pairwise.filter _ (List.pairwise_map.mpr ?_)
    exact hall
  nonempty g hg := by
    simpa using (List.mem_filter.mp hg).2
  members g hg := by
    obtain ⟨c, -, rfl⟩ := List.mem_map.mp (List.mem_filter.mp hg).1
    rfl
  complete s hs := by
    have hall : s.category ∈ all := by
      cases s.category <;> decide
    have hmem : s ∈ ss.filter (·.category = s.category) :=
      List.mem_filter.mpr ⟨hs, decide_eq_true rfl⟩
    refine ⟨_, List.mem_filter.mpr ⟨List.mem_map_of_mem hall, ?_⟩, rfl⟩
    simpa using List.ne_nil_of_mem hmem

/-- The categories partition the structs: the groups are in the order of presentation, none is
empty, each has the structs of its category in the order in which they were found, and no struct is
left out or stands twice. A zero-copy struct is always an account. -/
theorem groups_partition (ss : List StructDecl) :
    Grouped StructDecl.category (rank · < rank ·) ss (groups ss) ∧
    ((groups ss).flatMap (·.2)).Perm ss ∧
    ∀ s ∈ ss, s.isZeroCopy = true → ∃ g ∈ groups ss, g.1 = .account ∧ s ∈ g.2 := by
  refine ⟨grouped_groups ss, perm_groups ss, fun s hs hzero => ?_⟩
  have haccount : s.category = .account := StructDecl.category_of_isZeroCopy hzero
  obtain ⟨g, hg, hkey⟩ := (grouped_groups ss).complete s hs
  refine ⟨g, hg, hkey.trans haccount, ?_⟩
  rw [(grouped_groups ss).members g hg]
  exact List.mem_filter.mpr ⟨hs, decide_eq_true hkey.symm⟩

def zeroCopyConfig : StructDecl where
  name := "ConfigData"
  doc := ""
  fields := []
  attributes := ["derive(Debug)", "account(zero_copy)"]
  sourceFile := "m.rs"
  line := 3
  sizeCalculation := none

def overlapping : List StructDecl :=
  [{ zeroCopyConfig with name := "PriceInfo", attributes := [] }, zeroCopyConfig]

theorem account_of_zeroCopyConfig :
    (zeroCopyConfig.nameHas ["config"] && zeroCopyConfig.nameHas ["data"]) = true ∧
    ∃ g ∈ groups overlapping, g.1 = .account ∧ zeroCopyConfig ∈ g.2 :=
  ⟨by decide +kernel, (groups_partition overlapping).2.2 zeroCopyConfig (by decide +kernel)
    (by decide +kernel)⟩

end Category

namespace Reference

variable {fs : List FunctionDecl} {gs : List (String × List FunctionDecl)} {f : FunctionDecl}

theorem grouped_functionGroups (fs : List FunctionDecl) :
    Grouped FunctionDecl.sourceFile (· < ·) fs (functionGroups fs) := by
  have hperm := List.mergeSort_perm (fs.map (·.sourceFile)).eraseDups fun a b => a ≤ b
  have hsorted := pairwise_mergeSort_key id (fs.map (·.sourceFile)).eraseDups
  have hnodup := hperm.nodup_iff.mpr (nodup_eraseDups (fs.map (·.sourceFile)))
  have hmem {file : String} :
      file ∈ (fs.map (·.sourceFile)).eraseDups.mergeSort (fun a b => a ≤ b) ↔
        ∃ f ∈ fs, f.sourceFile = file := by
    rw [hperm.mem_iff, List.mem_eraseDups, List.mem_map]
  refine ⟨?_, ?_, ?_, ?_⟩
  · refine List.pairwise_map.mpr ((hsorted.and hnodup).imp ?_)
    exact fun h => lt_of_le_of_ne h.1 h.2
  · intro g hg
    obtain ⟨file, hfile, rfl⟩ := List.mem_map.mp hg
    obtain ⟨f, hf, hkey⟩ := hmem.mp hfile
    exact List.ne_nil_of_mem (List.mem_filter.mpr ⟨hf, decide_eq_true hkey⟩)
  · intro g hg
    obtain ⟨file, -, rfl⟩ := List.mem_map.mp hg
    rfl
  · intro f hf
    exact ⟨_, List.mem_map_of_mem (hmem.mpr ⟨f, hf, rfl⟩), rfl⟩

/-- Enters a function under its file, behind those that stand there. The files are kept in order. -/
def enter (gs : List (String × List FunctionDecl)) (f : FunctionDecl) :
    List (String × List FunctionDecl) :=
  match gs with
  | [] => [(f.sourceFile, [f])]
  | g :: gs =>
    if f.sourceFile < g.1 then (f.sourceFile, [f]) :: g :: gs
    else if f.sourceFile = g.1 then (g.1, g.2 ++ [f]) :: gs
    else g :: enter gs f

theorem fst_mem_enter {g : String × List FunctionDecl} (hg : g ∈ enter gs f) :
    g.1 = f.sourceFile ∨ ∃ g' ∈ gs, g'.1 = g.1 := by
  fun_induction enter gs f with
  | case1 =>
    rw [List.mem_singleton] at hg
    exact .inl (hg ▸ rfl)
  | case2 h gs hlt =>
    rcases List.mem_cons.mp hg with rfl | hg
    · exact .inl rfl
    · exact .inr ⟨g, hg, rfl⟩
  | case3 h gs _ heq =>
    rcases List.mem_cons.mp hg with rfl | hg
    · exact .inl heq.symm
    · exact .inr ⟨g, List.mem_cons_of_mem _ hg, rfl⟩
  | case4 h gs _ _ ih =>
    rcases List.mem_cons.mp hg with rfl | hg
    · exact .inr ⟨g, List.mem_cons_self, rfl⟩
    · obtain hfile | ⟨g', hg', hkey⟩ := ih hg
      · exact .inl hfile
      · exact .inr ⟨g', List.mem_cons_of_mem _ hg', hkey⟩

theorem pairwise_enter (f : FunctionDecl) (h : gs.Pairwise fun g g' => g.1 < g'.1) :
    (enter gs f).Pairwise fun g g' => g.1 < g'.1 := by
  fun_induction enter gs f with
  | case1 => exact List.pairwise_singleton _ _
  | case2 g gs hlt =>
    refine List.pairwise_cons.mpr ⟨?_, h⟩
    refine List.forall_mem_cons.mpr ⟨hlt, fun g' hg' => ?_⟩
    exact lt_trans hlt ((List.pairwise_cons.mp h).1 g' hg')
  | case3 g gs _ heq => exact List.pairwise_cons.mpr (List.pairwise_cons.mp h)
  | case4 g gs hlt hne ih =>
    obtain ⟨hg, hgs⟩ := List.pairwise_cons.mp h
    refine List.pairwise_cons.mpr ⟨fun g' hg' => ?_, ih hgs⟩
    obtain hfile | ⟨g'', hg'', hkey⟩ := fst_mem_enter hg'
    · rw [hfile]
      exact lt_of_le_of_ne (not_lt.mp hlt) (Ne.symm hne)
    · rw [← hkey]
      exact hg g'' hg''

theorem mem_enter {g : String × List FunctionDecl} {own : List FunctionDecl}
    (h : gs.Pairwise fun g g' => g.1 < g'.1) (hown : ∀ g ∈ gs, g.1 = f.sourceFile → g.2 = own)
    (hnew : (∀ g ∈ gs, g.1 ≠ f.sourceFile) → own = []) :
    g ∈ enter gs f ↔ g = (f.sourceFile, own ++ [f]) ∨ g ∈ gs ∧ g.1 ≠ f.sourceFile := by
  fun_induction enter gs f with
  | case1 =>
    simp [hnew (fun _ hg => by cases hg)]
  | case2 g₁ gs hlt =>
    have hne : ∀ g ∈ g₁ :: gs, g.1 ≠ f.sourceFile := by
      refine List.forall_mem_cons.mpr ⟨hlt.ne', fun g hg => ?_⟩
      exact (lt_trans hlt ((List.pairwise_cons.mp h).1 g hg)).ne'
    rw [List.mem_cons, hnew hne, List.nil_append]
    exact or_congr_right ⟨fun hg => ⟨hg, hne g hg⟩, And.left⟩
  | case3 g₁ gs _ heq =>
    have hne : ∀ g ∈ gs, g.1 ≠ f.sourceFile := by
      intro g hg
      rw [heq]
      exact ((List.pairwise_cons.mp h).1 g hg).ne'
    rw [List.mem_cons, List.mem_cons, hown g₁ List.mem_cons_self heq.symm, heq]
    refine or_congr_right ⟨fun hg => ⟨.inr hg, heq ▸ hne g hg⟩, ?_⟩
    rintro ⟨rfl | hg, hg'⟩
    · exact absurd rfl hg'
    · exact hg
  | case4 g₁ gs _ hne ih =>
    obtain ⟨hown₁, hown⟩ := List.forall_mem_cons.mp hown
    have hnew' : (∀ g ∈ gs, g.1 ≠ f.sourceFile) → own = [] := fun hgs =>
      hnew (List.forall_mem_cons.mpr ⟨Ne.symm hne, hgs⟩)
    rw [List.mem_cons, List.mem_cons, ih h.of_cons hown hnew']
    constructor
    · rintro (rfl | rfl | ⟨hg, hg'⟩)
      · exact .inr ⟨.inl rfl, Ne.symm hne⟩
      · exact .inl rfl
      · exact .inr ⟨.inr hg, hg'⟩
    · rintro (rfl | ⟨rfl | hg, hg'⟩)
      · exact .inr (.inl rfl)
      · exact .inl rfl
      · exact .inr (.inr ⟨hg, hg'⟩)

theorem grouped_enter (h : Grouped FunctionDecl.sourceFile (· < ·) fs gs) (f : FunctionDecl) :
    Grouped FunctionDecl.sourceFile (· < ·) (fs ++ [f]) (enter gs f) := by
  have hmem {g : String × List FunctionDecl} : g ∈ enter gs f ↔
      g = (f.sourceFile, fs.filter (·.sourceFile = f.sourceFile) ++ [f]) ∨
        g ∈ gs ∧ g.1 ≠ f.sourceFile := by
    refine mem_enter h.increasing (fun g hg hkey => hkey ▸ h.members g hg) fun hne => ?_
    refine List.filter_eq_nil_iff.mpr fun f' hf' hfile => ?_
    obtain ⟨g, hg, hkey⟩ := h.complete f' hf'
    exact hne g hg (hkey.trans (of_decide_eq_true hfile))
  refine ⟨pairwise_enter f h.increasing, fun g hg => ?_, fun g hg => ?_, fun f' hf' => ?_⟩
  · rcases hmem.mp hg with rfl | ⟨hg, -⟩
    · exact List.append_ne_nil_of_right_ne_nil _ (List.cons_ne_nil _ _)
    · exact h.nonempty g hg
  · rw [List.filter_append]
    rcases hmem.mp hg with rfl | ⟨hg, hne⟩
    · rw [List.filter_cons_of_pos (by simp), List.filter_nil]
    · rw [List.filter_cons_of_neg (by simpa using Ne.symm hne), List.filter_nil, List.append_nil]
      exact h.members g hg
  · by_cases hfile : f'.sourceFile = f.sourceFile
    · exact ⟨_, hmem.mpr (.inl rfl), hfile.symm⟩
    · have hf : f' ∈ fs := by
        rcases List.mem_append.mp hf' with hf | hf
        · exact hf
        · exact absurd (List.mem_singleton.mp hf ▸ rfl) hfile
      obtain ⟨g, hg, hkey⟩ := h.complete f' hf
      exact ⟨g, hmem.mpr (.inr ⟨hg, hkey ▸ hfile⟩), hkey⟩

theorem grouped_foldl_enter (h : Grouped FunctionDecl.sourceFile (· < ·) fs gs)
    (fs' : List FunctionDecl) :
    Grouped FunctionDecl.sourceFile (· < ·) (fs ++ fs') (fs'.foldl enter gs) := by
  induction fs' generalizing fs gs with
  | nil => rwa [List.append_nil]
  | cons f fs' ih =>
    have hstep := ih (grouped_enter h f)
    rwa [List.append_assoc, List.singleton_append] at hstep

/-- Entering the functions one after the other makes the same groups. -/
theorem functionGroups_eq_foldl (fs : List FunctionDecl) :
    functionGroups fs = fs.foldl enter [] := by
  have hnil : Grouped FunctionDecl.sourceFile (· < ·) [] [] := ⟨.nil, nofun, nofun, nofun⟩
  exact (grouped_functionGroups fs).unique (fun _ _ => lt_asymm) (grouped_foldl_enter hnil fs)

theorem functionGroups_congr {fs' : List FunctionDecl}
    (h : ∀ file, fs.filter (·.sourceFile = file) = fs'.filter (·.sourceFile = file)) :
    functionGroups fs = functionGroups fs' :=
  ((grouped_functionGroups fs).congr h).unique (fun _ _ => lt_asymm) (grouped_functionGroups fs')

theorem functionsPage_congr {c c' : Catalog}
    (h : functionGroups c.publicFunctions = functionGroups c'.publicFunctions) :
    functionsPage c = functionsPage c' := by
  have htext := (showsFunctions "" c).text
  rw [h] at htext
  exact htext.trans (showsFunctions "" c').text.symm

theorem sort_bytes (fs : List FunctionDecl) :
    (fs.mergeSort fun f g => Text.bytes f.sourceFile ≤ Text.bytes g.sourceFile) =
      fs.mergeSort fun f g => f.sourceFile ≤ g.sourceFile := by
  have hle (f g : FunctionDecl) : Text.bytes f.sourceFile ≤ Text.bytes g.sourceFile ↔
      f.sourceFile ≤ g.sourceFile := by
    rw [← List.not_lt, Text.bytes_lt_bytes_iff, not_lt]
  simp only [hle]

/-- The groups of the public functions: files in the order of their bytes, under each the functions
found in it. They are what comes of entering the functions one after the other, and one behind the
other they are the functions sorted by file, those of one file in the order in which they were
found. So the page stays the same when functions are rearranged and those of each file keep their
order. -/
theorem functionGroups_sorted (c : Catalog) :
    functionGroups c.publicFunctions = (c.functions.filter (·.isPublic)).foldl enter [] ∧
    Grouped FunctionDecl.sourceFile (fun a b => Text.bytes a < Text.bytes b)
      (c.functions.filter (·.isPublic)) (functionGroups c.publicFunctions) ∧
    (functionGroups c.publicFunctions).flatMap (·.2) =
      (c.functions.filter (·.isPublic)).mergeSort
        (fun f g => Text.bytes f.sourceFile ≤ Text.bytes g.sourceFile) ∧
    ∀ c' : Catalog, c.functions.Perm c'.functions →
      (∀ file, (c.functions.filter (·.sourceFile = file)).Sublist c'.functions) →
      ∀ generatedAt json, c'.content? generatedAt json "function-reference.md" =
        c.content? generatedAt json "function-reference.md" := by
  have hgrouped := grouped_functionGroups c.publicFunctions
  refine ⟨functionGroups_eq_foldl _, hgrouped.imp fun _ _ => Text.bytes_lt_bytes, ?_, ?_⟩
  · rw [sort_bytes]
    exact hgrouped.flatMap_eq_mergeSort (perm_functionGroups _)
  · intro c' hperm hkeep generatedAt json
    have hpublic (file : String) : c'.publicFunctions.filter (·.sourceFile = file) =
        c.publicFunctions.filter (·.sourceFile = file) := by
      rw [Catalog.publicFunctions, Catalog.publicFunctions, List.filter_comm,
        ← filter_eq_of_sublist hperm (hkeep file), List.filter_comm]
    exact congrArg some (functionsPage_congr (functionGroups_congr hpublic))

def plainFunction (name file : String) (isPublic : Bool) : FunctionDecl where
  name := name
  doc := ""
  signature := "fn " ++ name ++ "() -> ()"
  sourceFile := file
  line := 1
  isPublic := isPublic
  params := []
  returnType := "()"

def scattered : Catalog where
  functions := [plainFunction "second" "b.rs" true, plainFunction "first" "a.rs" true,
    plainFunction "helper" "b.rs" false, plainFunction "again" "a.rs" true]

def gathered : Catalog where
  functions := [plainFunction "first" "a.rs" true, plainFunction "again" "a.rs" true,
    plainFunction "second" "b.rs" true, plainFunction "helper" "b.rs" false]

theorem page_of_gathered : scattered.functions.Perm gathered.functions ∧
    ∀ generatedAt json, gathered.content? generatedAt json "function-reference.md" =
      scattered.content? generatedAt json "function-reference.md" := by
  have hperm : scattered.functions.Perm gathered.functions := by decide +kernel
  refine ⟨hperm, (functionGroups_sorted scattered).2.2.2 gathered hperm fun file => ?_⟩
  by_cases ha : "a.rs" = file
  · subst ha
    decide +kernel
  by_cases hb : "b.rs" = file
  · subst hb
    decide +kernel
  · simp [scattered, plainFunction, ha, hb]

end Reference

end RefDoc
