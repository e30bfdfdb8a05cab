import RefDoc.File.Tree
import RefDoc.Proofs.PathSegments
import Mathlib.Data.List.Nodup
import Mathlib.Data.List.Perm.Basic

namespace RefDoc

namespace FileTree

variable {t u : FileTree} {place other : List String} {n m : Node}

theorem lookup_replace_of_ne (entries : List (List String × Node)) (n : Node) (h : other ≠ place) :
    (entries.map fun e => if e.1 = place then (place, n) else e).lookup other =
      entries.lookup other := by
  induction entries with
  | nil => rfl
  | cons e entries ih =>
    rw [List.map_cons]
    by_cases he : e.1 = place
    · rw [if_pos he, List.lookup_cons, List.lookup_cons, he, beq_eq_false_iff_ne.mpr h, ih]
    · rw [if_neg he, List.lookup_cons, List.lookup_cons, ih]

theorem lookup_replace_self {entries : List (List String × Node)} (n : Node)
    (h : (entries.lookup place).isSome) :
    (entries.map fun e => if e.1 = place then (place, n) else e).lookup place = some n := by
  induction entries with
  | nil => cases h
  | cons e entries ih =>
    rw [List.map_cons]
    by_cases he : e.1 = place
    · rw [if_pos he, List.lookup_cons, beq_self_eq_true]
    · have hbeq : (place == e.1) = false := beq_eq_false_iff_ne.mpr (Ne.symm he)
      rw [List.lookup_cons, hbeq] at h
      rw [if_neg he, List.lookup_cons, hbeq, ih h]

theorem node?_eq_lookup (t : FileTree) (h : place ≠ []) : t.node? place = t.entries.lookup place :=
  if_neg (mt List.isEmpty_iff.mp h)

theorem node?_put_self (t : FileTree) (hne : place ≠ []) (n : Node) :
    (t.put place n).node? place = some n := by
  rw [node?_eq_lookup _ hne, put]
  split
  · next hsome => exact lookup_replace_self n hsome
  · next hnone =>
    rw [List.lookup_append, Option.not_isSome_iff_eq_none.mp hnone, Option.none_or,
      List.lookup_cons, beq_self_eq_true]

theorem node?_put_of_ne (t : FileTree) (n : Node) (h : other ≠ place) :
    (t.put place n).node? other = t.node? other := by
  by_cases hempty : other = []
  · subst hempty
    rfl
  · rw [node?_eq_lookup _ hempty, node?_eq_lookup _ hempty, put]
    split
    · exact lookup_replace_of_ne t.entries n h
    · rw [List.lookup_append, List.lookup_cons, beq_eq_false_iff_ne.mpr h, List.lookup_nil,
        Option.or_none]

theorem isDir_iff : t.isDir place = true ↔ t.node? place = some .dir := by
  rw [isDir, Option.any_eq_true]
  constructor
  · rintro ⟨n, hn, hsame⟩
    cases n with
    | dir => exact hn
    | file bytes => cases hsame
  · intro h
    exact ⟨.dir, h, rfl⟩

/-- Each place has one node, its names are names of files and directories, and all above it are
directories. -/
structure WellFormed (t : FileTree) : Prop where
  nodup : (t.entries.map Prod.fst).Nodup
  nonempty : ∀ e ∈ t.entries, e.1 ≠ []
  ordinary : ∀ e ∈ t.entries, ∀ s ∈ e.1, Path.IsOrdinary s
  above : ∀ e ∈ t.entries, ∀ d ∈ Path.parents e.1, t.isDir d = true

theorem lookup_eq_some_iff_mem {entries : List (List String × Node)}
    (h : (entries.map Prod.fst).Nodup) : entries.lookup place = some n ↔ (place, n) ∈ entries := by
  rw [List.lookup_eq_some_iff]
  constructor
  · rintro ⟨as, bs, rfl, _⟩
    exact List.mem_append_right _ List.mem_cons_self
  · intro hmem
    obtain ⟨as, bs, rfl⟩ := List.append_of_mem hmem
    refine ⟨as, bs, rfl, fun e he => bne_iff_ne.mpr ?_⟩
    rintro rfl
    rw [List.map_append, List.map_cons] at h
    exact (List.nodup_append.mp h).2.2 e.1 (List.mem_map_of_mem he) e.1 List.mem_cons_self rfl

theorem WellFormed.node?_eq_some_iff (ht : t.WellFormed) (hne : place ≠ []) :
    t.node? place = some n ↔ (place, n) ∈ t.entries := by
  rw [node?_eq_lookup t hne, lookup_eq_some_iff_mem ht.nodup]

theorem WellFormed.isDir_of_node? (ht : t.WellFormed) {above below : List String}
    (hne : below ≠ []) (h : t.node? (above ++ below) = some n) : t.isDir above = true := by
  have hmem := (ht.node?_eq_some_iff (List.append_ne_nil_of_right_ne_nil above hne)).mp h
  exact ht.above _ hmem above (Path.mem_parents_append above hne)

theorem WellFormed.isDir_of_append (ht : t.WellFormed) {above below : List String}
    (h : t.isDir (above ++ below) = true) : t.isDir above = true := by
  by_cases hne : below = []
  · rwa [hne, List.append_nil] at h
  · exact ht.isDir_of_node? hne (isDir_iff.mp h)

/-- Two trees have the same node at every place, and paths lead from the same directory. -/
structure SameNodes (t u : FileTree) : Prop where
  node : ∀ place, t.node? place = u.node? place
  workDir : t.workDir = u.workDir

theorem SameNodes.isDir_eq (h : SameNodes t u) (place : List String) :
    t.isDir place = u.isDir place := by
  rw [isDir, isDir, h.node place]

theorem SameNodes.follow_eq (h : SameNodes u t) (here segments : List String) :
    u.follow here segments = t.follow here segments := by
  induction segments generalizing here with
  | nil => rfl
  | cons s segments ih => rw [follow, follow, h.isDir_eq, h.node, ih]

theorem SameNodes.read_eq (h : SameNodes u t) (path : String) : u.read path = t.read path := by
  simp only [read, resolve, base, h.workDir, h.follow_eq, h.node]

theorem WellFormed.node?_of_perm (ht : t.WellFormed) (h : u.entries.Perm t.entries)
    (place : List String) : u.node? place = t.node? place := by
  by_cases hne : place = []
  · rw [hne]
    rfl
  · have hu : (u.entries.map Prod.fst).Nodup := (h.map Prod.fst).nodup_iff.mpr ht.nodup
    apply Option.ext
    intro n
    rw [node?_eq_lookup u hne, lookup_eq_some_iff_mem hu, h.mem_iff, ht.node?_eq_some_iff hne]

theorem WellFormed.of_perm (ht : t.WellFormed) (h : u.entries.Perm t.entries) : u.WellFormed where
  nodup := (h.map Prod.fst).nodup_iff.mpr ht.nodup
  nonempty e he := ht.nonempty e (h.mem_iff.mp he)
  ordinary e he := ht.ordinary e (h.mem_iff.mp he)
  above e he d hd := by
    rw [isDir, ht.node?_of_perm h]
    exact ht.above e (h.mem_iff.mp he) d hd

/-- The tree has only nodes of another one. -/
structure PartOf (u t : FileTree) : Prop where
  wellFormed : u.WellFormed
  workDir : u.workDir = t.workDir
  node : ∀ {place n}, u.node? place = some n → t.node? place = some n

theorem partOf_empty (t : FileTree) : PartOf { workDir := t.workDir } t where
  wellFormed :=
    { nodup := List.nodup_nil, nonempty := nofun, ordinary := nofun, above := nofun }
  workDir := rfl
  node {place n} h := by
    by_cases hne : place = []
    · rwa [hne] at h ⊢
    · rw [node?_eq_lookup _ hne] at h
      cases h

theorem of_mem_put {e : List String × Node} (h : e ∈ (t.put place n).entries) :
    e ∈ t.entries ∨ e = (place, n) := by
  rw [put] at h
  split at h
  · obtain ⟨e', he', rfl⟩ := List.mem_map.mp h
    split
    · exact .inr rfl
    · exact .inl he'
  · rwa [List.mem_append, List.mem_singleton] at h

theorem nodup_put (h : (t.entries.map Prod.fst).Nodup) (place : List String) (n : Node) :
    ((t.put place n).entries.map Prod.fst).Nodup := by
  rw [put]
  split
  · have hkeys : (Prod.fst ∘ fun e : List String × Node => if e.1 = place then (place, n) else e) =
        Prod.fst := by
      funext e
      rw [Function.comp_apply]
      split
      · next he => exact he.symm
      · rfl
    rwa [List.map_map, hkeys]
  · next hnone =>
    rw [List.map_append, List.map_singleton]
    refine List.nodup_append.mpr ⟨h, List.nodup_singleton _, ?_⟩
    intro a ha b hb hab
    obtain rfl := List.mem_singleton.mp hb
    obtain ⟨e, he, rfl⟩ := List.mem_map.mp ha
    exact hnone (List.lookup_isSome_iff.mpr ⟨e, he, beq_iff_eq.mpr hab.symm⟩)

section Insertion

variable (ht : t.WellFormed)

theorem PartOf.node?_put (h : PartOf u t) (hne : place ≠ []) (hn : t.node? place = some n)
    (hm : u.node? other = some m) : (u.put place n).node? other = some m := by
  by_cases heq : other = place
  · subst heq
    rw [node?_put_self u hne, ← hn, h.node hm]
  · rwa [node?_put_of_ne u n heq]

include ht in
theorem PartOf.put (h : PartOf u t) (hne : place ≠ []) (hn : t.node? place = some n)
    (habove : ∀ d ∈ Path.parents place, u.isDir d = true) : PartOf (u.put place n) t where
  wellFormed :=
    { nodup := nodup_put h.wellFormed.nodup place n
      nonempty := fun e he => by
        rcases of_mem_put he with he | rfl
        · exact h.wellFormed.nonempty e he
        · exact hne
      ordinary := fun e he => by
        rcases of_mem_put he with he | rfl
        · exact h.wellFormed.ordinary e he
        · exact ht.ordinary _ ((ht.node?_eq_some_iff hne).mp hn)
      above := fun e he d hd => by
        have hdir : u.isDir d = true := by
          rcases of_mem_put he with he | rfl
          · exact h.wellFormed.above e he d hd
          · exact habove d hd
        exact isDir_iff.mpr (h.node?_put hne hn (isDir_iff.mp hdir)) }
  workDir := h.workDir
  node {other m} hm := by
    by_cases heq : other = place
    · subst heq
      rw [node?_put_self u hne] at hm
      rw [hn, hm]
    · rw [node?_put_of_ne u n heq] at hm
      exact h.node hm

theorem PartOf.refl (hu : u.WellFormed) : PartOf u u :=
  ⟨hu, rfl, id⟩

theorem PartOf.trans {v : FileTree} (huv : PartOf u v) (hvt : PartOf v t) : PartOf u t :=
  ⟨huv.wellFormed, huv.workDir.trans hvt.workDir, fun h => hvt.node (huv.node h)⟩

theorem PartOf.isDir (h : PartOf u t) (hd : u.isDir place = true) : t.isDir place = true :=
  isDir_iff.mpr (h.node (isDir_iff.mp hd))

include ht in
theorem PartOf.fillDir (h : PartOf u t) (hdir : t.isDir place = true)
    (habove : ∀ d ∈ Path.parents place, u.isDir d = true) :
    PartOf u (u.fillDir place) ∧ PartOf (u.fillDir place) t ∧
      (u.fillDir place).isDir place = true := by
  have hn := isDir_iff.mp hdir
  rw [FileTree.fillDir]
  split
  · next hsome =>
    obtain ⟨m, hm⟩ := Option.isSome_iff_exists.mp hsome
    refine ⟨.refl h.wellFormed, h, isDir_iff.mpr ?_⟩
    rw [hm, ← h.node hm, hn]
  · next hnone =>
    have hne : place ≠ [] := by
      rintro rfl
      exact hnone rfl
    exact ⟨⟨h.wellFormed, rfl, h.node?_put hne hn⟩, h.put ht hne hn habove,
      isDir_iff.mpr (node?_put_self u hne .dir)⟩

include ht in
theorem PartOf.fillDirs (h : PartOf u t) (hplace : t.node? place = some n) (k : Nat)
    (hk : k ≤ place.length) :
    let v := ((List.range k).map place.take).foldl FileTree.fillDir u
    PartOf u v ∧ PartOf v t ∧ ∀ j < k, v.isDir (place.take j) = true := by
  induction k with
  | zero => exact ⟨.refl h.wellFormed, h, nofun⟩
  | succ k ih =>
    obtain ⟨huv, hvt, hdirs⟩ := ih (by omega)
    have hdrop : place.drop k ≠ [] := by
      rw [ne_eq, List.drop_eq_nil_iff]
      omega
    have hdir : t.isDir (place.take k) = true :=
      ht.isDir_of_node? hdrop (by rwa [List.take_append_drop])
    obtain ⟨hvw, hwt, hw⟩ := hvt.fillDir ht hdir fun d hd => by
      obtain ⟨j, hj, rfl⟩ := Path.mem_parents.mp hd
      rw [List.length_take] at hj
      rw [List.take_take, Nat.min_eq_left (by omega)]
      exact hdirs j (by omega)
    simp only [List.range_succ, List.map_append, List.foldl_append, List.map_singleton,
      List.foldl_cons, List.foldl_nil]
    refine ⟨huv.trans hvw, hwt, fun j hj => ?_⟩
    rcases Nat.lt_succ_iff_lt_or_eq.mp hj with hj | rfl
    · exact hvw.isDir (hdirs j hj)
    · exact hw

include ht in
theorem PartOf.insert (h : PartOf u t) (hmem : (place, n) ∈ t.entries) :
    PartOf u (u.insert place n) ∧ PartOf (u.insert place n) t ∧
      (u.insert place n).node? place = some n := by
  have hne : place ≠ [] := ht.nonempty _ hmem
  have hn : t.node? place = some n := (ht.node?_eq_some_iff hne).mpr hmem
  obtain ⟨huv, hvt, hdirs⟩ := h.fillDirs ht hn place.length (Nat.le_refl _)
  have hinsert : u.insert place n =
      (((List.range place.length).map place.take).foldl FileTree.fillDir u).put place n := by
    rw [FileTree.insert, Path.reverse_parents]
  rw [hinsert]
  refine ⟨huv.trans ⟨hvt.wellFormed, rfl, hvt.node?_put hne hn⟩, hvt.put ht hne hn ?_,
    node?_put_self _ hne n⟩
  intro d hd
  obtain ⟨k, hk, rfl⟩ := Path.mem_parents.mp hd
  exact hdirs k hk

/-- The tree that comes about when nodes are put to their places one after the other. -/
def ofEntries (workDir : List String) (es : List (List String × Node)) : FileTree :=
  es.foldl (fun t e => t.insert e.1 e.2) { workDir }

include ht in
theorem PartOf.foldl_insert (h : PartOf u t) {es : List (List String × Node)}
    (hes : es ⊆ t.entries) :
    let v := es.foldl (fun t e => t.insert e.1 e.2) u
    PartOf u v ∧ PartOf v t ∧ ∀ e ∈ es, v.node? e.1 = some e.2 := by
  induction es generalizing u with
  | nil => exact ⟨.refl h.wellFormed, h, nofun⟩
  | cons e es ih =>
    obtain ⟨he, hes⟩ := List.cons_subset.mp hes
    obtain ⟨huv, hvt, hnode⟩ := h.insert ht he
    obtain ⟨hvw, hwt, hnodes⟩ := ih hvt hes
    exact ⟨huv.trans hvw, hwt, List.forall_mem_cons.mpr ⟨hvw.node hnode, hnodes⟩⟩

include ht in
theorem WellFormed.ofEntries {es : List (List String × Node)} (hes : es.Perm t.entries) :
    (ofEntries t.workDir es).WellFormed ∧ SameNodes (ofEntries t.workDir es) t := by
  obtain ⟨_, hpart, hnodes⟩ := (partOf_empty t).foldl_insert ht hes.subset
  refine ⟨hpart.wellFormed, fun place => ?_, hpart.workDir⟩
  by_cases hne : place = []
  · rw [hne]
    rfl
  · apply Option.ext
    intro n
    refine ⟨hpart.node, fun hn => ?_⟩
    exact hnodes (place, n) (hes.mem_iff.mpr ((ht.node?_eq_some_iff hne).mp hn))

end Insertion

end FileTree

end RefDoc
