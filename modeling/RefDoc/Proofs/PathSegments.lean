import RefDoc.File.Path
import RefDoc.Proofs.Trim

namespace RefDoc.Path

variable {as bs cs here place above : List String} {s : String}

/-- The segment is one that counts wherever it stands in a path. -/
def Counts (s : String) : Prop :=
  s ≠ "" ∧ s ≠ "."

instance (s : String) : Decidable (Counts s) :=
  inferInstanceAs (Decidable (s ≠ "" ∧ s ≠ "."))

theorem counts_iff {s : String} : Counts s ↔ (s != "" && s != ".") = true := by
  rw [Bool.and_eq_true, bne_iff_ne, bne_iff_ne]
  rfl

theorem head?_ne_of_counts (ha : ∀ s ∈ as, Counts s) : as.head? ≠ some "" :=
  fun h => (ha "" (List.mem_of_head? h)).1 rfl

theorem isAbsolute_of_head?_ne (h : as.head? ≠ some "") : isAbsolute as = false := by
  unfold isAbsolute
  split
  · exact absurd rfl h
  · rfl

theorem components_append (ha : ∀ s ∈ as, Counts s) (hne : as ≠ []) (bs : List String) :
    components (as ++ bs) = as ++ bs.filter fun s => s != "" && s != "." := by
  have hfilter : (as ++ bs).filter (fun s => s != "" && s != ".") =
      as ++ bs.filter fun s => s != "" && s != "." := by
    rw [List.filter_append, List.filter_eq_self.mpr fun s hs => counts_iff.mp (ha s hs)]
  obtain ⟨a, as, rfl⟩ := List.exists_cons_of_ne_nil hne
  have hdot : a ≠ "." := (ha a List.mem_cons_self).2
  rw [← hfilter, List.cons_append, components]
  intro rest h
  exact hdot (List.cons.inj h).1

theorem rooted_append (ha : ∀ s ∈ as, Counts s) (hne : as ≠ []) (bs : List String) :
    rooted (as ++ bs) = as ++ bs.filter fun s => s != "" && s != "." := by
  have hhead : (as ++ bs).head? ≠ some "" := by
    rw [List.head?_append_of_ne_nil as hne]
    exact head?_ne_of_counts ha
  rw [rooted, isAbsolute_of_head?_ne hhead, components_append ha hne]
  rfl

/-- The name of a file or of a directory. -/
def IsOrdinary (s : String) : Prop :=
  s ≠ "" ∧ s ≠ "." ∧ s ≠ ".." ∧ '/' ∉ s.toList

instance (s : String) : Decidable (IsOrdinary s) :=
  inferInstanceAs (Decidable (s ≠ "" ∧ s ≠ "." ∧ s ≠ ".." ∧ '/' ∉ s.toList))

theorem step_name (hempty : s ≠ "") (hdot : s ≠ ".") (hdots : s ≠ "..") :
    step here s = here ++ [s] := by
  rw [step, beq_eq_false_iff_ne.mpr hempty, beq_eq_false_iff_ne.mpr hdot,
    beq_eq_false_iff_ne.mpr hdots]
  rfl

theorem mem_parents : above ∈ parents place ↔ ∃ k < place.length, place.take k = above := by
  simp only [parents, List.mem_map, List.mem_reverse, List.mem_range]

theorem mem_parents_append (above : List String) {below : List String} (h : below ≠ []) :
    above ∈ parents (above ++ below) := by
  refine mem_parents.mpr ⟨above.length, ?_, List.take_left⟩
  rw [List.length_append]
  exact Nat.lt_add_of_pos_right (List.length_pos_iff.mpr h)

theorem reverse_parents (place : List String) :
    (parents place).reverse = (List.range place.length).map place.take := by
  rw [parents, ← List.map_reverse, List.reverse_reverse]

theorem below?_append (as bs : List String) : below? as (as ++ bs) = some bs := by
  induction as with
  | nil => rfl
  | cons a as ih => rw [List.cons_append, below?, if_pos rfl, ih]

theorem below?_eq_some_iff : below? as bs = some cs ↔ bs = as ++ cs := by
  constructor
  · intro h
    fun_induction below? as bs with
    | case1 path =>
      cases h
      rfl
    | case2 => cases h
    | case3 a as bs ih => rw [ih h, List.cons_append]
    | case4 => cases h
  · rintro rfl
    exact below?_append as cs

theorem segments_ne_nil (path : String) : segments path ≠ [] := by
  rw [segments, ne_eq, List.map_eq_nil_iff]
  exact Text.splitWhere_ne_nil _

theorem ofSegments_segments (path : String) : ofSegments (segments path) = path := by
  apply String.toList_injective
  have hid : String.toList ∘ String.ofList = id := funext fun _ => String.toList_ofList
  rw [ofSegments, segments, String.toList_intercalate, List.map_map, hid, List.map_id]
  exact Text.intercalate_splitWhere '/' path.toList

theorem segments_ofSegments (hne : as ≠ []) (h : ∀ s ∈ as, '/' ∉ s.toList) :
    segments (ofSegments as) = as := by
  have hne' : as.map String.toList ≠ [] := mt List.map_eq_nil_iff.mp hne
  have h' : ∀ x ∈ as.map String.toList, '/' ∉ x := List.forall_mem_map.mpr h
  have hid : String.ofList ∘ String.toList = id := funext fun _ => String.ofList_toList
  rw [segments, ofSegments, String.toList_intercalate]
  exact (congrArg _ (Text.splitWhere_intercalate hne' h')).trans
    (by rw [List.map_map, hid, List.map_id])

theorem segments_dot (path : String) : segments ("./" ++ path) = "." :: segments path := by
  rw [segments, String.toList_append]
  rfl

theorem isAbsolute_segments (path : String) :
    isAbsolute (segments path) = (path.toList.head? == some '/') := by
  rw [segments]
  cases path.toList with
  | nil => rfl
  | cons c cs =>
    have hne : Text.splitWhere (· == '/') cs ≠ [] := Text.splitWhere_ne_nil cs
    obtain ⟨piece, pieces, hpieces⟩ := List.exists_cons_of_ne_nil hne
    rw [Text.splitWhere, hpieces]
    by_cases hc : c = '/'
    · subst hc
      rfl
    · rw [beq_eq_false_iff_ne.mpr hc, isAbsolute_of_head?_ne]
      · simpa using hc
      · simp [Text.consFirst]

theorem segments_of_not_mem {name : String} (h : '/' ∉ name.toList) : segments name = [name] := by
  rw [segments, Text.splitWhere_eq_singleton (Text.not_mem_iff_beq.1 h), List.map_singleton,
    String.ofList_toList]

theorem segments_append_slash (path : String) {name : String} (h : '/' ∉ name.toList) :
    segments (path ++ "/" ++ name) = segments path ++ [name] := by
  have htext : (path ++ "/" ++ name).toList = path.toList ++ '/' :: name.toList := by simp
  have hname := segments_of_not_mem h
  rw [segments] at hname
  rw [segments, htext, Text.splitWhere_append_sep _ _ (by decide), List.map_append, hname, segments]

theorem exists_eq_append_slash {dir : String} (h : dir.toList.getLast?.all (· == '/') = true) :
    dir = "" ∨ ∃ path, dir = path ++ "/" := by
  rcases List.eq_nil_or_concat dir.toList with hnil | ⟨text, c, htext⟩
  · exact .inl (String.toList_eq_nil_iff.1 hnil)
  · rw [List.concat_eq_append] at htext
    rw [htext, List.getLast?_concat, Option.all_some, beq_iff_eq] at h
    subst h
    refine .inr ⟨String.ofList text, String.toList_injective ?_⟩
    rw [htext, String.toList_append, String.toList_ofList]
    rfl

/-- The segments of the path of a file in a directory. A slash at the end of the directory is not
doubled. -/
theorem segments_join (dir : String) {file : String} (h : '/' ∉ file.toList) :
    ∃ ss, segments (join dir file) = ss ++ [file] ∧
      (segments dir = ss ∨ segments dir = ss ++ [""]) := by
  rw [join]
  split
  · next hend =>
    rcases exists_eq_append_slash hend with rfl | ⟨path, rfl⟩
    · refine ⟨[], ?_, .inr rfl⟩
      rw [String.empty_append, segments_of_not_mem h, List.nil_append]
    · refine ⟨segments path, segments_append_slash path h, .inr ?_⟩
      rw [← segments_append_slash path (by simp), String.append_empty]
  · exact ⟨segments dir, segments_append_slash dir h, .inl rfl⟩

theorem isAbsolute_join (dir : String) {file : String} (h : '/' ∉ file.toList) :
    isAbsolute (segments (join dir file)) = isAbsolute (segments dir) := by
  rw [isAbsolute_segments, isAbsolute_segments, join]
  cases hdir : dir.toList with
  | nil =>
    have hhead : file.toList.head? ≠ some '/' := fun he => h (List.mem_of_head? he)
    simpa [hdir] using hhead
  | cons c cs => split <;> simp [hdir]

end RefDoc.Path
