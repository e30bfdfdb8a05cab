import RefDoc.Proofs.Depth
import RefDoc.Proofs.StructRoundTrip
import RefDoc.Proofs.WellFormed

namespace RefDoc

open Text Pattern Nesting

/-- The content of an attribute, on one line and with its square brackets closed. -/
@[mk_iff]
structure IsAttribute (c : List Char) : Prop where
  ne_nil : c ≠ []
  trimmed : Trimmed c
  line : '\n' ∉ c
  balanced : Balanced squareBrackets c

instance (c : List Char) : Decidable (IsAttribute c) :=
  decidable_of_iff' _ (isAttribute_iff c)

namespace Scan

variable {c l r w x y : List Char} {xs ys : List (List Char)}

def bracketed (c : List Char) : List Char :=
  '#' :: '[' :: (c ++ [']'])

/-- The text begins with an attribute, which ends at its first closing bracket. -/
def BeginsAttribute (w : List Char) : Prop :=
  ∃ x r, w = bracketed x ++ r ∧ x ≠ [] ∧ ']' ∉ x

theorem not_beginsAttribute_cons {d : Char} (h : d ≠ '#') (r : List Char) :
    ¬BeginsAttribute (d :: r) := by
  rintro ⟨x, r', hw, _⟩
  exact h (List.cons.inj hw).1

theorem beginsAttribute_of_accepts {m : List Char} (h : attributePattern.Accepts l m r) :
    BeginsAttribute (m ++ r) := by
  obtain ⟨ms, h⟩ := h
  obtain ⟨_, _, _, _, rfl, _, hs, h⟩ := reads_sequence_cons.mp h
  obtain ⟨rfl, _⟩ := (reads_literal _).mp hs
  obtain ⟨x, _, _, _, rfl, _, hx, h⟩ := reads_sequence_cons.mp h
  obtain ⟨_, _, _, _, rfl, _, he, h⟩ := reads_sequence_cons.mp h
  obtain ⟨rfl, _⟩ := (reads_literal _).mp he
  obtain ⟨rfl, _⟩ := reads_sequence_nil.mp h
  have hx := ((reads_group rfl).mp hx).1
  refine ⟨x, r, by simp [bracketed], (reads_many1_char.mp hx).1.1, ?_⟩
  exact not_mem_of_reads_except1 hx (List.mem_singleton_self _)

theorem rejects_of_not_beginsAttribute (h : ¬BeginsAttribute w) (l : List Char) :
    attributePattern.Rejects l w := by
  rintro m r rfl ha
  exact h (beginsAttribute_of_accepts ha)

theorem BeginsAttribute.of_append (h : BeginsAttribute (y ++ [']'] ++ r)) :
    BeginsAttribute (y ++ [']']) := by
  obtain ⟨x, r', hw, hne, hx⟩ := h
  have hw' : y ++ ']' :: r = '#' :: '[' :: x ++ ']' :: r' := by simpa [bracketed] using hw
  have hprefix : '#' :: '[' :: x <+: y := by
    apply prefix_of_not_mem (c := ']') hw'
    simp [hx]
  obtain ⟨z, rfl⟩ := hprefix
  have hz : z ++ ']' :: r = ']' :: r' := by simpa using hw'
  cases z with
  | nil => exact ⟨x, [], by simp [bracketed], hne, hx⟩
  | cons d z =>
    obtain ⟨rfl, _⟩ := List.cons.inj hz
    exact ⟨x, z ++ [']'], by simp [bracketed], hne, hx⟩

/-- A search for attributes from left to right, with the contents that it finds. An attribute is
taken whole, and a character is passed over only where none begins. -/
inductive Attributes : List Char → List (List Char) → Prop
  | nil : Attributes [] []
  | take {x r : List Char} {xs : List (List Char)} :
      x ≠ [] → ']' ∉ x → Attributes r xs → Attributes (bracketed x ++ r) (x :: xs)
  | skip {d : Char} {r : List Char} {xs : List (List Char)} :
      ¬BeginsAttribute (d :: r) → Attributes r xs → Attributes (d :: r) xs

theorem exists_attributes (w : List Char) : ∃ xs, Attributes w xs := by
  induction hn : w.length using Nat.strongRecOn generalizing w with
  | ind n ih =>
    subst hn
    by_cases h : BeginsAttribute w
    · obtain ⟨x, r, rfl, hne, hx⟩ := h
      have hlt : r.length < (bracketed x ++ r).length := by
        simp only [bracketed, List.length_append, List.length_cons]
        omega
      obtain ⟨xs, hxs⟩ := ih _ hlt r rfl
      exact ⟨x :: xs, .take hne hx hxs⟩
    · cases w with
      | nil => exact ⟨[], .nil⟩
      | cons d w =>
        obtain ⟨xs, hxs⟩ := ih _ (Nat.lt_succ_self _) w rfl
        exact ⟨xs, .skip h hxs⟩

theorem Attributes.map_findFrom (h : Attributes w xs) :
    ∀ l, (attributePattern.findFrom l w).map (·.group .content) = xs := by
  induction h with
  | nil =>
    intro l
    have hrejects : attributePattern.Rejects l [] := by
      apply rejects_of_not_beginsAttribute
      rintro ⟨x, r, hw, _⟩
      cases hw
    rw [findFrom_nil hrejects]
    rfl
  | @take x r xs hne hx _ ih =>
    intro l
    obtain ⟨f, hf, _, _, hgroup⟩ :=
      (takes_attributePattern (l := l) (r := r) hne hx).exists_findFrom (by simp)
    have hcontent : f.group .content = x := by
      rw [Found.group, hgroup]
      rfl
    have htext : bracketed x = "#[".toList ++ (x ++ ("]".toList ++ [])) := by simp [bracketed]
    rw [htext, hf, List.map_cons, hcontent, ih]
  | skip hd _ ih =>
    intro l
    rw [findFrom_cons (rejects_of_not_beginsAttribute hd l)]
    exact ih _

theorem Attributes.attributeList_eq (h : Attributes w xs) :
    attributeList w = xs.map fun x => String.ofList (trim x) := by
  rw [attributeList, findAll_eq_findFrom, ← h.map_findFrom [], List.map_map]
  rfl

theorem Attributes.append (h : Attributes w xs) (hw : ∀ d ∈ w.getLast?, d = ']')
    (hr : Attributes r ys) : Attributes (w ++ r) (xs ++ ys) := by
  induction h with
  | nil => exact hr
  | take hne hx _ ih =>
    rw [List.append_assoc]
    exact .take hne hx (ih fun d hd => hw d (List.mem_getLast?_append_of_mem_getLast? hd))
  | @skip d w xs hd _ ih =>
    rw [List.cons_append]
    apply Attributes.skip
    · intro h
      obtain ⟨z, hz⟩ : ∃ z, d :: w = z ++ [']'] := by
        have hlast := List.getLast?_eq_some_getLast (List.cons_ne_nil d w)
        exact List.getLast?_eq_some_iff.mp (hw _ hlast ▸ hlast)
      rw [hz] at hd
      rw [← List.cons_append, hz] at h
      exact hd h.of_append
    · apply ih
      intro e he
      have hlast : e ∈ ([d] ++ w).getLast? := List.mem_getLast?_append_of_mem_getLast? he
      exact hw e hlast

theorem attributeList_bracketed_append (c r : List Char) :
    attributeList (bracketed c ++ r) = attributeList (bracketed c) ++ attributeList r := by
  obtain ⟨xs, hxs⟩ := exists_attributes (bracketed c)
  obtain ⟨ys, hys⟩ := exists_attributes r
  have hlast : ∀ d ∈ (bracketed c).getLast?, d = ']' := by simp [bracketed, List.getLast?_cons]
  rw [(hxs.append hlast hys).attributeList_eq, hxs.attributeList_eq, hys.attributeList_eq,
    List.map_append]

theorem attributeList_skip {d : Char} (h : d ≠ '#') (r : List Char) :
    attributeList (d :: r) = attributeList r := by
  obtain ⟨xs, hxs⟩ := exists_attributes r
  rw [(Attributes.skip (not_beginsAttribute_cons h r) hxs).attributeList_eq, hxs.attributeList_eq]

theorem attributeList_flatMap (cs : List String) :
    attributeList (cs.flatMap (attributeLine ·.toList)) =
      cs.flatMap fun c => attributeList (bracketed c.toList) := by
  induction cs with
  | nil => exact Attributes.nil.attributeList_eq
  | cons c cs ih =>
    have hline : attributeLine c.toList = bracketed c.toList ++ ['\n'] := by
      simp [attributeLine, bracketed]
    rw [List.flatMap_cons, List.flatMap_cons, hline, List.append_assoc,
      attributeList_bracketed_append, List.singleton_append, attributeList_skip (by decide), ih]

/-- The attributes that are recorded for one with content `c`. -/
def recordedAttributes (c : List Char) : List String :=
  String.ofList (trim (c.takeWhile (· != ']'))) ::
    attributeList ((c ++ [']']).dropWhile (· != ']')).tail

theorem attributeList_bracketed (hne : c ≠ []) (hc : c.head? ≠ some ']') :
    attributeList (bracketed c) = recordedAttributes c := by
  obtain ⟨xs, hxs⟩ := exists_attributes ((c ++ [']']).dropWhile (· != ']')).tail
  have hstart : c.takeWhile (· != ']') ≠ [] := by
    cases c with
    | nil => exact absurd rfl hne
    | cons d c =>
      have hd : (d != ']') = true := by simpa using hc
      simp [hd]
  have htext : bracketed c = bracketed (c.takeWhile (· != ']')) ++
      ((c ++ [']']).dropWhile (· != ']')).tail := by
    simp only [bracketed, List.cons_append, List.append_assoc, List.nil_append,
      ← append_eq_takeWhile_ne]
  rw [htext, (Attributes.take hstart (not_mem_takeWhile_ne _ _) hxs).attributeList_eq,
    List.map_cons, ← hxs.attributeList_eq]
  rfl

def attributedStruct (attributes : List String) (name : String) : String :=
  String.ofList (attributes.flatMap (attributeLine ·.toList) ++
    ("pub struct ".toList ++ (name.toList ++ (" \x7b".toList ++ ([' '] ++ "\x7d".toList)))))

theorem structs_attributedStruct {as : List String} {name : String}
    (has : ∀ a ∈ as, '\n' ∉ a.toList) (hname : IsName name.toList) (file : String) :
    ∃ s, structs (attributedStruct as name) file = [s] ∧ s.name = name ∧
      s.attributes = attributeList (as.flatMap (attributeLine ·.toList)) := by
  have htakes := takes_structParts (l := []) (r := []) (x := [' ']) has hname (by decide)
  obtain ⟨f, hfind, _, hgroup, _⟩ := opening_struct.exists_findFrom_blank (g := .doc) (l := [])
    blank_nil (.inr (opening_struct.rejects_docLine blank_nil htakes [])) (by simp) htakes
  rw [List.nil_append, List.append_nil, opening_struct.findFrom_eq_nil blank_nil] at hfind
  have hgroupName : f.group .name = name.toList := by
    rw [Found.group, hgroup]
    rfl
  have hgroupAttributes : f.group .attributes = as.flatMap (attributeLine ·.toList) := by
    rw [Found.group, hgroup]
    rfl
  refine ⟨structDecl (attributedStruct as name).toList file f, ?_, ?_, ?_⟩
  · rw [structs, findAll_eq_findFrom, structPattern, attributedStruct, String.toList_ofList, hfind]
    rfl
  · exact (congrArg String.ofList hgroupName).trans String.ofList_toList
  · exact congrArg attributeList hgroupAttributes

/-- Each attribute of a struct is recorded up to its first closing bracket, and what stands behind
it is searched for more. So the attributes are recorded as they stand exactly if none has a closing
bracket of its own. -/
theorem attributes_upTo_bracket (cs : List String) (name file : String)
    (hcs : ∀ c ∈ cs, IsAttribute c.toList) (hname : IsName name.toList) :
    ∃ s, structs (attributedStruct cs name) file = [s] ∧ s.name = name ∧
      s.attributes = cs.flatMap (fun c => recordedAttributes c.toList) ∧
      (s.attributes = cs ↔ ∀ c ∈ cs, ']' ∉ c.toList) := by
  obtain ⟨s, hs, hsname, hattributes⟩ :=
    structs_attributedStruct (fun c hc => (hcs c hc).line) hname file
  refine ⟨s, hs, hsname, ?_, ?_, ?_⟩
  · rw [hattributes, attributeList_flatMap]
    apply List.flatMap_congr
    intro c hc
    have hopen : squareBrackets.lookup ']' = none := by decide
    exact attributeList_bracketed (hcs c hc).ne_nil
      ((hcs c hc).balanced.head?_ne hopen (by decide))
  · intro heq c hc
    rw [← heq, hattributes] at hc
    exact (wellFormed_of_mem_attributeList hc).2
  · intro hbracket
    rw [hattributes]
    exact attributeList_lines fun c hc => ⟨(hcs c hc).ne_nil, (hcs c hc).trimmed, hbracket c hc⟩

theorem attributes_of_account :
    (∀ c ∈ ["account(zero_copy)", "derive(Debug, Clone)"], IsAttribute c.toList) ∧
    ∃ s, structs (attributedStruct ["account(zero_copy)", "derive(Debug, Clone)"] "Vault") "v.rs" =
      [s] ∧ s.attributes = ["account(zero_copy)", "derive(Debug, Clone)"] := by
  have hcs : ∀ c ∈ ["account(zero_copy)", "derive(Debug, Clone)"], IsAttribute c.toList := by
    decide +kernel
  obtain ⟨s, hs, _, _, hwhole⟩ := attributes_upTo_bracket _ "Vault" "v.rs" hcs (by decide)
  exact ⟨hcs, s, hs, hwhole.mpr (by decide)⟩

/-- An attribute with an array in it is cut, and one that looks like two is split. -/
theorem attributes_of_brackets :
    (∀ c ∈ ["a([u8; 4])", "b[0] #[c]"], IsAttribute c.toList) ∧
    (structs (attributedStruct ["a([u8; 4])", "b[0] #[c]"] "N") "n.rs").map (·.attributes) =
      [["a([u8; 4", "b[0", "c"]] := by
  decide +kernel

end Scan

end RefDoc
