import RefDoc.Proofs.FieldRoundTrip
import RefDoc.Proofs.LineEndCheck
import RefDoc.Proofs.WellFormed

namespace RefDoc

open Text Pattern DocComment

namespace LineEnd

variable {γ : Type} {loose : Mark γ → Bool} {p : Pattern γ} {t : List Char}
  {f f' : Found γ} {g : γ}

/-- What a search for the pattern finds in a text, and what it finds there if the text has
returns. -/
structure Returned (loose : Mark γ → Bool) (p : Pattern γ) (t : List Char) (f f' : Found γ) :
    Prop where
  reading : f.IsReading p t
  corresponds : f.Corresponds (Carries loose t) (Change.lineEnds.Carries t) f'

theorem forall₂_returned {c : Grade} (hp : ∀ l r, ¬p.Accepts l [] r)
    (hc : grade? loose p .agreeing = some c) (hagree : c.isAgreeing = true) (t : List Char) :
    List.Forall₂ (Returned loose p t) (p.findAll t) (p.findAll (crlf t)) := by
  have h : c.Holds loose t (p.run accept) (p.run accept) :=
    holds_of_grade? hc (show Grade.agreeing.Holds loose t accept accept from agreeing_accept)
  have hfound := (h.agreeing hagree).forall₂_findAll hp
  have hreading : ∀ f ∈ p.findAll t, f.IsReading p t := fun f hf => isReading_of_mem_findAll hf
  exact ((List.forall₂_and_left _ _).mpr ⟨hreading, hfound⟩).imp fun f f' h => ⟨h.1, h.2⟩

theorem carries_of_not_loose {m : Mark γ} {x y : Place} (hm : loose m = false)
    (h : Carries loose t m x y) : Change.lineEnds.Carries t x y := by
  rcases h with h | ⟨hl, _⟩
  · exact h
  · rw [hm] at hl
    cases hl

theorem trim_textTo_middle {l r : List Char} {y y' : Place} (ht : t = l ++ '\n' :: r)
    (hy : Change.lineEnds.Carries t y y') :
    trim ((middle l r).textTo y') = crlf (trim ((Place.between l ('\n' :: r)).textTo y)) := by
  obtain ⟨l₂, r₂, ht₂, rfl, rfl⟩ := hy
  change trim ((middle l r).textTo (.between (crlf l₂) (crlf r₂))) = _
  have hfront (h : l₂ <+: l) : (middle l r).textTo (.between (crlf l₂) (crlf r₂)) = [] ∧
      (Place.between l ('\n' :: r)).textTo (.between l₂ r₂) = [] := by
    obtain ⟨m, rfl⟩ := h
    simp [middle, Place.textTo, crlf_append]
  rcases List.append_eq_append_iff.mp (ht.symm.trans ht₂) with ⟨m, rfl, hm⟩ | ⟨m, rfl, rfl⟩
  · cases m with
    | nil =>
      obtain ⟨h, h₂⟩ := hfront ⟨[], by rw [List.append_nil, List.append_nil]⟩
      rw [h, h₂]
      rfl
    | cons d m =>
      obtain ⟨rfl, hr⟩ := List.cons.inj hm
      obtain rfl : r = m ++ r₂ := hr
      have h : (middle l (m ++ r₂)).textTo (.between (crlf (l ++ '\n' :: m)) (crlf r₂)) =
          '\n' :: crlf m := by
        have hl : crlf (l ++ '\n' :: m) = crlf l ++ ['\r'] ++ '\n' :: crlf m := by
          rw [crlf_append, crlf_newline, List.append_assoc]
          rfl
        rw [hl, middle, crlf_append]
        exact Place.textTo_between ..
      have h₂ : (Place.between l ('\n' :: (m ++ r₂))).textTo (.between (l ++ '\n' :: m) r₂) =
          '\n' :: m :=
        Place.textTo_between ..
      rw [h, h₂, trim_cons_blank isBlank_newline, trim_cons_blank isBlank_newline, trim_crlf]
  · obtain ⟨h, h₂⟩ := hfront (List.prefix_append l₂ m)
    rw [h, h₂]
    rfl

namespace Returned

theorem lineOf_eq (h : Returned loose p t f f') : Scan.lineOf f' = Scan.lineOf f := by
  obtain ⟨l, r, _, hx, hy⟩ := h.corresponds.start
  have htext : f'.text = crlf f.text := h.corresponds.text_eq
  have hline : f'.start.line = (crlf l).count '\n' + 1 := by rw [hy]; rfl
  rw [Scan.lineOf, Scan.lineOf, htext, hline, hx, Place.between_line, takeWhile_crlf rfl,
    count_crlf, count_crlf]

theorem rest_eq (h : Returned loose p t f f') : f'.stop.rest = crlf f.stop.rest := by
  obtain ⟨l, r, _, hx, hy⟩ := h.corresponds.stop
  rw [hx, hy]
  rfl

variable [DecidableEq γ]

theorem group?_eq (h : Returned loose p t f f') (ho : loose (.opening g) = false)
    (hc : loose (.closing g) = false) : f'.group? g = (f.group? g).map crlf :=
  capture_eq_map (e := .lineEnds) h.corresponds.marks (fun _ _ => carries_of_not_loose ho)
    fun _ _ => carries_of_not_loose hc

theorem group_eq (h : Returned loose p t f f') (ho : loose (.opening g) = false)
    (hc : loose (.closing g) = false) : f'.group g = crlf (f.group g) := by
  rw [Found.group, Found.group, h.group?_eq ho hc]
  cases f.group? g with
  | none => rfl
  | some m => rfl

theorem map_trim_group? (h : Returned loose p t f f') (hc : loose (.closing g) = false) :
    (f'.group? g).map trim = ((f.group? g).map trim).map crlf := by
  have hrel : Option.Rel (fun m m' => trim m' = crlf (trim m)) (f.group? g) (f'.group? g) := by
    apply rel_capture h.corresponds.marks
    intro x x' y y' hx hy
    have hy := carries_of_not_loose hc hy
    rcases hx with hx | ⟨_, l, r, ht, rfl, rfl⟩
    · have htext : x'.textTo y' = crlf (x.textTo y) := Change.textTo_of_carries hx hy
      rw [htext, trim_crlf]
    · exact trim_textTo_middle ht hy
  rw [Option.map_map]
  exact map_eq_of_rel hrel fun m m' h => h

theorem trim_group_eq (h : Returned loose p t f f') (hc : loose (.closing g) = false) :
    trim (f'.group g) = crlf (trim (f.group g)) := by
  have htrim (m : Option (List Char)) : trim (m.getD []) = (m.map trim).getD [] := by
    cases m with
    | none => rfl
    | some m => rfl
  rw [Found.group, Found.group, htrim, htrim, h.map_trim_group? hc]
  cases (f.group? g).map trim with
  | none => rfl
  | some m => rfl

end Returned

end LineEnd

namespace Scan

open LineEnd

theorem not_mem_of_isName {n : List Char} {c : Char} (h : IsName n) (hc : isBlank c = true) :
    c ∉ n := by
  intro hmem
  rw [isBlank_eq_false_of_isWord (h.2 c hmem)] at hc
  cases hc

theorem crlf_of_isName {n : List Char} (h : IsName n) : crlf n = n :=
  crlf_eq_self (not_mem_of_isName h isBlank_newline)

theorem newline_not_mem_attribute {γ : Type} {l m r a b c : List Char} {ms : List (Mark γ × Place)}
    (h : Reads (attributes : Pattern γ) l m r ms) (hm : m = a ++ '#' :: '[' :: (c ++ ']' :: b))
    (hc : ']' ∉ c) : '\n' ∉ c := by
  rw [attributes] at h
  induction hn : m.length using Nat.strongRecOn generalizing l m a ms with
  | ind N ih =>
    subst hn
    rcases reads_many.mp h with ⟨rfl, _⟩ | ⟨m₁, n, _, _, rfl, _, hpart, hrest⟩
    · exact absurd hm (List.append_ne_nil_of_right_ne_nil a (List.cons_ne_nil _ _)).symm
    · obtain ⟨x, ws, rfl, hx, hws⟩ := reads_attributePart hpart
      have hparts : ('#' :: '[' :: x) ++ ']' :: (ws ++ n) =
          a ++ (('#' :: '[' :: c) ++ ']' :: b) := by
        simpa using hm
      rcases List.append_eq_append_iff.mp hparts with ⟨y, rfl, hy⟩ | ⟨y, hy, hb⟩
      · -- It begins behind the first attribute, and so behind the white space too.
        have hbracket : '#' ∉ ']' :: ws := by
          intro hmem
          rcases List.mem_cons.mp hmem with hmem | hmem
          · cases hmem
          · cases hws _ hmem
        obtain ⟨z, rfl⟩ := prefix_of_not_mem (r := n) hy.symm hbracket
        have hz : n = z ++ '#' :: '[' :: (c ++ ']' :: b) := by simpa using hy
        exact ih n.length (by simp; omega) hrest hz rfl
      · have hbracket : ']' ∉ '#' :: '[' :: c := by simpa using hc
        have hsub := (prefix_of_not_mem hb.symm hbracket).subset
        intro hnewline
        have hmem : '\n' ∈ '#' :: '[' :: x := by
          rw [hy]
          exact List.mem_append_right a (hsub (by simp [hnewline]))
        simp at hmem
        exact hx hmem

theorem newline_not_mem_content {γ : Type} {l m r : List Char} {ms : List (Mark γ × Place)}
    {f : Found AttributePart} (h : Reads (attributes : Pattern γ) l m r ms)
    (hf : f.IsReading attributePattern m) : '\n' ∉ f.group .content := by
  obtain ⟨a, w, b, hm, _, _, hreads⟩ := hf
  obtain ⟨_, w, _, _, rfl, hmarks, hopening, h₁⟩ := reads_sequence_cons.mp hreads
  obtain ⟨rfl, rfl⟩ := (reads_literal _).mp hopening
  obtain ⟨c, w, _, _, rfl, rfl, hcontent, h₂⟩ := reads_sequence_cons.mp h₁
  obtain ⟨hc, rfl⟩ := (reads_group rfl).mp hcontent
  obtain ⟨_, w, _, _, rfl, rfl, hclosing, h₃⟩ := reads_sequence_cons.mp h₂
  obtain ⟨rfl, _⟩ := (reads_literal _).mp hclosing
  obtain ⟨rfl, _⟩ := reads_sequence_nil.mp h₃
  have hgroup : f.group .content = c := by
    rw [Found.group, Found.group?, hmarks, List.nil_append, capture_captured]
    rfl
  rw [hgroup]
  exact newline_not_mem_attribute (a := a) (b := b) h (by simpa using hm)
    (not_mem_of_reads_except1 hc (List.mem_singleton_self _))

theorem attributeList_crlf {γ : Type} {l m r : List Char} {ms : List (Mark γ × Place)}
    (h : Reads (attributes : Pattern γ) l m r ms) : attributeList (crlf m) = attributeList m := by
  have hne (l r : List Char) : ¬attributePattern.Accepts l [] r :=
    not_accepts_nil_of_literal (s := "#[") (by simp) (by simp) l r
  have hgrade : grade? (fun _ => false) attributePattern .agreeing = some .inked := by decide
  rw [attributeList, attributeList]
  apply map_eq_of_forall₂ (forall₂_returned hne hgrade rfl m)
  intro f f' hf
  rw [hf.group_eq rfl rfl, crlf_eq_self (newline_not_mem_content h hf.reading)]

theorem fieldList_crlf (body : List Char) : fieldList (crlf body) = fieldList body := by
  have hgrade : grade? (fun _ => false) fieldPattern .agreeing = some .agreeing := by decide
  rw [fieldList, fieldList]
  apply filterMap_eq_of_forall₂ (forall₂_returned not_accepts_fieldPattern hgrade rfl body)
  intro f f' hf
  obtain ⟨l, r, hname⟩ := hf.reading.reads_group (g := .name) (i := 4) rfl (by decide) rfl
  rw [fieldAt?, fieldAt?, hf.rest_eq, fieldType_crlf, hf.group_eq rfl rfl, hf.group_eq rfl rfl,
    clean_crlf, crlf_of_isName (reads_many1_char.mp hname).1]

theorem grade?_sizePattern {n : List Char} (hn : IsName n) :
    grade? (· = .opening .body) (sizePattern n) .agreeing = some .inked := by
  have hchars : ∀ x ∈ n, x ≠ '\n' ∧ x ≠ '\r' := by
    intro x hx
    refine ⟨?_, ?_⟩
    · rintro rfl
      exact not_mem_of_isName hn (by decide) hx
    · rintro rfl
      exact not_mem_of_isName hn (by decide) hx
  have hname : grade? (· = .opening SizePart.body) (sequence [charList n]) .agreeing =
      some .inked :=
    congrArg (Option.bind · _) (grade?_charList hn.1 hchars rfl)
  obtain ⟨ps, qs, hparts, hback, hfront⟩ : ∃ ps qs,
      sizePattern n = sequence (ps ++ ([charList n] ++ qs)) ∧
      grade? (· = .opening SizePart.body) (sequence qs) .agreeing = some .agreeing ∧
      grade? (· = .opening .body) (sequence ps) .inked = some .inked :=
    ⟨[_, _, _, _, _], _, rfl, by decide, by decide⟩
  rw [hparts, grade?_sequence_append, grade?_sequence_append, hback, Option.bind_some, hname,
    Option.bind_some, hfront]

theorem sizeBody_crlf {n : List Char} (hn : IsName n) (t : List Char) :
    sizeBody (crlf t) n = (sizeBody t n).map crlf := by
  have hrel := rel_head?
    (forall₂_returned (not_accepts_sizePattern n) (grade?_sizePattern hn) rfl t)
  rw [← find?_eq_head?, ← find?_eq_head?] at hrel
  rw [sizeBody, sizeBody, Option.bind_eq_bind, Option.map_bind]
  apply bind_eq_of_rel hrel
  intro f f' hf
  simp only [Function.comp_apply, hf.trim_group_eq rfl, isEmpty_crlf]
  split
  · rfl
  · rfl

theorem returnType_crlf {a b : Option (List Char)} (h : b.map trim = (a.map trim).map crlf) :
    returnType b = crlf (returnType a) := by
  rw [returnType, returnType, h]
  cases a.map trim with
  | none => rfl
  | some m =>
    cases m with
    | nil => rfl
    | cons c m =>
      by_cases hc : c = '\n'
      · subst c
        rfl
      · rw [Option.map_some, crlf_cons hc]

end Scan

/-- The text with a carriage return in front of every newline. -/
def Text.withReturns (s : String) : String :=
  String.ofList (crlf s.toList)

theorem Text.withReturns_ofList (t : List Char) :
    withReturns (String.ofList t) = String.ofList (crlf t) := by
  rw [withReturns, String.toList_ofList]

theorem Text.withReturns_eq_self {s : String} (h : '\n' ∉ s.toList) : withReturns s = s := by
  rw [withReturns, crlf_eq_self h, String.ofList_toList]

theorem Text.withReturns_append (a b : String) :
    withReturns (a ++ b) = withReturns a ++ withReturns b := by
  rw [withReturns, String.toList_append, crlf_append, String.ofList_append]
  rfl

/-- A type is on one line, but a name is kept as it is written. -/
def Param.withReturns (p : Param) : Param :=
  { p with name := Text.withReturns p.name }

def StructDecl.withReturns (s : StructDecl) : StructDecl :=
  { s with sizeCalculation := s.sizeCalculation.map Text.withReturns }

def FunctionDecl.withReturns (f : FunctionDecl) : FunctionDecl :=
  { f with
    signature := Text.withReturns f.signature
    params := f.params.map Param.withReturns
    returnType := Text.withReturns f.returnType }

def Declaration.withReturns : Declaration → Declaration
  | .struct s => .struct s.withReturns
  | .function f => .function f.withReturns

namespace Scan

open LineEnd

theorem param?_crlf (piece : List Char) :
    param? (crlf piece) = (param? piece).map Param.withReturns := by
  have hdrop (t : List Char) : (crlf t).dropWhile (· != ':') = crlf (t.dropWhile (· != ':')) :=
    dropWhile_crlf rfl t
  have htake (t : List Char) : (crlf t).takeWhile (· != ':') = crlf (t.takeWhile (· != ':')) :=
    takeWhile_crlf rfl t
  rw [param?, param?, trim_crlf, hdrop, htake, paramName_crlf]
  cases hd : (trim piece).dropWhile (· != ':') with
  | nil => rfl
  | cons c type =>
    have hc : c = ':' := by
      have hhead := List.head?_dropWhile_not (· != ':') (trim piece)
      rw [hd] at hhead
      simpa using hhead
    rw [crlf_cons (by rw [hc]; decide)]
    simp only [isEmpty_crlf, trim_crlf, oneLine_crlf]
    split
    · rfl
    · rw [Option.map_some, Param.withReturns, withReturns_ofList]

theorem paramList_crlf (t : List Char) :
    paramList (crlf t) = (paramList t).map Param.withReturns := by
  rw [paramList, paramList, Nesting.splitAtCommas_crlf, List.filterMap_map, List.map_filterMap]
  exact congrArg (List.filterMap · _) (funext param?_crlf)

theorem structDecl_of_returned {t : List Char} {f f' : Found StructPart}
    (h : Returned (fun _ => false) structPattern t f f') (file : String) :
    structDecl (crlf t) file f' = (structDecl t file f).withReturns := by
  obtain ⟨l, r, hname⟩ := h.reading.reads_group (g := .name) (i := 7) rfl (by decide) rfl
  obtain ⟨l', r', hattributes⟩ :=
    h.reading.reads_group (g := .attributes) (i := 2) rfl (by decide) rfl
  have hname : IsName (f.group .name) := (reads_many1_char.mp hname).1
  have hsize : (sizeBody (crlf t) (f.group .name)).map String.ofList =
      ((sizeBody t (f.group .name)).map String.ofList).map withReturns := by
    rw [sizeBody_crlf hname, Option.map_map, Option.map_map]
    exact congrArg (Option.map · _) (funext fun m => (withReturns_ofList m).symm)
  simp only [structDecl, StructDecl.withReturns, h.group_eq rfl rfl, h.lineOf_eq, clean_crlf,
    fieldList_crlf, attributeList_crlf hattributes, crlf_of_isName hname, hsize]

theorem functionDecl_of_returned {t : List Char} {f f' : Found FunctionPart}
    (h : Returned (· = .opening .result) functionPattern t f f') (file : String) :
    functionDecl file f' = (functionDecl file f).withReturns := by
  obtain ⟨l, r, hreads⟩ := h.reading.reads_group (g := .name) (i := 8) rfl (by decide) rfl
  have hcrlf : crlf (f.group .name) = f.group .name := crlf_of_isName (reads_many1_char.mp hreads).1
  have hname : f'.group .name = f.group .name := (h.group_eq rfl rfl).trans hcrlf
  have hdoc : f'.group .doc = crlf (f.group .doc) := h.group_eq rfl rfl
  have hparams : f'.group .params = crlf (f.group .params) := h.group_eq rfl rfl
  have hvisibility : (f'.group? .visibility).isSome = (f.group? .visibility).isSome := by
    rw [h.group?_eq rfl rfl, Option.isSome_map]
  have hresult : returnType (f'.group? .result) = crlf (returnType (f.group? .result)) :=
    returnType_crlf (h.map_trim_group? rfl)
  have hkeyword : withReturns "fn " = "fn " := withReturns_eq_self (by decide)
  have hopening : withReturns "(" = "(" := withReturns_eq_self (by decide)
  have hclosing : withReturns ") -> " = ") -> " := withReturns_eq_self (by decide)
  simp only [functionDecl, FunctionDecl.withReturns, hname, hdoc, clean_crlf, hparams, hvisibility,
    hresult, h.lineOf_eq, paramList_crlf, withReturns_append, withReturns_ofList, hcrlf, hkeyword,
    hopening, hclosing]

theorem structs_withReturns (text file : String) :
    structs (withReturns text) file = (structs text file).map StructDecl.withReturns := by
  have hgrade : grade? (fun _ => false) structPattern .agreeing = some .agreeing := by decide
  rw [structs, structs, withReturns, String.toList_ofList, List.map_map]
  apply map_eq_of_forall₂ (forall₂_returned not_accepts_structPattern hgrade rfl text.toList)
  exact fun f f' hf => structDecl_of_returned hf file

theorem functions_withReturns (text file : String) :
    functions (withReturns text) file = (functions text file).map FunctionDecl.withReturns := by
  have hgrade : grade? (· = .opening .result) functionPattern .agreeing =
    some .agreeing := by decide
  rw [functions, functions, withReturns, String.toList_ofList, List.map_map]
  apply map_eq_of_forall₂ (forall₂_returned not_accepts_functionPattern hgrade rfl text.toList)
  exact fun f f' hf => functionDecl_of_returned hf file

/-- Carriage returns in front of all newlines of a source change no declaration but for the returns
in the parts that are kept as they are written. -/
theorem declarations_withReturns (text file : String) :
    declarations (withReturns text) file =
      (declarations text file).map Declaration.withReturns := by
  rw [declarations, declarations, structs_withReturns, functions_withReturns, List.map_append,
    List.map_map, List.map_map, List.map_map, List.map_map]
  rfl

end Scan

end RefDoc
