import RefDoc.Proofs.Opening
import RefDoc.Proofs.ParamRoundTrip

namespace RefDoc

open Text Pattern DocComment Nesting

variable {l r : List Char}

inductive Qualifier where
  | constant
  | asynchronous
  | unchecked
  | foreign (abi : String)
deriving DecidableEq, Repr

def Qualifier.text : Qualifier → List Char
  | .constant => "const".toList
  | .asynchronous => "async".toList
  | .unchecked => "unsafe".toList
  | .foreign abi => "extern".toList ++
      ([' '] ++ ("\"".toList ++ (abi.toList ++ ("\"".toList ++ []))))

/-- The quotation marks around an ABI are the first and the last in the qualifier. -/
def Qualifier.Readable : Qualifier → Prop
  | .foreign abi => '"' ∉ abi.toList
  | _ => True

instance Qualifier.decidableReadable (q : Qualifier) : Decidable q.Readable :=
  match q with
  | .constant | .asynchronous | .unchecked => .isTrue trivial
  | .foreign abi => inferInstanceAs (Decidable ('"' ∉ abi.toList))

/-- What is written in a source to declare a function. -/
structure FunctionItem where
  doc : String
  attributes : List String
  isPublic : Bool
  qualifiers : List Qualifier
  name : String
  receiver : Option String
  params : List Param
  result : Option String
  hasBody : Bool
deriving DecidableEq, Repr

namespace FunctionItem

def visibility (f : FunctionItem) : List Char :=
  if f.isPublic then "pub ".toList else []

def qualification (f : FunctionItem) : List Char :=
  f.qualifiers.flatMap (·.text ++ [' '])

def arrow : Option String → List Char
  | none => []
  | some type => " -> ".toList ++ type.toList

/-- The lines of a function, without the end of the last one. -/
def lines (f : FunctionItem) : List Char :=
  comments (ofText [] f.doc.toList) ++ (f.attributes.flatMap (Scan.attributeLine ·.toList) ++
    (f.visibility ++ (f.qualification ++ ("fn ".toList ++ (f.name.toList ++ ("(".toList ++
      (arguments f.receiver f.params ++ (")".toList ++ (arrow f.result ++
        if f.hasBody then " \x7b\n\x7d".toList else ";".toList)))))))))

def source (f : FunctionItem) : List Char :=
  f.lines ++ ['\n']

/-- The record of a function that begins on the line `n` of the source. -/
def record (file : String) (f : FunctionItem) (n : Nat) : FunctionDecl where
  name := f.name
  doc := f.doc
  signature := "fn " ++ f.name ++ "(" ++ String.ofList (arguments f.receiver f.params) ++ ") -> " ++
    f.result.getD "()"
  sourceFile := file
  line := n
  isPublic := f.isPublic
  params := f.params
  returnType := f.result.getD "()"

@[mk_iff]
structure Readable (f : FunctionItem) : Prop where
  doc : CleanForm f.doc.toList
  attributes : ∀ c ∈ f.attributes, '\n' ∉ c.toList
  qualifiers : ∀ q ∈ f.qualifiers, q.Readable
  name : IsName f.name.toList
  receiver : ∀ t ∈ f.receiver, ReadableReceiver t.toList
  params : ∀ p ∈ f.params, p.Readable
  result : ∀ t ∈ f.result,
    t.toList ≠ [] ∧ Trimmed t.toList ∧ '{' ∉ t.toList ∧ ';' ∉ t.toList

instance decidableReadable (f : FunctionItem) : Decidable f.Readable :=
  decidable_of_iff' _ (readable_iff f)

end FunctionItem

namespace Scan

theorem prefers_qualifierWord {q : Qualifier} (hq : q.Readable) :
    Prefers qualifierWord l q.text r [] := by
  cases q with
  | constant => exact .left (.literal _)
  | asynchronous =>
    have hconst : ¬"const".toList <+: "async".toList ++ r := by simp
    exact .right (rejects_literal hconst) (.left (.literal _))
  | unchecked =>
    have hconst : ¬"const".toList <+: "unsafe".toList ++ r := by simp
    have hasync : ¬"async".toList <+: "unsafe".toList ++ r := by simp
    exact .right (rejects_literal hconst) (.right (rejects_literal hasync) (.left (.literal _)))
  | foreign abi =>
    have hconst (t : List Char) : ¬"const".toList <+: "extern".toList ++ t ++ r := by simp
    have hasync (t : List Char) : ¬"async".toList <+: "extern".toList ++ t ++ r := by simp
    have hunchecked (t : List Char) : ¬"unsafe".toList <+: "extern".toList ++ t ++ r := by simp
    apply Prefers.right (rejects_literal (hconst _))
    apply Prefers.right (rejects_literal (hasync _))
    apply Prefers.right (rejects_literal (hunchecked _))
    apply Prefers.skip (.literal _)
    apply Prefers.skip (.space (.cons rfl _))
    apply Prefers.skip (.literal _)
    apply Prefers.skip (.many_char (except_of_not_mem hq) (.cons rfl _))
    exact .skip (.literal _) .nil

theorem begins_text (q : Qualifier) : Begins ['c', 'a', 'u', 'e'] q.text := by
  cases q with
  | constant => exact ⟨'c', _, rfl, by decide⟩
  | asynchronous => exact ⟨'a', _, rfl, by decide⟩
  | unchecked => exact ⟨'u', _, rfl, by decide⟩
  | foreign abi => exact ⟨'e', _, rfl, by decide⟩

theorem begins_qualification (qs : List Qualifier) (r : List Char) :
    Begins ['c', 'a', 'u', 'e', 'f'] (qs.flatMap (·.text ++ [' ']) ++ 'f' :: r) := by
  cases qs with
  | nil => exact ⟨'f', r, rfl, by decide⟩
  | cons q qs =>
    rw [List.flatMap_cons, List.append_assoc, List.append_assoc]
    exact ((begins_text q).append _).mono (forall_mem_of_all rfl)

theorem begins_visibility (f : FunctionItem) (r : List Char) :
    Begins ['p', 'c', 'a', 'u', 'e', 'f'] (f.visibility ++ (f.qualification ++ 'f' :: r)) := by
  rw [FunctionItem.visibility]
  split
  · exact ⟨'p', _, rfl, by decide⟩
  · exact (begins_qualification f.qualifiers r).mono (forall_mem_of_all rfl)

theorem begins_of_reads_qualifierWord {m : List Char} {ms : List (Mark FunctionPart × Place)}
    (h : Reads qualifierWord l m r ms) : Begins ['c', 'a', 'u', 'e'] m := by
  rcases reads_alt.mp h with h | h
  · obtain ⟨rfl, _⟩ := (reads_literal _).mp h
    exact begins_text .constant
  rcases reads_alt.mp h with h | h
  · obtain ⟨rfl, _⟩ := (reads_literal _).mp h
    exact begins_text .asynchronous
  rcases reads_alt.mp h with h | h
  · obtain ⟨rfl, _⟩ := (reads_literal _).mp h
    exact begins_text .unchecked
  · obtain ⟨_, z, _, _, rfl, _, hs, _⟩ := reads_sequence_cons.mp h
    obtain ⟨rfl, _⟩ := (reads_literal _).mp hs
    exact ⟨'e', _, rfl, by decide⟩

theorem prefers_qualifiers {qs : List Qualifier} (hqs : ∀ q ∈ qs, q.Readable) :
    Prefers qualifiers l (qs.flatMap (·.text ++ [' '])) ('f' :: r) [] := by
  rw [qualifiers]
  induction qs generalizing l with
  | nil =>
    apply Prefers.stop
    apply Rejects.head
    intro m r' hm ha
    obtain ⟨ms, ha⟩ := ha
    obtain ⟨c, z, rfl, hc⟩ := begins_of_reads_qualifierWord ha
    cases hm
    revert hc
    decide
  | cons q qs ih =>
    obtain ⟨hq, hqs⟩ := List.forall_mem_cons.mp hqs
    have hround : Prefers (sequence [qualifierWord, blanks1]) l (q.text ++ ([' '] ++ []))
        (qs.flatMap (·.text ++ [' ']) ++ 'f' :: r) [] := by
      apply Prefers.skip (prefers_qualifierWord hq)
      exact .skip (.space ((begins_qualification qs r).stops (forall_mem_of_all rfl))) .nil
    rw [List.append_nil] at hround
    rw [List.flatMap_cons]
    exact hround.round (List.append_ne_nil_of_right_ne_nil _ (List.cons_ne_nil _ _)) (ih hqs)

theorem opening_function : Opening (Begins ['#', 'p', 'c', 'a', 'u', 'e', 'f']) functionParts where
  ink := begins_ink (forall_mem_of_all rfl)
  rejects := by
    intro l w hw
    apply rejects_of_not_begins _ hw
    · apply rejects_of_not_begins _ hw
      · apply rejects_of_not_begins _ hw
        · apply rejects_of_not_begins _ hw
          · exact .head (rejects_literal_of_not_begins ⟨'f', _, rfl, by decide⟩ hw)
          · intro l m r ms h
            exact .inl (reads_anchor.mp h).1.1
        · intro l m r ms h
          rw [qualifiers] at h
          rcases reads_many.mp h with ⟨rfl, _⟩ | ⟨a, b, _, _, rfl, _, ha, _⟩
          · exact .inl rfl
          · obtain ⟨_, _, _, _, rfl, _, hq, _⟩ := reads_sequence_cons.mp ha
            rw [List.append_assoc]
            exact .inr (((begins_of_reads_qualifierWord hq).append _).mono (forall_mem_of_all rfl))
      · intro l m r ms h
        rcases reads_maybe.mp h with h | ⟨rfl, _⟩
        · obtain ⟨_, _, _, _, rfl, _, hs, _⟩ := reads_sequence_cons.mp ((reads_group rfl).mp h).1
          obtain ⟨rfl, _⟩ := (reads_literal _).mp hs
          exact .inr ⟨'p', _, rfl, by decide⟩
        · exact .inl rfl
    · intro l m r ms h
      exact begins_of_reads_attributes h (by decide)

def EndsOutsideWord (l : List Char) : Prop :=
  ∀ c, l.getLast? = some c → isWord c = false

theorem EndsOutsideWord.append {a : List Char} (hl : EndsOutsideWord l) (ha : EndsOutsideWord a) :
    EndsOutsideWord (l ++ a) := by
  intro c hc
  rw [List.getLast?_append] at hc
  cases hlast : a.getLast? with
  | none =>
    rw [hlast, Option.none_or] at hc
    exact hl c hc
  | some d =>
    rw [hlast, Option.some_or] at hc
    exact ha c (hlast.trans hc)

theorem endsOutsideWord_concat {c : Char} (hc : isWord c = false) (a : List Char) :
    EndsOutsideWord (a ++ [c]) := by
  intro d hd
  rw [List.getLast?_concat] at hd
  cases hd
  exact hc

theorem endsOutsideWord_flatMap {α : Type} {f : α → List Char} (h : ∀ a, EndsOutsideWord (f a))
    (as : List α) : EndsOutsideWord (as.flatMap f) := by
  induction as with
  | nil => exact nofun
  | cons a as ih =>
    rw [List.flatMap_cons]
    exact (h a).append ih

theorem AtLineStart.endsOutsideWord (h : AtLineStart l) : EndsOutsideWord l := by
  intro c hc
  rcases h with rfl | h
  · cases hc
  · rw [h] at hc
    cases hc
    rfl

theorem endsOutsideWord_attributes (as : List String) :
    EndsOutsideWord (as.flatMap (attributeLine ·.toList)) := by
  apply endsOutsideWord_flatMap
  intro a
  have h := endsOutsideWord_concat (c := '\n') rfl ('#' :: '[' :: (a.toList ++ [']']))
  simpa [attributeLine] using h

theorem endsOutsideWord_visibility (f : FunctionItem) : EndsOutsideWord f.visibility := by
  rw [FunctionItem.visibility]
  split
  · exact endsOutsideWord_concat (c := ' ') rfl ['p', 'u', 'b']
  · exact nofun

theorem endsOutsideWord_qualification (f : FunctionItem) : EndsOutsideWord f.qualification := by
  rw [FunctionItem.qualification]
  apply endsOutsideWord_flatMap
  intro q
  exact endsOutsideWord_concat (c := ' ') rfl q.text

theorem fits_wordEdge_iff {c : Char} (hc : isWord c = true) :
    Anchor.wordEdge.Fits l (c :: r) ↔ EndsOutsideWord l := by
  constructor
  · intro h d hd
    cases hw : isWord d with
    | false => rfl
    | true =>
      refine absurd (iff_of_true ?_ ?_) h
      · exact ⟨d, hd, hw⟩
      · exact ⟨c, rfl, hc⟩
  · intro h hiff
    obtain ⟨d, hd, hw⟩ := hiff.mpr ⟨c, rfl, hc⟩
    rw [h d hd] at hw
    cases hw

theorem prefers_noVisibility (hr : Begins ['c', 'a', 'u', 'e', 'f'] r) :
    Prefers (maybe (group FunctionPart.visibility (sequence [literal "pub", blanks1]))) l [] r
      [] := by
  apply Prefers.maybe_nil
  apply Rejects.group rfl
  apply Rejects.head
  apply rejects_literal
  intro h
  obtain ⟨c, z, rfl, hc⟩ := hr
  obtain ⟨t, ht⟩ := h
  cases ht
  revert hc
  decide

theorem takes_visibility (f : FunctionItem) (hr : Begins ['c', 'a', 'u', 'e', 'f'] r) :
    Takes (maybe (group FunctionPart.visibility (sequence [literal "pub", blanks1]))) l
      f.visibility r
      (if f.isPublic then [(.visibility, f.visibility)] else []) := by
  rw [FunctionItem.visibility]
  split
  · apply Takes.maybe
    apply takes_group
    have hpub : "pub ".toList = "pub".toList ++ ([' '] ++ []) := rfl
    rw [hpub]
    apply Prefers.skip (.literal _)
    exact .skip (.space (hr.stops (forall_mem_of_all rfl))) .nil
  · exact (prefers_noVisibility hr).takes

theorem stops_isBlank_end {c : Char} (hc : c = '{' ∨ c = ';') (r : List Char) :
    Stops isBlank (c :: r) := by
  rcases hc with rfl | rfl
  · exact .cons rfl _
  · exact .cons rfl _

theorem isEnd_of_eq {c : Char} (hc : c = '{' ∨ c = ';') : (c == '{' || c == ';') = true := by
  rcases hc with rfl | rfl
  · rfl
  · rfl

theorem takes_result {t : List Char} {c : Char} (hne : t ≠ []) (hstart : Stops isBlank t)
    (hbrace : '{' ∉ t) (hsemi : ';' ∉ t) (hc : c = '{' ∨ c = ';') :
    Takes (sequence resultParts) l (" -> ".toList ++ (t ++ [c])) r [(.result, t)] := by
  have htext : " -> ".toList ++ (t ++ [c]) =
      [' '] ++ (("->".toList ++ ([' '] ++ (t ++ []))) ++ ([] ++ ([c] ++ []))) := by simp
  have hexcept : ∀ d ∈ t, (!List.contains ['{', ';'] d) = true := by
    intro d hd
    have h₁ : d ≠ '{' := fun he => hbrace (he ▸ hd)
    have h₂ : d ≠ ';' := fun he => hsemi (he ▸ hd)
    simp [h₁, h₂]
  have hresult (l : List Char) :
      Takes (maybe (sequence [literal "->", blanks, group .result (many1 (except ['{', ';']))])) l
        ("->".toList ++ ([' '] ++ (t ++ []))) ([] ++ ([c] ++ []) ++ r)
          [(FunctionPart.result, t)] := by
    apply Takes.maybe
    apply Takes.skip (.literal _)
    apply Takes.skip
    · apply Prefers.blanks (blank_spaces (by simp))
      simp only [List.append_assoc]
      exact hstart.append hne _
    apply Takes.keep _ .nil
    apply Prefers.many1_char hne hexcept
    rcases hc with rfl | rfl
    · exact .cons rfl _
    · exact .cons rfl _
  rw [htext]
  apply Takes.skip (.blanks (blank_spaces (by simp)) (.cons rfl _))
  apply (hresult _).cons
  apply Takes.skip (.blanks blank_nil (stops_isBlank_end hc _))
  exact .skip (.char (isEnd_of_eq hc)) .nil

theorem takes_arrow {result : Option String} {sp : List Char} {c : Char}
    (hresult : ∀ t ∈ result,
      t.toList ≠ [] ∧ Trimmed t.toList ∧ '{' ∉ t.toList ∧ ';' ∉ t.toList)
    (hsp : ∀ d ∈ sp, d = ' ') (hc : c = '{' ∨ c = ';') :
    Takes (sequence resultParts) l (FunctionItem.arrow result ++ (sp ++ [c])) r
      (result.toList.map fun t => (.result, t.toList ++ sp)) := by
  cases result with
  | none =>
    have htext : FunctionItem.arrow none ++ (sp ++ [c]) = sp ++ ([] ++ ([] ++ ([c] ++ []))) := by
      simp [FunctionItem.arrow]
    rw [htext]
    apply Takes.skip (.blanks (blank_spaces hsp) (stops_isBlank_end hc _))
    apply Takes.skip
    · apply Prefers.maybe_nil
      apply Rejects.head
      apply rejects_literal
      rcases hc with rfl | rfl
      · simp
      · simp
    apply Takes.skip (.blanks blank_nil (stops_isBlank_end hc _))
    exact .skip (.char (isEnd_of_eq hc)) .nil
  | some t =>
    obtain ⟨hne, htrim, hbrace, hsemi⟩ := hresult t rfl
    have htext : FunctionItem.arrow (some t) ++ (sp ++ [c]) =
        " -> ".toList ++ ((t.toList ++ sp) ++ [c]) := by
      simp [FunctionItem.arrow]
    have hspaces {d : Char} (hd : d ≠ ' ') : d ∉ sp := fun h => hd (hsp d h)
    rw [htext]
    apply takes_result (by simp [hne]) ((trimmed_iff.mp htrim).1.append hne sp) _ _ hc
    · simp [hbrace, hspaces]
    · simp [hsemi, hspaces]

theorem takes_signature {n raw z : List Char} {gs : List (FunctionPart × List Char)}
    (hl : EndsOutsideWord l) (hn : IsName n) (hraw : ')' ∉ raw)
    (hz : ∀ l, Takes (sequence resultParts) l z r gs) :
    Takes (sequence signatureParts) l
      ("fn ".toList ++ (n ++ ("(".toList ++ (raw ++ (")".toList ++ z))))) r
      ((.name, n) :: (.params, raw) :: gs) := by
  have htext : "fn ".toList ++ (n ++ ("(".toList ++ (raw ++ (")".toList ++ z)))) =
      [] ++ ("fn".toList ++ ([' '] ++ (n ++ ([] ++ ([] ++ ([] ++ ("(".toList ++
        (raw ++ (")".toList ++ z))))))))) := by simp
  rw [htext]
  apply Takes.skip
  · exact .anchor ((fits_wordEdge_iff rfl).mpr hl)
  apply Takes.skip (.literal _)
  apply Takes.skip
  · apply Prefers.space
    rw [List.append_assoc]
    exact hn.stops_isBlank _
  apply Takes.keep (hn.prefers (.cons rfl _))
  apply Takes.skip (.blanks blank_nil (.cons rfl _))
  apply Takes.skip (.maybe_nil (.head (rejects_literal (by simp))))
  apply Takes.skip (.blanks blank_nil (.cons rfl _))
  apply Takes.skip (.literal _)
  apply Takes.keep
  · apply Prefers.many_char (except_of_not_mem hraw)
    exact .cons rfl _
  exact .skip (.literal _) (hz _)

theorem takes_functionParts {f : FunctionItem} (hf : f.Readable) (hl : AtLineStart l)
    {sp : List Char} {c : Char} (hsp : ∀ d ∈ sp, d = ' ') (hc : c = '{' ∨ c = ';') :
    Takes (sequence functionParts) l
      (f.attributes.flatMap (attributeLine ·.toList) ++ (f.visibility ++ (f.qualification ++
        ("fn ".toList ++ (f.name.toList ++ ("(".toList ++ (arguments f.receiver f.params ++
          (")".toList ++ (FunctionItem.arrow f.result ++ (sp ++ [c])))))))))) r
      ((if f.isPublic then [(.visibility, f.visibility)] else []) ++
        ((.name, f.name.toList) :: (.params, arguments f.receiver f.params) ::
          f.result.toList.map fun t => (.result, t.toList ++ sp))) := by
  have hedge : EndsOutsideWord
      (l ++ f.attributes.flatMap (attributeLine ·.toList) ++ f.visibility ++ f.qualification) :=
    ((hl.endsOutsideWord.append (endsOutsideWord_attributes _)).append
      (endsOutsideWord_visibility f)).append (endsOutsideWord_qualification f)
  rw [functionParts]
  apply Takes.skip
  · rw [List.append_assoc, List.append_assoc]
    exact prefers_attributes hf.attributes (begins_visibility f _) (forall_mem_of_all rfl)
  apply Takes.cons (takes_visibility f _)
  · apply Takes.skip (prefers_qualifiers hf.qualifiers)
    exact takes_signature hedge hf.name (paren_not_mem_arguments hf.receiver hf.params)
      fun l => takes_arrow hf.result hsp hc
  · rw [List.append_assoc]
    exact begins_qualification f.qualifiers _

theorem findFrom_body (l r : List Char) :
    functionPattern.findFrom l (['\n', '}'] ++ r) =
      functionPattern.findFrom (l ++ ['\n', '}']) r := by
  have hrejects {l w : List Char} (hw : trimStart w = '}' :: r) : functionPattern.Rejects l w := by
    rw [functionPattern]
    apply opening_function.rejects_documented
    · rw [hw]
      exact .inr nofun
    · rw [hw]
      intro h
      obtain ⟨c, z, hz, hc⟩ := h
      cases hz
      revert hc
      decide
  have hbrace : trimStart ('}' :: r) = '}' :: r := trimStart_eq_self (.cons rfl r)
  have hnewline : trimStart ('\n' :: '}' :: r) = '}' :: r :=
    (trimStart_append (a := ['\n']) blank_newline).trans hbrace
  rw [List.cons_append, List.cons_append, List.nil_append, findFrom_cons (hrejects hnewline),
    findFrom_cons (hrejects hbrace), List.append_assoc, List.singleton_append]

theorem returnType_eq {result : Option String} {sp : List Char}
    (hresult : ∀ t ∈ result, t.toList ≠ [] ∧ Trimmed t.toList) (hsp : ∀ d ∈ sp, d = ' ') :
    String.ofList (returnType (result.map fun t => t.toList ++ sp)) = result.getD "()" := by
  cases result with
  | none => rfl
  | some t =>
    obtain ⟨hne, htrim⟩ := hresult t rfl
    have ht : trim (t.toList ++ sp) = t.toList := htrim.trim_append blank_nil (blank_spaces hsp)
    rw [returnType, Option.map_some, Option.map_some, ht, Option.getD_some]
    split
    · contradiction
    · next h => exact absurd (Option.some.inj h) hne
    · next h =>
      rw [← Option.some.inj h, String.ofList_toList]

theorem exists_functionLines_eq (f : FunctionItem) :
    ∃ sp c z, (∀ d ∈ sp, d = ' ') ∧ (c = '{' ∨ c = ';') ∧
      f.lines = comments (ofText [] f.doc.toList) ++
        (f.attributes.flatMap (attributeLine ·.toList) ++ (f.visibility ++ (f.qualification ++
          ("fn ".toList ++ (f.name.toList ++ ("(".toList ++ (arguments f.receiver f.params ++
            (")".toList ++ (FunctionItem.arrow f.result ++ (sp ++ [c])))))))))) ++ z ∧
      ∀ l r, functionPattern.findFrom l (z ++ r) = functionPattern.findFrom (l ++ z) r := by
  by_cases hb : f.hasBody = true
  · refine ⟨[' '], '{', ['\n', '}'], by simp, .inl rfl, ?_, findFrom_body⟩
    simp [FunctionItem.lines, hb]
  · refine ⟨[], ';', [], by simp, .inr rfl, ?_, fun l r => by rw [List.nil_append, List.append_nil]⟩
    simp [FunctionItem.lines, hb]

theorem not_atLineStart_functionLines (f : FunctionItem) (l : List Char) :
    ¬AtLineStart (l ++ f.lines) := by
  by_cases hb : f.hasBody = true
  · have hlast : f.lines.getLast? = some '}' := by
      simp [FunctionItem.lines, hb, List.getLast?_cons]
    exact not_atLineStart_append hlast (by decide) l
  · have hlast : f.lines.getLast? = some ';' := by
      simp [FunctionItem.lines, hb, List.getLast?_cons]
    exact not_atLineStart_append hlast (by decide) l

theorem map_findFrom_functionLines {f : FunctionItem} (hf : f.Readable) {gap : List Char}
    (hgap : IsGap l gap) (file : String) (r : List Char) :
    (functionPattern.findFrom l (gap ++ f.lines ++ r)).map (functionDecl file) =
      f.record file ((l ++ gap).count '\n' + 1) ::
        (functionPattern.findFrom (l ++ (gap ++ f.lines)) r).map (functionDecl file) := by
  obtain ⟨sp, c, z, hsp, hc, hlines, hskip⟩ := exists_functionLines_eq f
  have hstart : AtLineStart (l ++ gap ++ comments (ofText [] f.doc.toList)) :=
    atLineStart_append_comments hgap.atLineStart _
  obtain ⟨found, hfind, hgroup, hline⟩ := opening_function.exists_findFrom_ofText (g := .doc)
    (d := f.doc.toList) hgap (by simp) (takes_functionParts (r := z ++ r) hf hstart hsp hc)
  have hname : found.group .name = f.name.toList := by
    rw [Found.group, hgroup]
    cases f.isPublic <;> rfl
  have hparams : found.group .params = arguments f.receiver f.params := by
    rw [Found.group, hgroup]
    cases f.isPublic <;> rfl
  have hpublic : (found.group? .visibility).isSome = f.isPublic := by
    rw [hgroup]
    cases f.isPublic <;> cases f.result <;> rfl
  have hresult : found.group? .result = f.result.map fun t => t.toList ++ sp := by
    rw [hgroup]
    cases f.isPublic <;> cases f.result <;> rfl
  have hdoc : clean (found.group .doc) = f.doc.toList := by
    rw [Found.group, hgroup]
    exact hf.doc.clean_ofText
  have hrecord : functionDecl file found = f.record file ((l ++ gap).count '\n' + 1) := by
    have hreturn := returnType_eq (fun t ht => ⟨(hf.result t ht).1, (hf.result t ht).2.1⟩) hsp
    simp only [functionDecl, hname, hparams, hpublic, hresult, hdoc, hline, hreturn,
      String.ofList_toList, paramList_arguments hf.receiver hf.params]
    rfl
  rw [← functionPattern, hskip] at hfind
  rw [hlines]
  simp only [List.append_assoc] at hfind ⊢
  rw [hfind, List.map_cons, hrecord]

/-- A source that holds functions and nothing else is read back as exactly these functions, in
order, each with its visibility, its parameters, its return type and the line on which it begins. -/
theorem functions_of_sources (fs : List FunctionItem) (hfs : ∀ f ∈ fs, f.Readable) (file : String) :
    functions (String.ofList (fs.flatMap FunctionItem.source)) file =
      recordsFrom (FunctionItem.record file) FunctionItem.source 1 fs := by
  rw [functions, String.toList_ofList, findAll_eq_findFrom]
  exact opening_function.map_findFrom (fun f _ => not_atLineStart_functionLines f)
    (fun f hf l gap r hgap => map_findFrom_functionLines (hfs f hf) hgap file r)
    (.inl ⟨rfl, .inl rfl⟩)

def visitAndStop : List FunctionItem :=
  [{ doc := "Visits.\n\npub fn fake();"
     attributes := ["inline", "cfg(any(unix, windows))] #[cold"]
     isPublic := true
     qualifiers := [.constant, .unchecked, .foreign "C"]
     name := "visit"
     receiver := some "&mut self"
     params := [{ name := "map", type := "HashMap<u8, Vec<u8>>" }, { name := "_", type := "" }]
     result := some "Result<(),\n  E>"
     hasBody := true },
   { doc := "", attributes := [], isPublic := false, qualifiers := [], name := "stop",
     receiver := none, params := [], result := none, hasBody := false }]

theorem functions_of_visitAndStop : (∀ f ∈ visitAndStop, f.Readable) ∧
    functions (String.ofList (visitAndStop.flatMap FunctionItem.source)) "visit.rs" =
      recordsFrom (FunctionItem.record "visit.rs") FunctionItem.source 1 visitAndStop := by
  have hreadable : ∀ f ∈ visitAndStop, f.Readable := by decide +kernel
  exact ⟨hreadable, functions_of_sources visitAndStop hreadable "visit.rs"⟩

end Scan

end RefDoc
