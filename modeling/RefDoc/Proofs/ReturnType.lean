import RefDoc.Proofs.FunctionRoundTrip

namespace RefDoc

open Text Pattern Nesting

/-- A return type without braces, in which every bracket is closed and semicolons stand only in
brackets. -/
@[mk_iff]
structure IsReturnType (t : List Char) : Prop where
  ne_nil : t ≠ []
  trimmed : Trimmed t
  no_brace : '{' ∉ t ∧ '}' ∉ t
  balanced : Balanced typeBrackets t
  semicolons : Enclosed typeBrackets ';' t

instance (t : List Char) : Decidable (IsReturnType t) :=
  decidable_of_iff' _ (isReturnType_iff t)

namespace Scan

def signatureText (n raw t : List Char) (c : Char) : List Char :=
  "fn ".toList ++ (n ++ ("(".toList ++ (raw ++ (")".toList ++ (" -> ".toList ++ (t ++ [c]))))))

def signatureRecord (file : String) (n raw t : List Char) : FunctionDecl where
  name := String.ofList n
  doc := ""
  signature := "fn " ++ String.ofList n ++ "(" ++ String.ofList raw ++ ") -> " ++
    String.ofList (trim t)
  sourceFile := file
  line := 1
  isPublic := false
  params := paramList raw
  returnType := String.ofList (trim t)

variable {n raw t r : List Char} {c : Char}

theorem trim_ne_nil (hne : t ≠ []) (hstart : Stops isBlank t) : trim t ≠ [] := by
  obtain ⟨d, t, rfl⟩ := List.exists_cons_of_ne_nil hne
  have hd : isBlank d = false := hstart d rfl
  intro h
  have hend : trimEnd (d :: t) = [] := by rwa [trim, trimStart_eq_self hstart] at h
  have hblank : Blank (d :: t).reverse :=
    List.dropWhile_eq_nil_iff.mp (List.reverse_eq_nil_iff.mp hend)
  rw [hblank d (by simp)] at hd
  cases hd

theorem returnType_some (hne : t ≠ []) (hstart : Stops isBlank t) :
    returnType (some t) = trim t := by
  rw [returnType, Option.map_some]
  split
  · contradiction
  · next h => exact absurd (Option.some.inj h) (trim_ne_nil hne hstart)
  · next h => exact (Option.some.inj h).symm

theorem takes_plainSignature (hn : IsName n) (hraw : ')' ∉ raw) (hne : t ≠ [])
    (hstart : Stops isBlank t) (hbrace : '{' ∉ t) (hsemi : ';' ∉ t) (hc : c = '{' ∨ c = ';') :
    Takes (sequence functionParts) [] (signatureText n raw t c) r
      [(.name, n), (.params, raw), (.result, t)] := by
  have hbegins (z : List Char) : Begins ['c', 'a', 'u', 'e', 'f'] ("fn ".toList ++ z) :=
    ⟨'f', _, rfl, by decide⟩
  have hattributes : ∀ a ∈ ([] : List String), '\n' ∉ a.toList := List.forall_mem_nil _
  have hqualifiers : ∀ q ∈ ([] : List Qualifier), q.Readable := List.forall_mem_nil _
  have hedge : EndsOutsideWord [] := by
    intro c h
    cases h
  rw [functionParts]
  apply Takes.skip (m := []) (prefers_attributes hattributes ((hbegins _).append r)
    (forall_mem_of_all rfl))
  apply Takes.skip (m := []) (prefers_noVisibility ((hbegins _).append r))
  apply Takes.skip (m := []) (prefers_qualifiers hqualifiers)
  exact takes_signature hedge hn hraw fun l => takes_result hne hstart hbrace hsemi hc

/-- A signature at the start of a source is recorded up to its first brace or semicolon behind the
arrow, and the search goes on there. -/
theorem functions_signatureText (hn : IsName n) (hraw : ')' ∉ raw) (hne : t ≠ [])
    (hstart : Stops isBlank t) (hbrace : '{' ∉ t) (hsemi : ';' ∉ t) (hc : c = '{' ∨ c = ';')
    (r : List Char) (file : String) :
    functions (String.ofList (signatureText n raw t c ++ r)) file =
      signatureRecord file n raw t ::
        (functionPattern.findFrom (signatureText n raw t c) r).map (functionDecl file) := by
  have htakes := takes_plainSignature (r := r) hn hraw hne hstart hbrace hsemi hc
  have hne' : signatureText n raw t c ≠ [] := by simp [signatureText]
  obtain ⟨f, hfind, _, hgroup, hline⟩ :=
    opening_function.exists_findFrom_blank (g := .doc) (l := [])
    blank_nil (.inr (opening_function.rejects_docLine blank_nil htakes [])) hne' htakes
  have hname : f.group .name = n := by
    rw [Found.group, hgroup]
    rfl
  have hparams : f.group .params = raw := by
    rw [Found.group, hgroup]
    rfl
  have hdoc : f.group .doc = [] := by
    rw [Found.group, hgroup]
    rfl
  have hpublic : f.group? .visibility = none := by
    rw [hgroup]
    rfl
  have hresult : f.group? .result = some t := by
    rw [hgroup]
    rfl
  have hrecord : functionDecl file f = signatureRecord file n raw t := by
    simp only [functionDecl, hname, hparams, hdoc, hpublic, hresult, hline,
      returnType_some hne hstart]
    rfl
  rw [functions, String.toList_ofList, findAll_eq_findFrom, functionPattern]
  rw [List.nil_append] at hfind
  rw [hfind, List.map_cons, hrecord]
  rfl

theorem exists_result_end (hne : t ≠ []) (hstart : Stops isBlank t) (hbrace : '{' ∉ t)
    (hsemi : t.head? ≠ some ';') :
    ∃ a c b, t ++ " \x7b".toList = a ++ [c] ++ b ∧ (a ≠ [] ∧ Stops isBlank a) ∧
      ('{' ∉ a ∧ ';' ∉ a) ∧ (c = '{' ∨ c = ';') ∧ trim a = trim (t.takeWhile (· != ';')) ∧
      (';' ∉ t → b = []) := by
  by_cases h : ';' ∈ t
  · obtain ⟨a, b, rfl, ha⟩ := List.eq_append_cons_of_mem h
    have hne' : a ≠ [] := by
      rintro rfl
      exact hsemi rfl
    have hstart' : Stops isBlank a := by
      intro d hd
      apply hstart
      rw [List.head?_append, hd, Option.some_or]
    refine ⟨a, ';', b ++ " \x7b".toList, by simp, ⟨hne', hstart'⟩, ⟨?_, ha⟩, .inr rfl, ?_, ?_⟩
    · exact fun hmem => hbrace (List.mem_append_left _ hmem)
    · rw [takeWhile_ne_append ha]
    · exact fun hnot => absurd h hnot
  · refine ⟨t ++ [' '], '{', [], by simp, ⟨by simp, hstart.append hne _⟩, ⟨?_, ?_⟩, .inl rfl, ?_,
      fun _ => rfl⟩
    · simp [hbrace]
    · simp [h]
    · have hspace : Blank [' '] := blank_spaces (by simp)
      rw [takeWhile_ne_eq_self h, trim, trim, trimStart_eq_self (hstart.append hne _),
        trimStart_eq_self hstart, trimEnd_append hspace]

/-- The text of a function with a return type and an open body. -/
def openFunction (name params result : String) : String :=
  "fn " ++ name ++ "(" ++ params ++ ") -> " ++ result ++ " \x7b"

theorem toList_openFunction (name params result : String) :
    (openFunction name params result).toList =
      "fn ".toList ++ (name.toList ++ ("(".toList ++ (params.toList ++ (")".toList ++
        (" -> ".toList ++ (result.toList ++ " \x7b".toList)))))) := by
  simp [openFunction]

/-- The first function of a text is recorded with what stands in front of the first semicolon of
its return type. So the type is recorded whole, and in the only record, exactly if it has no
semicolon. -/
theorem returnType_upTo_semicolon (name params result file : String) (hname : IsName name.toList)
    (hparams : ')' ∉ params.toList) (hresult : IsReturnType result.toList) :
    (∃ f fs, functions (openFunction name params result) file = f :: fs ∧ f.name = name ∧
      f.returnType = String.ofList (trim (result.toList.takeWhile (· != ';')))) ∧
    ((functions (openFunction name params result) file).map (·.returnType) = [result] ↔
      ';' ∉ result.toList) := by
  have hstart := (trimmed_iff.mp hresult.trimmed).1
  obtain ⟨a, c, b, hab, ⟨hne, ha⟩, ⟨hbrace, hsemi⟩, hc, htrim, hb⟩ :=
    exists_result_end hresult.ne_nil
    hstart hresult.no_brace.1 hresult.semicolons.head?_ne
  have htext : openFunction name params result =
      String.ofList (signatureText name.toList params.toList a c ++ b) := by
    apply String.toList_injective
    rw [toList_openFunction, hab]
    refine Eq.trans ?_ String.toList_ofList.symm
    simp only [signatureText, List.append_assoc]
  have hrecords := functions_signatureText hname hparams hne ha hbrace hsemi hc b file
  rw [← htext] at hrecords
  refine ⟨⟨_, _, hrecords, String.ofList_toList, congrArg String.ofList htrim⟩, ?_, ?_⟩
  · intro h hmem
    rw [hrecords, List.map_cons] at h
    have hwhole : String.ofList (trim a) = result := (List.cons.inj h).1
    rw [← hwhole, String.toList_ofList] at hmem
    exact hsemi (mem_of_mem_trim hmem)
  · intro h
    have hend := opening_function.findFrom_eq_nil (g := .doc)
      (l := signatureText name.toList params.toList a c) blank_nil
    have hwhole : String.ofList (trim a) = result := by
      rw [htrim, takeWhile_ne_eq_self h,
        show trim result.toList = result.toList from hresult.trimmed, String.ofList_toList]
    rw [hrecords, hb h, functionPattern, hend, List.map_nil, List.map_singleton, ← hwhole]
    rfl

theorem returnType_of_fallible : IsReturnType "Result<Box<dyn Fn(&[u8]) -> u8>, ()>".toList ∧
    (functions (openFunction "f" "x: fn(u8" "Result<Box<dyn Fn(&[u8]) -> u8>, ()>") "f.rs").map
      (·.returnType) = ["Result<Box<dyn Fn(&[u8]) -> u8>, ()>"] := by
  have hresult : IsReturnType "Result<Box<dyn Fn(&[u8]) -> u8>, ()>".toList := by decide +kernel
  have h := returnType_upTo_semicolon "f" "x: fn(u8" "Result<Box<dyn Fn(&[u8]) -> u8>, ()>" "f.rs"
    (by decide) (by decide) hresult
  exact ⟨hresult, h.2.mpr (by decide)⟩

/-- The length of an array is lost. -/
theorem functions_arrayResult : IsReturnType "[u8; 4]".toList ∧
    functions (openFunction "f" "" "[u8; 4]") "f.rs" =
      [⟨"f", "", "fn f() -> [u8", "f.rs", 1, false, [], "[u8"⟩] := by
  decide +kernel

end Scan

end RefDoc
