import RefDoc.Proofs.ReturnType
import RefDoc.Proofs.WellFormed

namespace RefDoc.Scan

open Text Pattern

variable {n raw t : List Char}

theorem functions_openSignature (hn : IsName n) (hraw : ')' ∉ raw)
    (ht : t ≠ [] ∧ Trimmed t ∧ '{' ∉ t ∧ ';' ∉ t) (file : String) :
    functions (String.ofList (signatureText n raw t '{')) file =
      [signatureRecord file n raw t] := by
  obtain ⟨hne, htrim, hbrace, hsemi⟩ := ht
  have hrecords := functions_signatureText hn hraw hne (trimmed_iff.mp htrim).1 hbrace hsemi
    (.inl rfl)
    [] file
  have hend :=
    opening_function.findFrom_eq_nil (g := .doc) (l := signatureText n raw t '{') blank_nil
  rw [List.append_nil, functionPattern, hend, List.map_nil] at hrecords
  exact hrecords

theorem toList_signature (file : String) (x : Found FunctionPart) :
    ((functionDecl file x).signature ++ "\x7b").toList =
      signatureText (x.group .name) (x.group .params) (returnType (x.group? .result)) '{' := by
  simp [functionDecl, signatureText]

/-- The signature of every function that is found, with a brace behind it, is a source with exactly
one function. It has the name, the signature, the parameters and the return type of the one that was
found, no documentation and no visibility, and it stands on the first line. -/
theorem functions_of_signature (text file file' : String) (f : FunctionDecl)
    (hf : f ∈ functions text file) :
    functions (f.signature ++ "\x7b") file' =
      [{ f with doc := "", sourceFile := file', line := 1, isPublic := false }] := by
  obtain ⟨x, hx, rfl⟩ := List.mem_map.mp hf
  obtain ⟨hname, hparams, hresult⟩ := signature_of_isReading (isReading_of_mem_findAll hx)
  have hreturn := wellFormed_returnType hresult
  have htext : (functionDecl file x).signature ++ "\x7b" =
      String.ofList (signatureText (x.group .name) (x.group .params)
        (returnType (x.group? .result)) '{') := by
    rw [← toList_signature file x, String.ofList_toList]
  rw [htext, functions_openSignature hname hparams hreturn, signatureRecord,
    show trim (returnType (x.group? .result)) = returnType (x.group? .result) from hreturn.2.1]
  rfl

def tangled : FunctionDecl where
  name := "f"
  doc := "d"
  signature := "fn f(mut g: fn(T) -> T,\nx: u8)"
  sourceFile := "m.rs"
  line := 2
  isPublic := true
  params := [{ name := "g", type := "fn(T" }]
  returnType := "T,\nx: u8)"

def tangledSource : String :=
  "\n/// d\npub fn f<T>(mut g: fn(T) -> T,\nx: u8) \x7b"

theorem functions_of_tangled : tangled ∈ functions tangledSource "m.rs" ∧
    functions (tangled.signature ++ "\x7b") "n.rs" =
      [{ tangled with doc := "", sourceFile := "n.rs", line := 1, isPublic := false }] := by
  have hf : tangled ∈ functions tangledSource "m.rs" := by decide +kernel
  exact ⟨hf, functions_of_signature tangledSource "m.rs" "n.rs" tangled hf⟩

end RefDoc.Scan
