import RefDoc.Category
import RefDoc.Reference.Entry

namespace RefDoc.Reference

def entries (es : List String) : String :=
  String.join (es.map ("\n" ++ ·))

def titled (title : String) (es : List String) : String :=
  "\n## " ++ title ++ "\n" ++ entries es

/-- The page of the zero-copy structs; without any there is no page. -/
def zeroCopyPage (c : Catalog) : Option String :=
  let ss := c.zeroCopyStructs
  if ss.isEmpty then none
  else some <|
    "# Zero-Copy Structures Reference\n\n" ++
    "This document provides detailed reference information for all zero-copy structures " ++
    "in the protocol.\n\n" ++
    "## Overview\n\n" ++
    "Total zero-copy structures: **" ++ Nat.repr ss.length ++ "**\n" ++
    entries (ss.map StructDecl.entry)

/-- The page of all structs, by category. -/
def structuresPage (c : Catalog) : String :=
  "# API Structures Reference\n\n" ++
  "Comprehensive reference for all data structures used in the protocol.\n" ++
  String.join ((Category.groups c.structs).map fun (category, ss) =>
    titled category.title (ss.map StructDecl.entry))

/-- The functions of each source file, the files in increasing order. -/
def functionGroups (fs : List FunctionDecl) : List (String × List FunctionDecl) :=
  let files := (fs.map (·.sourceFile)).eraseDups.mergeSort fun a b => a ≤ b
  files.map fun file => (file, fs.filter (·.sourceFile = file))

def functionsPage (c : Catalog) : String :=
  let fs := c.publicFunctions
  "# Function Reference\n\n" ++
  "Reference documentation for all public functions in the protocol.\n\n" ++
  "Total public functions: **" ++ Nat.repr fs.length ++ "**\n" ++
  String.join ((functionGroups fs).map fun (file, fs) => titled file (fs.map FunctionDecl.entry))

structure Link where
  title : String
  target : String

def Link.item (l : Link) : String :=
  "- [" ++ l.title ++ "](" ++ l.target ++ ")\n"

def generatedPages : List Link :=
  [⟨"Zero-Copy Structures Reference", "zero-copy-reference.md"⟩,
    ⟨"API Structures Reference", "api-structures.md"⟩,
    ⟨"Function Reference", "function-reference.md"⟩]

def manualPages : List Link :=
  [⟨"Zero-Copy Architecture Guide", "zero-copy-architecture.md"⟩,
    ⟨"Performance Optimization Guide", "performance-optimization.md"⟩,
    ⟨"API Reference", "api-reference.md"⟩,
    ⟨"User Tutorials", "user-tutorials.md"⟩,
    ⟨"Developer Guide", "developer-guide.md"⟩]

/-- The index: when the pages were generated, what they count, and links to them. -/
def indexPage (generatedAt : String) (c : Catalog) : String :=
  "# Auto-Generated Documentation Index\n\n" ++
  "This index is automatically generated from the Rust source code.\n\n" ++
  "Last updated: " ++ generatedAt ++ "\n\n" ++
  "## Statistics\n\n" ++
  "- **Structures documented**: " ++ Nat.repr c.structs.length ++ "\n" ++
  "- **Functions documented**: " ++ Nat.repr c.publicFunctions.length ++ "\n" ++
  "- **Zero-copy structures**: " ++ Nat.repr c.zeroCopyStructs.length ++ "\n" ++
  "\n## Generated Files\n\n" ++ String.join (generatedPages.map Link.item) ++
  "\n## Manual Documentation\n\n" ++ String.join (manualPages.map Link.item)

end RefDoc.Reference
