import RefDoc.Proofs.Depth
import RefDoc.Scan.Function
import Mathlib.Tactic.MkIffOfInductiveProp

namespace RefDoc

open Text Nesting

def Param.written (p : Param) : List Char :=
  p.name.toList ++ (": ".toList ++ p.type.toList)

/-- What makes a parameter readable behind a marker and between other pieces: its name is no
pattern, and its type has no comma that looks like the end of the parameter. -/
@[mk_iff]
structure Param.Separable (p : Param) : Prop where
  name_ne_nil : p.name.toList ≠ []
  name_trimmed : Trimmed p.name.toList
  name_colon : ':' ∉ p.name.toList
  name_comma : ',' ∉ p.name.toList
  name_bracket : Unbracketed p.name.toList
  name_mut : ¬"mut ".toList <+: p.name.toList
  name_ref : ¬"&".toList <+: p.name.toList
  type_trimmed : Trimmed p.type.toList
  type_line : '\n' ∉ p.type.toList
  type_comma : OnlyNested (· == ',') p.type.toList
  type_closed : Closed p.type.toList

instance Param.decidableSeparable (p : Param) : Decidable p.Separable :=
  decidable_of_iff' _ (Param.separable_iff p)

/-- In a whole function, a closing round bracket in the type would end the parameters. -/
@[mk_iff]
structure Param.Readable (p : Param) : Prop extends p.Separable where
  type_paren : ')' ∉ p.type.toList

instance Param.decidableReadable (p : Param) : Decidable p.Readable :=
  decidable_of_iff' _ (Param.readable_iff p)

/-- What makes a receiver such as `&mut self` readable. -/
@[mk_iff]
structure ReadableReceiver (t : List Char) : Prop where
  colon : ':' ∉ t
  comma : ',' ∉ t
  bracket : Unbracketed t

instance (t : List Char) : Decidable (ReadableReceiver t) :=
  decidable_of_iff' _ (readableReceiver_iff t)

/-- What may stand in front of the name of a parameter: `mut`, `&`, or `&` behind `mut`. -/
structure Marker where
  isMut : Bool
  isRef : Bool

namespace Marker

def reference (m : Marker) : List Char :=
  if m.isRef then ['&'] else []

def text (m : Marker) : List Char :=
  (if m.isMut then "mut ".toList else []) ++ m.reference

end Marker

/-- A piece between two commas of a parameter list. -/
inductive Piece where
  | receiver (text : List Char)
  | param (marker : Marker) (param : Param)

namespace Piece

def written : Piece → List Char
  | .receiver t => t
  | .param m p => m.text ++ p.written

def param? : Piece → Option Param
  | .receiver _ => none
  | .param _ p => some p

/-- What makes a piece readable between others: it has no comma that looks like its end, it leaves
no bracket open, and it has a colon exactly if it is a parameter. -/
def Separable : Piece → Prop
  | .receiver t => ':' ∉ t ∧ OnlyNested (· == ',') t ∧ Closed t
  | .param _ p => p.Separable

instance decidableSeparable : (p : Piece) → Decidable p.Separable
  | .receiver t => inferInstanceAs (Decidable (':' ∉ t ∧ OnlyNested (· == ',') t ∧ Closed t))
  | .param _ p => inferInstanceAs (Decidable p.Separable)

end Piece

def arguments (receiver : Option String) (params : List Param) : List Char :=
  ", ".toList.intercalate (receiver.toList.map String.toList ++ params.map Param.written)

namespace Scan

theorem dropLead_eq_self {lead t : List Char} (h : ¬lead <+: t) : dropLead lead t = t := by
  rw [dropLead, if_neg]
  rwa [List.isPrefixOf_iff_prefix]

theorem dropLead_append (lead t : List Char) : dropLead lead (lead ++ t) = t := by
  rw [dropLead, if_pos (List.isPrefixOf_iff_prefix.mpr (List.prefix_append lead t)), List.drop_left]

section Marked

variable {n : List Char} (m : Marker)

theorem dropLead_mut (hmut : ¬"mut ".toList <+: n) :
    dropLead "mut ".toList (m.text ++ n) = m.reference ++ n := by
  rw [Marker.text, List.append_assoc]
  cases m.isMut with
  | true => exact dropLead_append "mut ".toList (m.reference ++ n)
  | false =>
    apply dropLead_eq_self
    rw [Marker.reference]
    cases m.isRef with
    | true => simp
    | false => exact hmut

theorem dropLead_ref (href : ¬"&".toList <+: n) : dropLead "&".toList (m.reference ++ n) = n := by
  rw [Marker.reference]
  cases m.isRef with
  | true => exact dropLead_append "&".toList n
  | false => exact dropLead_eq_self href

theorem stops_reference (hn : Stops isBlank n) : Stops isBlank (m.reference ++ n) := by
  rw [Marker.reference]
  cases m.isRef with
  | true => exact .cons rfl n
  | false => exact hn

theorem stops_marked (hn : Stops isBlank n) : Stops isBlank (m.text ++ n) := by
  rw [Marker.text, List.append_assoc]
  cases m.isMut with
  | true => exact .cons rfl _
  | false => exact stops_reference m hn

theorem paramName_marked (hn : Trimmed n) (hne : n ≠ []) (hmut : ¬"mut ".toList <+: n)
    (href : ¬"&".toList <+: n) : paramName (m.text ++ n) = n := by
  obtain ⟨hstart, hend⟩ := trimmed_iff.mp hn
  have hmarked : Trimmed (m.text ++ n) := by
    apply trimmed_iff.mpr
    rw [List.getLast?_append_of_ne_nil _ hne]
    exact ⟨stops_marked m hstart, hend⟩
  have hmut : dropLead ['m', 'u', 't', ' '] (m.text ++ n) = m.reference ++ n := dropLead_mut m hmut
  have href : dropLead ['&'] (m.reference ++ n) = n := dropLead_ref m href
  rw [paramName, show trim (m.text ++ n) = m.text ++ n from hmarked, hmut,
    trimStart_eq_self (stops_reference m hstart), href]
  exact hn

end Marked

theorem param?_eq_none {t : List Char} (h : ':' ∉ t) : param? t = none := by
  have hcolon : (trim t).dropWhile (· != ':') = [] := by
    rw [List.dropWhile_eq_nil_iff]
    intro c hc
    rw [bne_iff_ne]
    intro he
    subst c
    exact h (mem_of_mem_trim hc)
  rw [param?]
  simp only [hcolon]

theorem param?_space (t : List Char) : param? (' ' :: t) = param? t := by
  have htrim : trim (' ' :: t) = trim t :=
    congrArg trimEnd (trimStart_append (a := [' ']) (blank_spaces (by simp)))
  rw [param?, param?, htrim]

theorem param?_marked {p : Param} (hp : p.Separable) (m : Marker) :
    param? (m.text ++ p.written) = some p := by
  have hstart := stops_marked m (trimmed_iff.mp hp.name_trimmed).1
  have hne : m.text ++ p.name.toList ≠ [] := List.append_ne_nil_of_right_ne_nil _ hp.name_ne_nil
  have hname : Trimmed (m.text ++ p.name.toList ++ [':']) := by
    apply trimmed_iff.mpr
    refine ⟨hstart.append hne _, fun c hc => ?_⟩
    rw [List.getLast?_concat] at hc
    cases hc
    rfl
  obtain ⟨z, htrim, hz⟩ := hname.exists_trim_append (by simp) hp.type_trimmed blank_nil
  have hpiece : trim (m.text ++ p.written) = m.text ++ p.name.toList ++ ':' :: z := by
    rw [List.append_assoc (m.text ++ _), List.append_assoc (m.text ++ _)] at htrim
    rw [Param.written, ← List.append_assoc]
    exact htrim
  have hcolon : ':' ∉ m.text ++ p.name.toList := by
    have hmarker : ':' ∉ m.text := by
      rcases m with ⟨_ | _, _ | _⟩ <;> decide
    rw [List.mem_append]
    exact fun h => h.elim hmarker hp.name_colon
  have hdrop : (m.text ++ p.name.toList ++ ':' :: z).dropWhile (· != ':') = ':' :: z := by
    have htake := List.takeWhile_eq_self_iff.mp (takeWhile_ne_eq_self hcolon)
    rw [List.dropWhile_append_of_pos htake, List.dropWhile_cons_of_neg (by simp)]
  simp only [param?, hpiece, takeWhile_ne_append hcolon, hdrop, hz, oneLine_eq_self hp.type_line,
    List.isEmpty_iff, hp.name_ne_nil, ↓reduceIte, String.ofList_toList,
    paramName_marked m hp.name_trimmed hp.name_ne_nil hp.name_mut hp.name_ref]

theorem closed_marked {p : Param} (hp : p.Separable) (m : Marker) :
    Closed (m.text ++ p.written) ∧ OnlyNested (· == ',') (m.text ++ p.written) := by
  have hmarker : Unbracketed m.text ∧ ',' ∉ m.text := by
    rcases m with ⟨_ | _, _ | _⟩ <;> decide
  have hcolon : Closed (m.text ++ (p.name.toList ++ ": ".toList)) := by
    rw [Closed, depthBehind_append, hmarker.1.depthBehind_eq, depthBehind_append,
      hp.name_bracket.depthBehind_eq]
    rfl
  have hcomma : OnlyNested (· == ',') (m.text ++ (p.name.toList ++ ": ".toList)) := by
    apply onlyNested_of_not_mem
    simp [hmarker.2, hp.name_comma]
  have hlast : (m.text ++ (p.name.toList ++ ": ".toList)).getLast? ≠ some '-' := by
    rw [List.getLast?_append_of_ne_nil _ (by simp)]
    simp
  rw [Param.written, ← List.append_assoc p.name.toList, ← List.append_assoc]
  exact ⟨hcolon.append hlast hp.type_closed, hcomma.append hcolon hlast hp.type_comma⟩

theorem param?_written {p : Param} (hp : p.Readable) : param? p.written = some p :=
  param?_marked hp.toSeparable ⟨false, false⟩

theorem closed_written {p : Param} (hp : p.Readable) :
    Closed p.written ∧ OnlyNested (· == ',') p.written :=
  closed_marked hp.toSeparable ⟨false, false⟩

theorem paramList_intercalate {ps : List (List Char)}
    (h : ∀ p ∈ ps, Closed p ∧ OnlyNested (· == ',') p) :
    paramList (", ".toList.intercalate ps) = ps.filterMap param? := by
  cases ps with
  | nil => rfl
  | cons p ps =>
    have hspace : param? ∘ (' ' :: ·) = param? := funext param?_space
    rw [paramList]
    change (splitAtCommas ([',', ' '].intercalate (p :: ps))).filterMap param? = _
    rw [splitAtCommas_intercalate h, List.filterMap_cons, List.filterMap_map, hspace,
      List.filterMap_cons]

variable {receiver : Option String} {params : List Param}

theorem filterMap_receiver (hr : ∀ t ∈ receiver, ReadableReceiver t.toList) :
    (receiver.toList.map String.toList).filterMap param? = [] := by
  cases receiver with
  | none => rfl
  | some t =>
    rw [Option.toList_some, List.map_singleton, List.filterMap_cons,
      param?_eq_none (hr t rfl).colon]
    rfl

theorem filterMap_written (hp : ∀ p ∈ params, p.Readable) :
    (params.map Param.written).filterMap param? = params := by
  induction params with
  | nil => rfl
  | cons p params ih =>
    obtain ⟨hp, hps⟩ := List.forall_mem_cons.mp hp
    rw [List.map_cons, List.filterMap_cons, param?_written hp, ih hps]

theorem paramList_arguments (hr : ∀ t ∈ receiver, ReadableReceiver t.toList)
    (hp : ∀ p ∈ params, p.Readable) : paramList (arguments receiver params) = params := by
  rw [arguments, paramList_intercalate, List.filterMap_append, filterMap_receiver hr,
    filterMap_written hp, List.nil_append]
  intro t ht
  rcases List.mem_append.mp ht with ht | ht
  · obtain ⟨s, hs, rfl⟩ := List.mem_map.mp ht
    have hs := hr s (Option.mem_toList.mp hs)
    exact ⟨hs.bracket.closed, onlyNested_of_not_mem hs.comma⟩
  · obtain ⟨p, hmem, rfl⟩ := List.mem_map.mp ht
    exact closed_written (hp p hmem)

theorem paren_not_mem_arguments (hr : ∀ t ∈ receiver, ReadableReceiver t.toList)
    (hp : ∀ p ∈ params, p.Readable) : ')' ∉ arguments receiver params := by
  have hbracket {t : List Char} (ht : Unbracketed t) : ')' ∉ t := fun h => ht _ h (by decide)
  intro h
  rcases mem_intercalate h with h | ⟨t, ht, h⟩
  · revert h
    decide
  · rcases List.mem_append.mp ht with ht | ht
    · obtain ⟨s, hs, rfl⟩ := List.mem_map.mp ht
      exact hbracket (hr s (Option.mem_toList.mp hs)).bracket h
    · obtain ⟨p, hmem, rfl⟩ := List.mem_map.mp ht
      rw [Param.written, List.mem_append, List.mem_append] at h
      rcases h with h | h | h
      · exact hbracket (hp p hmem).name_bracket h
      · revert h
        decide
      · exact (hp p hmem).type_paren h

theorem closed_piece {p : Piece} (hp : p.Separable) :
    Closed p.written ∧ OnlyNested (· == ',') p.written := by
  cases p with
  | receiver t => exact ⟨hp.2.2, hp.2.1⟩
  | param m p => exact closed_marked hp m

theorem param?_piece {p : Piece} (hp : p.Separable) : param? p.written = p.param? := by
  cases p with
  | receiver t => exact param?_eq_none hp.1
  | param m p => exact param?_marked hp m

/-- The parameters in a list of pieces come back one by one, in order, without their markers. -/
theorem paramList_pieces (ps : List Piece) (hps : ∀ p ∈ ps, p.Separable) :
    paramList (", ".toList.intercalate (ps.map Piece.written)) = ps.filterMap Piece.param? := by
  rw [paramList_intercalate, List.filterMap_map]
  · apply List.filterMap_congr
    intro p hp
    exact param?_piece (hps p hp)
  · intro t ht
    obtain ⟨p, hp, rfl⟩ := List.mem_map.mp ht
    exact closed_piece (hps p hp)

def tangledPieces : List Piece :=
  [.receiver "&mut self".toList, .param ⟨true, false⟩ ⟨"n", "u64"⟩,
    .param ⟨false, true⟩ ⟨"b", "&bool"⟩, .receiver "(_, _)".toList,
    .param ⟨false, false⟩ ⟨"m", "Map<K, [u8; 4]>"⟩,
    .param ⟨true, true⟩ ⟨"f", "Box<dyn Fn(u8, a::B) -> C>"⟩]

theorem paramList_tangledPieces : (∀ p ∈ tangledPieces, p.Separable) ∧
    paramList ("&mut self, mut n: u64, &b: &bool, (_, _), m: Map<K, [u8; 4]>, ".toList ++
        "mut &f: Box<dyn Fn(u8, a::B) -> C>".toList) =
      [⟨"n", "u64"⟩, ⟨"b", "&bool"⟩, ⟨"m", "Map<K, [u8; 4]>"⟩,
        ⟨"f", "Box<dyn Fn(u8, a::B) -> C>"⟩] := by
  have hpieces : ∀ p ∈ tangledPieces, p.Separable := by
    decide
  have htext : "&mut self, mut n: u64, &b: &bool, (_, _), m: Map<K, [u8; 4]>, ".toList ++
      "mut &f: Box<dyn Fn(u8, a::B) -> C>".toList =
      ", ".toList.intercalate (tangledPieces.map Piece.written) := by
    decide +kernel
  rw [htext, paramList_pieces tangledPieces hpieces]
  exact ⟨hpieces, rfl⟩

end Scan

end RefDoc
