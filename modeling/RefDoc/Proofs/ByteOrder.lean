import Mathlib.Data.List.Lex
import Mathlib.Data.String.Basic
import Mathlib.Tactic.SplitIfs

namespace RefDoc.Text

def bytes (s : String) : List UInt8 :=
  s.toUTF8.data.toList

theorem bytes_eq (s : String) : bytes s = s.toList.flatMap String.utf8EncodeChar := by
  rw [bytes, String.toUTF8, ← String.utf8Encode_toList, List.utf8Encode,
    List.toList_data_toByteArray]

/-- Two lists of bytes part at a place where the first has the smaller byte. Neither is a beginning
of the other, so that it does not matter what follows them. -/
inductive Parts : List UInt8 → List UInt8 → Prop
  | here {x y : UInt8} {as bs : List UInt8} (h : x < y) : Parts (x :: as) (y :: bs)
  | behind {x : UInt8} {as bs : List UInt8} (h : Parts as bs) : Parts (x :: as) (x :: bs)

theorem parts_here {a b : Nat} {as bs : List UInt8} (h : a % 256 < b % 256) :
    Parts (UInt8.ofNat a :: as) (UInt8.ofNat b :: bs) := by
  apply Parts.here
  rw [UInt8.lt_iff_toNat_lt, UInt8.toNat_ofNat', UInt8.toNat_ofNat']
  exact h

theorem parts_cons {a b : Nat} {as bs : List UInt8} (hle : a % 256 ≤ b % 256)
    (h : a % 256 = b % 256 → Parts as bs) : Parts (UInt8.ofNat a :: as) (UInt8.ofNat b :: bs) := by
  rcases Nat.lt_or_eq_of_le hle with hlt | heq
  · exact parts_here hlt
  · have hbyte : UInt8.ofNat a = UInt8.ofNat b := by
      rw [← UInt8.toNat_inj, UInt8.toNat_ofNat', UInt8.toNat_ofNat']
      exact heq
    rw [hbyte]
    exact .behind (h heq)

theorem parts_utf8EncodeChar {c d : Char} (h : c < d) :
    Parts (String.utf8EncodeChar c) (String.utf8EncodeChar d) := by
  have hlt : c.val.toNat < d.val.toNat := h
  have hbound : d.val.toNat < 1114112 := by
    rcases d.valid with hd | ⟨_, hd⟩ <;> omega
  rw [String.utf8EncodeChar, String.utf8EncodeChar]
  generalize c.val.toNat = v at hlt
  generalize d.val.toNat = w at hlt hbound
  -- With fewer bytes the first one is smaller; with as many, they hold the code from its high
  -- bits on.
  split_ifs <;> try omega
  · exact parts_here (by omega)
  · exact parts_here (by omega)
  · exact parts_here (by omega)
  · exact parts_here (by omega)
  · exact parts_cons (by omega) fun _ => parts_here (by omega)
  · exact parts_here (by omega)
  · exact parts_here (by omega)
  · exact parts_cons (by omega) fun _ => parts_cons (by omega) fun _ => parts_here (by omega)
  · exact parts_here (by omega)
  · exact parts_cons (by omega) fun _ => parts_cons (by omega) fun _ =>
      parts_cons (by omega) fun _ => parts_here (by omega)

theorem Parts.lex_append {as bs : List UInt8} (h : Parts as bs) (us vs : List UInt8) :
    List.Lex (· < ·) (as ++ us) (bs ++ vs) := by
  induction h with
  | here h => exact .rel h
  | behind _ ih => exact .cons ih

theorem lex_flatMap {cs ds : List Char} (h : List.Lex (· < ·) cs ds) :
    List.Lex (· < ·) (cs.flatMap String.utf8EncodeChar) (ds.flatMap String.utf8EncodeChar) := by
  induction h with
  | @nil d ds =>
    have hd : String.utf8EncodeChar d ≠ [] := by
      rw [← List.length_pos_iff, String.length_utf8EncodeChar]
      exact d.utf8Size_pos
    obtain ⟨x, xs, hx⟩ := List.exists_cons_of_ne_nil hd
    rw [List.flatMap_nil, List.flatMap_cons, hx]
    exact .nil
  | rel h => exact (parts_utf8EncodeChar h).lex_append _ _
  | cons _ ih => exact List.Lex.append_left _ ih _

theorem bytes_lt_bytes {s t : String} (h : s < t) : bytes s < bytes t := by
  rw [bytes_eq, bytes_eq]
  exact (List.lt_iff_lex_lt _ _).mpr (lex_flatMap ((List.lt_iff_lex_lt _ _).mp h))

/-- The order of texts is that of their bytes. -/
theorem bytes_lt_bytes_iff {s t : String} : bytes s < bytes t ↔ s < t := by
  refine ⟨fun h => ?_, bytes_lt_bytes⟩
  rcases lt_trichotomy s t with hlt | rfl | hgt
  · exact hlt
  · exact absurd h (List.lt_irrefl _)
  · exact absurd h (List.lt_asymm (bytes_lt_bytes hgt))

end RefDoc.Text
