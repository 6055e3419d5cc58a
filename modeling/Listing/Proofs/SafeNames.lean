import Listing.Proofs.Rendering
import Mathlib

/-!
# Which texts are safe names

The two checks of names, spelled out. `isQualified_iff`: a qualified identifier is one to three
parts joined by points, each of them of 1 to 63 bytes, namely an ASCII letter or underscore followed
by ASCII letters, digits and underscores. `isPlain_iff`: a plain identifier is one such part.

The checks cut a text into characters and at its points, and count characters; that these are also
the bytes is because all of them are ASCII (`length_bytes`).
-/

namespace Listing.Identifier

open Text

/-- An ASCII letter or an underscore. -/
def Leads (c : Char) : Prop := ('A' ≤ c ∧ c ≤ 'Z') ∨ ('a' ≤ c ∧ c ≤ 'z') ∨ c = '_'

/-- An ASCII letter, an ASCII digit or an underscore. -/
def Follows (c : Char) : Prop := Leads c ∨ ('0' ≤ c ∧ c ≤ '9')

/-- A part of a name: a letter or an underscore, then letters, digits and underscores. -/
structure Part (s : String) : Prop where
  one_le : 1 ≤ (bytes s).length
  le_most : (bytes s).length ≤ 63
  first : ∀ c ∈ s.toList.head?, Leads c
  rest : ∀ c ∈ s.toList.tail, Follows c

/-- One part of a name, or several up to a greatest number, joined by points. -/
def Joined (most : Nat) (s : String) : Prop :=
  ∃ parts : List String, 1 ≤ parts.length ∧ parts.length ≤ most ∧ (∀ part ∈ parts, Part part) ∧
    s = ".".intercalate parts

theorem isStart_iff {c : Char} : isStart c = true ↔ Leads c := by
  simp only [isStart, Char.isAlpha, Char.isUpper, Char.isLower, Bool.or_eq_true, Bool.and_eq_true,
    decide_eq_true_eq, beq_iff_eq, or_assoc]
  exact Iff.rfl

theorem isRest_iff {c : Char} : isRest c = true ↔ Follows c := by
  have hstart : isRest c = true ↔ isStart c = true ∨ c.isDigit = true := by
    simp only [isRest, isStart, Char.isAlphanum, Bool.or_eq_true]
    tauto
  rw [hstart, isStart_iff, Char.isDigit, Bool.and_eq_true, decide_eq_true_eq, decide_eq_true_eq]
  exact Iff.rfl

/-- Among ASCII characters there are as many bytes as characters. -/
theorem length_bytes {s : String} (h : ∀ c ∈ s.toList, isRest c = true) :
    (bytes s).length = s.toList.length := by
  rw [bytes_eq_flatMap, List.length_flatMap]
  have hone : s.toList.map (fun c => (String.utf8EncodeChar c).length) =
      s.toList.map fun _ => 1 := by
    apply List.map_congr_left
    intro c hc
    have hsmall : c.toNat < 128 := toNat_lt_of_isRest (h c hc)
    rw [String.length_utf8EncodeChar, Char.utf8Size_eq_one_iff, UInt32.le_iff_toNat_le]
    exact Nat.le_of_lt_succ hsmall
  rw [hone, List.map_const', List.sum_replicate]
  simp

theorem isPart_cons {c : Char} {cs : List Char} :
    isPart (c :: cs) = true ↔ cs.length < 63 ∧ Leads c ∧ ∀ d ∈ cs, Follows d := by
  simp only [isPart, Bool.and_eq_true, decide_eq_true_eq, List.all_eq_true, isStart_iff, isRest_iff,
    and_assoc]
  exact Iff.rfl

theorem part_iff {s : String} {c : Char} {cs : List Char} (hs : s.toList = c :: cs) :
    Part s ↔ (bytes s).length ≤ 63 ∧ Leads c ∧ ∀ d ∈ cs, Follows d := by
  constructor
  · rintro ⟨-, hmost, hfirst, hrest⟩
    rw [hs] at hfirst hrest
    exact ⟨hmost, hfirst c rfl, hrest⟩
  · rintro ⟨hmost, hfirst, hrest⟩
    refine ⟨?_, hmost, ?_, ?_⟩
    · apply List.length_pos_of_ne_nil
      intro hnil
      rw [bytes_eq_flatMap, hs, List.flatMap_cons, List.append_eq_nil_iff] at hnil
      exact String.utf8EncodeChar_ne_nil hnil.1
    · rw [hs]
      intro d hd
      exact Option.some.inj hd ▸ hfirst
    · rw [hs]
      exact hrest

theorem isPart_iff {s : String} : isPart s.toList = true ↔ Part s := by
  cases hs : s.toList with
  | nil =>
    constructor
    · intro h
      cases h
    · intro h
      have hone := h.one_le
      rw [bytes_eq_flatMap, hs] at hone
      exact absurd hone (by decide)
  | cons c cs =>
    rw [isPart_cons, part_iff hs]
    have hlength (hfirst : Leads c) (hrest : ∀ d ∈ cs, Follows d) :
        (bytes s).length = cs.length + 1 := by
      rw [length_bytes, hs, List.length_cons]
      intro d hd
      rw [hs] at hd
      rcases List.mem_cons.1 hd with rfl | hd
      · exact isRest_iff.2 (.inl hfirst)
      · exact isRest_iff.2 (hrest d hd)
    constructor
    · rintro ⟨hlt, hfirst, hrest⟩
      have hbytes := hlength hfirst hrest
      exact ⟨by omega, hfirst, hrest⟩
    · rintro ⟨hmost, hfirst, hrest⟩
      have hbytes := hlength hfirst hrest
      exact ⟨by omega, hfirst, hrest⟩

theorem Part.point_not_mem {s : String} (h : Part s) : '.' ∉ s.toList := by
  intro hmem
  have hrest := (isRest_of_isPart (isPart_iff.2 h)).2 '.' hmem
  exact absurd hrest (by decide)

/-- The points of a name are those between its parts. -/
theorem splitOn_intercalate {parts : List String} (hne : parts ≠ [])
    (h : ∀ part ∈ parts, Part part) :
    (".".intercalate parts).toList.splitOn '.' = parts.map String.toList := by
  rw [String.toList_intercalate]
  refine List.splitOn_intercalate '.' ?_ (by simpa using hne)
  intro cs hcs
  obtain ⟨part, hpart, rfl⟩ := List.mem_map.1 hcs
  exact (h part hpart).point_not_mem

/-- The check of a column name. -/
theorem isQualified_iff {s : String} : isQualified s = true ↔ Joined 3 s := by
  simp only [isQualified, Bool.and_eq_true, decide_eq_true_eq, List.all_eq_true]
  constructor
  · rintro ⟨hlength, hparts⟩
    have hmost : (parts s).length ≤ 3 := by
      rw [parts, List.length_map]
      exact hlength
    refine ⟨parts s, List.length_pos_of_ne_nil (parts_ne_nil s), hmost, ?_,
      (intercalate_parts s).symm⟩
    intro part hpart
    obtain ⟨cs, hcs, rfl⟩ := List.mem_map.1 hpart
    rw [← isPart_iff, String.toList_ofList]
    exact hparts cs hcs
  · rintro ⟨parts, hone, hmost, hparts, rfl⟩
    rw [splitOn_intercalate (List.length_pos_iff.1 hone) hparts, List.length_map]
    refine ⟨hmost, fun cs hcs => ?_⟩
    obtain ⟨part, hpart, rfl⟩ := List.mem_map.1 hcs
    exact isPart_iff.2 (hparts part hpart)

/-- The check of the name of a count column. -/
theorem isPlain_iff {s : String} : isPlain s = true ↔ Joined 1 s := by
  rw [isPlain, isPart_iff]
  constructor
  · intro h
    exact ⟨[s], by simp, by simp, by simpa using h, (String.intercalate_singleton).symm⟩
  · rintro ⟨parts, hone, hmost, hparts, rfl⟩
    obtain ⟨part, rfl⟩ := List.length_eq_one_iff.1 (Nat.le_antisymm hmost hone)
    rw [String.intercalate_singleton]
    exact hparts part List.mem_cons_self

end Listing.Identifier
