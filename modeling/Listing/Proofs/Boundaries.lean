import Listing.Proofs.Rendering
import Listing.Proofs.Scanning
import Listing.Text.Blank

/-!
# Boundaries of characters

A text may be cut between two of its characters, but not inside one (`Text.Boundary`); what stands
between two such positions is a text again (`Text.Boundary.exists_between`). There is a boundary in
front of every ASCII byte and behind it.

Each lexeme ends with an ASCII byte, in front of one or with the text (`Lexeme.Begins.ascii`). So
all positions in an outline are boundaries (`Outline.boundary_stop`, `Outline.boundary_codeEnd`),
also in a text with an unclosed quote or comment, where nothing is known of how the rest reads.
-/

namespace Listing

open Text

/-! ## Where a text may be cut -/

theorem length_bytes (s : String) : (bytes s).length = s.utf8ByteSize := rfl

/-- A text that starts with the bytes of a character starts with the character. -/
theorem Text.exists_of_char {v : String} {c : Char} {t : List UInt8}
    (h : bytes v = String.utf8EncodeChar c ++ t) :
    ∃ w, v = String.singleton c ++ w ∧ bytes w = t := by
  have hbytes : v.toByteArray = [c].utf8Encode ++ ⟨t.toArray⟩ := by
    apply ByteArray.ext
    apply Array.toList_inj.1
    rw [List.utf8Encode_singleton]
    simpa [bytes] using h
  have hvalid := v.isValidUTF8
  rw [hbytes, ByteArray.isValidUTF8_utf8Encode_singleton_append_iff] at hvalid
  refine ⟨⟨⟨t.toArray⟩, hvalid⟩, String.toByteArray_inj.1 ?_, by simp [bytes]⟩
  simp [String.toByteArray_append, hbytes, List.utf8Encode_singleton]

/-- A position in bytes that lies within a text and not inside one of its characters. -/
def Text.Boundary (s : String) (position : Nat) : Prop := String.Pos.Raw.IsValid s ⟨position⟩

namespace Text.Boundary

variable {s : String} {p q : Nat} {b : UInt8}

instance (s : String) (p : Nat) : Decidable (Boundary s p) :=
  inferInstanceAs (Decidable (String.Pos.Raw.IsValid s ⟨p⟩))

/-- At a boundary a text is two texts. -/
theorem exists_append (h : Boundary s p) : ∃ u v, s = u ++ v ∧ p = (bytes u).length := by
  obtain ⟨u, v, hs, hp⟩ := String.Pos.Raw.isValid_iff_exists_append.1 h
  exact ⟨u, v, hs, congrArg String.Pos.Raw.byteIdx hp⟩

theorem of_append {u v : String} : Boundary (u ++ v) (bytes u).length :=
  String.Pos.Raw.isValid_iff_exists_append.2 ⟨u, v, rfl, rfl⟩

theorem zero (s : String) : Boundary s 0 := by
  have h := of_append (u := "") (v := s)
  rwa [String.empty_append] at h

theorem length (s : String) : Boundary s (bytes s).length := by
  have h := of_append (u := s) (v := "")
  rwa [String.append_empty] at h

theorem le (h : Boundary s p) : p ≤ (bytes s).length := by
  obtain ⟨u, v, rfl, rfl⟩ := h.exists_append
  simp

/-- What stands between two boundaries is a text. -/
theorem exists_between (hp : Boundary s p) (hq : Boundary s q) (hle : p ≤ q) :
    ∃ t, ofBytes? (((bytes s).take q).drop p) = some t := by
  obtain ⟨u, v, rfl, rfl⟩ := hq.exists_append
  have hu : Boundary u p := by
    rcases String.Pos.Raw.isValid_append.1 hp with hu | ⟨hge, -⟩
    · exact hu
    · obtain rfl : p = (bytes u).length := Nat.le_antisymm hle hge
      exact length u
  obtain ⟨a, t, rfl, rfl⟩ := hu.exists_append
  refine ⟨t, ?_⟩
  rw [bytes_append (a ++ t), List.take_left' rfl, bytes_append, List.drop_left' rfl, ofBytes?_bytes]

/-- Where the bytes of a character stand at a boundary, there is a boundary behind them. -/
theorem behind_char {c : Char} (h : Boundary s p)
    (hstarts : String.utf8EncodeChar c <+: (bytes s).drop p) : Boundary s (p + c.utf8Size) := by
  obtain ⟨u, v, rfl, rfl⟩ := h.exists_append
  rw [bytes_append, List.drop_left' rfl] at hstarts
  obtain ⟨t, ht⟩ := hstarts
  obtain ⟨w, rfl, -⟩ := exists_of_char ht.symm
  have hlength : (bytes (u ++ String.singleton c)).length = (bytes u).length + c.utf8Size := by
    rw [bytes_append, List.length_append, length_bytes (String.singleton c),
      String.utf8ByteSize_singleton]
  rw [← hlength, ← String.append_assoc]
  exact of_append

/-! ### ASCII bytes -/

/-- A text may be cut in front of an ASCII byte. -/
theorem of_ascii (h : (bytes s)[p]? = some b) (hb : b < 128) : Boundary s p := by
  have hfirst : ∀ n < 128, (UInt8.ofNat n).IsUTF8FirstByte := by decide +kernel
  obtain ⟨hlt, hget⟩ := List.getElem?_eq_some_iff.1 h
  refine String.Pos.Raw.isValid_iff_isUTF8FirstByte.2 (.inr ⟨hlt, ?_⟩)
  have hbyte : s.getUTF8Byte ⟨p⟩ hlt = b := hget
  rw [hbyte, ← UInt8.ofNat_toNat (x := b)]
  exact hfirst b.toNat (UInt8.lt_iff_toNat_lt.1 hb)

/-- A text may be cut behind an ASCII byte, since that is a character. -/
theorem behind_ascii (h : (bytes s)[p]? = some b) (hb : b < 128) : Boundary s (p + 1) := by
  have hchars : ∀ n < 128, String.utf8EncodeChar (Char.ofNat n) = [UInt8.ofNat n] := by
    decide +kernel
  have hchar := hchars b.toNat (UInt8.lt_iff_toNat_lt.1 hb)
  rw [UInt8.ofNat_toNat] at hchar
  have hsize : (Char.ofNat b.toNat).utf8Size = 1 := by
    rw [← String.length_utf8EncodeChar, hchar]
    rfl
  have hstarts : String.utf8EncodeChar (Char.ofNat b.toNat) <+: (bytes s).drop p := by
    obtain ⟨hlt, rfl⟩ := List.getElem?_eq_some_iff.1 h
    rw [hchar, List.drop_eq_getElem_cons hlt]
    exact List.prefix_append [(bytes s)[p]] _
  have hbehind := (of_ascii h hb).behind_char hstarts
  rwa [hsize] at hbehind

/-! ### Blanks -/

theorem behind_blank (h : Boundary s p) : Boundary s (p + blankWidth ((bytes s).drop p)) := by
  unfold blankWidth
  split
  · rename_i c hc
    exact h.behind_char (List.isPrefixOf_iff_prefix.1 (by simpa using List.find?_some hc))
  · exact h

/-- The blanks behind a boundary end at a boundary. -/
theorem behind_blanks (h : Boundary s p) : Boundary s (p + blankRun ((bytes s).drop p)) := by
  generalize hrest : (bytes s).drop p = rest
  fun_induction blankRun rest generalizing p with
  | case1 => exact h
  | case2 b r hzero => exact h
  | case3 b r n hsucc ih =>
    have hfirst := h.behind_blank
    rw [hrest, hsucc] at hfirst
    have hdrop : (bytes s).drop (p + (n + 1)) = r.drop n := by
      rw [← List.drop_drop, hrest, List.drop_succ_cons]
    have hlast := ih hfirst hdrop
    rwa [Nat.add_assoc] at hlast

end Text.Boundary

/-! ## Lexemes and characters -/

namespace Lexeme

theorem ascii_of_isQuote {b : UInt8} (h : isQuote b = true) : b < 128 := by
  simp only [isQuote, Bool.or_eq_true, beq_iff_eq] at h
  rcases h with (rfl | rfl) | rfl <;> decide

theorem ascii_of_not_isWordByte {b : UInt8} (h : isWordByte b = false) : b < 128 := by
  simp only [isWordByte, Bool.or_eq_false_iff, Ascii.isBeyond, decide_eq_false_iff_not] at h
  exact UInt8.not_le.1 h.1.1.2

/-- A block comment that something follows ends with its slash. -/
theorem getLast?_splitBlock_of_rest {r : List UInt8} (hrest : (splitBlock r).2 ≠ []) :
    (splitBlock r).1.getLast? = some Ascii.slash := by
  fun_induction splitBlock r with
  | case1 => exact absurd rfl hrest
  | case2 b => exact absurd rfl hrest
  | case3 b c r hclose =>
    rw [hclose.2]
    rfl
  | case4 b c r hopen inside rest hsplit ih =>
    rw [hsplit] at ih
    simp [List.getLast?_cons, ih hrest]

/-- A lexeme that something follows ends with an ASCII byte, or one follows it. -/
theorem Begins.ascii {b : UInt8} {r rest : List UInt8} {x : Lexeme} (h : Begins b r x rest)
    (hrest : rest ≠ []) :
    (∃ a, x.text.getLast? = some a ∧ a < 128) ∨ ∃ a, rest.head? = some a ∧ a < 128 := by
  cases h with
  | quoted hquote =>
    left
    refine ⟨b, ?_, ascii_of_isQuote hquote⟩
    rw [List.getLast?_cons, getLast?_splitQuoted_of_rest hrest, Option.getD_some]
  | @line r =>
    right
    obtain ⟨a, t, ha⟩ := List.exists_cons_of_ne_nil hrest
    have hhead := List.head?_dropWhile_not (· != Ascii.newline) r
    rw [ha] at hhead ⊢
    obtain rfl : a = Ascii.newline := by simpa using hhead
    exact ⟨_, rfl, by decide⟩
  | block =>
    left
    refine ⟨Ascii.slash, ?_, by decide⟩
    rw [List.getLast?_cons, List.getLast?_cons, getLast?_splitBlock_of_rest hrest]
    rfl
  | @word b r hword =>
    right
    obtain ⟨a, t, ha⟩ := List.exists_cons_of_ne_nil hrest
    have hhead := List.head?_dropWhile_not isWordByte r
    rw [ha] at hhead ⊢
    exact ⟨a, rfl, ascii_of_not_isWordByte (by simpa using hhead)⟩
  | single hquote hline hblock hword =>
    left
    exact ⟨b, rfl, ascii_of_not_isWordByte hword⟩

end Lexeme

/-! ## The positions of an outline -/

/-- The end of a lexeme is a boundary. -/
theorem Lexeme.Begins.boundary {s : String} {passed r rest : List UInt8} {b : UInt8} {x : Lexeme}
    (h : Lexeme.Begins b r x rest) (hs : bytes s = passed ++ b :: r) :
    Boundary s (passed ++ x.text).length := by
  have hbytes : bytes s = (passed ++ x.text) ++ rest := by
    rw [List.append_assoc, h.append, hs]
  by_cases hrest : rest = []
  · have hend := Boundary.length s
    rwa [hbytes, hrest, List.append_nil] at hend
  rcases h.ascii hrest with ⟨a, hlast, ha⟩ | ⟨a, hhead, ha⟩
  · -- the byte in front of the end is the last one of the lexeme
    obtain ⟨u, hu⟩ := List.getLast?_eq_some_iff.1 hlast
    have hat : (bytes s)[(passed ++ u).length]? = some a := by
      rw [hbytes, hu, ← List.append_assoc, List.append_assoc _ [a],
        List.getElem?_append_right (Nat.le_refl _), Nat.sub_self]
      rfl
    have hbehind := Boundary.behind_ascii hat ha
    rw [hu, ← List.append_assoc, List.length_append]
    exact hbehind
  · refine Boundary.of_ascii (b := a) ?_ ha
    rw [hbytes, List.getElem?_append_right (Nat.le_refl _), Nat.sub_self, ← List.head?_eq_getElem?,
      hhead]

namespace Scan

variable {passed rest : List UInt8} {s : Scan} {base : String}

/-- A scan stands at a boundary, and so does the end of the code that it has passed. -/
theorem Reaches.boundary (h : Reaches passed rest s) (hbase : bytes base = passed ++ rest) :
    Boundary base s.position ∧ Boundary base s.codeEnd := by
  induction h with
  | start => exact ⟨Boundary.zero base, Boundary.zero base⟩
  | @pass passed r rest b x s h hx ih =>
    have hfront : bytes base = passed ++ b :: r := by
      rw [hbase, hx.append_append]
    have hend : Boundary base (s.position + x.text.length) := by
      rw [h.position_eq, ← List.length_append]
      exact hx.boundary hfront
    refine ⟨hend, ?_⟩
    unfold Scan.pass
    dsimp only
    split
    · exact hend
    · exact (ih hfront).2

end Scan

namespace Outline

variable {base : String} {w : Word}

theorem boundary_before (hw : w ∈ (Outline.of (bytes base)).words) : Boundary base w.before := by
  obtain ⟨passed, r, rest, b, x, s, hbase, hreaches, -, hword⟩ := reaches_word hw
  obtain ⟨-, -, -, rfl⟩ := Scan.word?_eq_some hword
  exact (hreaches.boundary hbase.symm).2

theorem boundary_start (hw : w ∈ (Outline.of (bytes base)).words) : Boundary base w.start := by
  obtain ⟨passed, r, rest, b, x, s, hbase, hreaches, -, hword⟩ := reaches_word hw
  obtain ⟨-, -, -, rfl⟩ := Scan.word?_eq_some hword
  exact (hreaches.boundary hbase.symm).1

theorem boundary_stop (hw : w ∈ (Outline.of (bytes base)).words) : Boundary base w.stop := by
  obtain ⟨passed, r, rest, b, x, s, hbase, hreaches, hx, hword⟩ := reaches_word hw
  obtain ⟨-, -, -, rfl⟩ := Scan.word?_eq_some hword
  rw [hreaches.position_eq, ← List.length_append]
  exact hx.boundary hbase.symm

theorem boundary_codeEnd (base : String) : Boundary base (Outline.of (bytes base)).codeEnd :=
  ((reaches_end (bytes base)).boundary (List.append_nil _).symm).2

end Outline

end Listing
