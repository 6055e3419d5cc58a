import Listing.Proofs.PredicateText

/-!
# Gaps between tokens

Blanks and complete comments are gaps: whatever stands behind one is read as if it stood there alone
(`Gap`). A comment is described by its text, a block by where it does not end yet and a line by its
line break (`IsComment`), and found to be passed in one piece (`IsComment.gap`).

The blanks at the start of a text are counted character by character. Where an ASCII character
follows, no blank reaches across, so that the blanks of two texts in a row are counted in parts
(`blankRun_append`).
-/

namespace Listing

open Text

/-! ## Blanks in parts -/

namespace Text

variable {b : UInt8} {r t : List UInt8}

theorem blankRun_cons (b : UInt8) (r : List UInt8) :
    blankRun (b :: r) =
      if blankWidth (b :: r) = 0 then 0
      else blankWidth (b :: r) + blankRun ((b :: r).drop (blankWidth (b :: r))) := by
  rw [blankRun]
  cases blankWidth (b :: r) <;> rfl

theorem blankWidth_le (bs : List UInt8) : blankWidth bs ≤ bs.length := by
  unfold blankWidth
  split
  · rename_i c hc
    have hprefix := List.find?_some hc
    obtain ⟨t, rfl⟩ := List.isPrefixOf_iff_prefix.1 hprefix
    rw [List.length_append, String.length_utf8EncodeChar]
    omega
  · exact Nat.zero_le _

/-- All bytes of a blank character but its first are beyond ASCII. -/
theorem isBeyond_of_blank {c : Char} (hc : c ∈ blanks) :
    ∀ b ∈ (String.utf8EncodeChar c).tail, Ascii.isBeyond b = true := by
  have hall : (blanks.all fun c => (String.utf8EncodeChar c).tail.all Ascii.isBeyond) = true := by
    decide +kernel
  exact List.all_eq_true.1 (List.all_eq_true.1 hall c hc)

/-- So none goes on into what starts with an ASCII character. -/
theorem blankWidth_append (hr : r ≠ []) (ht : ∀ b ∈ t.head?, Ascii.isBeyond b = false) :
    blankWidth (r ++ t) = blankWidth r := by
  have hprefix : ∀ c ∈ blanks, ((String.utf8EncodeChar c).isPrefixOf (r ++ t) =
      (String.utf8EncodeChar c).isPrefixOf r) := by
    intro c hc
    rw [Bool.eq_iff_iff, List.isPrefixOf_iff_prefix, List.isPrefixOf_iff_prefix]
    refine ⟨fun h => ?_, fun h => h.trans (List.prefix_append r t)⟩
    obtain ⟨s, hs⟩ := h
    rcases List.append_eq_append_iff.1 hs with ⟨r', rfl, -⟩ | ⟨c', hc', rfl⟩
    · exact List.prefix_append _ r'
    cases c' with
    | nil => rw [hc', List.append_nil]
    | cons a c' =>
      -- the character would go on behind `r` with an ASCII byte
      obtain ⟨b, r, rfl⟩ := List.exists_cons_of_ne_nil hr
      have hbeyond := isBeyond_of_blank hc a (by simp [hc'])
      rw [ht a rfl] at hbeyond
      cases hbeyond
  have hfind : (blanks.find? fun c => (String.utf8EncodeChar c).isPrefixOf (r ++ t)) =
      blanks.find? fun c => (String.utf8EncodeChar c).isPrefixOf r :=
    List.find?_congr hprefix
  rw [blankWidth, blankWidth, hfind]

/-- The blanks of a text in front of an ASCII character end within the text, or all of it is blank
and they go on behind it. -/
theorem blankRun_append (r : List UInt8) (ht : ∀ b ∈ t.head?, Ascii.isBeyond b = false) :
    blankRun (r ++ t) =
      if blankRun r < r.length then blankRun r else r.length + blankRun t := by
  fun_induction blankRun r with
  | case1 => simp
  | case2 b r hzero =>
    have hwidth := blankWidth_append (List.cons_ne_nil b r) ht
    rw [hzero, List.cons_append] at hwidth
    rw [List.cons_append, blankRun_cons, if_pos hwidth, List.length_cons,
      if_pos (Nat.zero_lt_succ _)]
  | case3 b r n hsucc ih =>
    have hwidth := blankWidth_append (List.cons_ne_nil b r) ht
    have hle := blankWidth_le (b :: r)
    rw [hsucc, List.cons_append] at hwidth
    rw [hsucc, List.length_cons] at hle
    have hdrop : ((b :: (r ++ t)).drop (n + 1)) = r.drop n ++ t := by
      rw [List.drop_succ_cons, List.drop_append_of_le_length (by omega)]
    rw [List.cons_append, blankRun_cons, hwidth, if_neg (Nat.succ_ne_zero n), hdrop, ih,
      List.length_drop, List.length_cons]
    split
    · rw [if_pos (by omega)]
    · rw [if_neg (by omega)]
      omega

theorem blankRun_le (bs : List UInt8) : blankRun bs ≤ bs.length := by
  fun_induction blankRun bs with
  | case1 => exact Nat.le_refl 0
  | case2 => exact Nat.zero_le _
  | case3 b r n hsucc ih =>
    have hle := blankWidth_le (b :: r)
    rw [hsucc, List.length_cons] at hle
    rw [List.length_drop] at ih
    rw [List.length_cons]
    omega

/-- What starts like no blank character starts with no blanks. -/
theorem blankRun_eq_zero
    (h : (blanks.all fun c => (String.utf8EncodeChar c).head? != some b) = true) :
    blankRun (b :: r) = 0 := by
  have hwidth : blankWidth (b :: r) = 0 := by
    unfold blankWidth
    split
    · rename_i c hc
      have hprefix := List.find?_some hc
      obtain ⟨t, ht⟩ := List.isPrefixOf_iff_prefix.1 hprefix
      have hne := List.all_eq_true.1 h c (List.mem_of_find?_eq_some hc)
      cases hbytes : String.utf8EncodeChar c with
      | nil =>
        have hlength := String.length_utf8EncodeChar c
        rw [hbytes] at hlength
        exact hlength.symm
      | cons a s =>
        rw [hbytes] at ht hne
        obtain ⟨rfl, -⟩ := List.cons.inj ht
        simp at hne
    · rfl
  rw [blankRun_cons, if_pos hwidth]

theorem blankRun_blank (hb : Lexeme.isBlankByte b = true) (r : List UInt8) :
    blankRun (b :: r) = 1 + blankRun r := by
  have hwidth : blankWidth (b :: r) = 1 := by
    rcases eq_of_isBlankByte hb with rfl | rfl | rfl | rfl | rfl <;> rfl
  rw [blankRun_cons, hwidth, if_neg Nat.one_ne_zero]
  rfl

end Text

/-! ## Gaps -/

/-- Whether a lexeme is more than a blank or a comment. -/
def Lexeme.isToken (x : Lexeme) : Bool := x.kind != .blank && x.kind != .comment

/-- The words, quoted runs and single bytes of a text, without its blanks and comments. -/
def tokenLexemes (u : List UInt8) : List Lexeme := (lexemes u).filter Lexeme.isToken

/-- A text of blanks and comments that ends where the last of them does, whatever follows. -/
structure Gap (u : List UInt8) : Prop where
  noToken : ∀ x ∈ lexemes u, x.isToken = false
  append : ∀ v, lexemes (u ++ v) = lexemes u ++ lexemes v

namespace Gap

variable {u v : List UInt8}

theorem nil : Gap [] := by
  refine ⟨fun x hx => ?_, fun v => ?_⟩
  · rw [lexemes_nil] at hx
    cases hx
  · rw [lexemes_nil, List.nil_append, List.nil_append]

theorem join (hu : Gap u) (hv : Gap v) : Gap (u ++ v) := by
  refine ⟨fun x hx => ?_, fun w => ?_⟩
  · rw [hu.append] at hx
    rcases List.mem_append.1 hx with hx | hx
    · exact hu.noToken x hx
    · exact hv.noToken x hx
  · rw [List.append_assoc, hu.append, hv.append, hu.append, List.append_assoc]

/-- Lexemes that stay what they are, whatever follows. -/
theorem of_lexemes (xs : List Lexeme) (hxs : ∀ x ∈ xs, x.isToken = false)
    (h : ∀ v, lexemes (u ++ v) = xs ++ lexemes v) : Gap u := by
  have hu : lexemes u = xs := by simpa [lexemes_nil] using h []
  exact ⟨hu ▸ hxs, fun v => by rw [h, hu]⟩

theorem blank {b : UInt8} (hb : Lexeme.isBlankByte b = true) : Gap [b] :=
  of_lexemes [⟨.blank, [b]⟩] (by simp [Lexeme.isToken]) fun v => lexemes_blank hb v

theorem of_blanks (h : ∀ b ∈ u, Lexeme.isBlankByte b = true) : Gap u := by
  induction u with
  | nil => exact nil
  | cons b u ih =>
    exact (blank (h b List.mem_cons_self)).join (ih fun a ha => h a (List.mem_cons_of_mem b ha))

/-- A gap in front of a text adds no token to it. -/
theorem tokenLexemes_append (hu : Gap u) (v : List UInt8) :
    tokenLexemes (u ++ v) = tokenLexemes v := by
  have hnil : (lexemes u).filter Lexeme.isToken = [] := by
    refine List.filter_eq_nil_iff.2 fun x hx => ?_
    rw [hu.noToken x hx]
    exact Bool.false_ne_true
  rw [tokenLexemes, hu.append, List.filter_append, hnil, List.nil_append]
  rfl

end Gap

/-- What is neither code nor a word is passed without changing anything but the position. -/
theorem Scan.foldl_mute {xs : List Lexeme} (s : Scan)
    (h : ∀ x ∈ xs, x.isToken = false ∨ (x.kind = .semicolon ∧ s.depth = 0)) :
    s.words xs = [] ∧ (xs.foldl pass s).codeEnd = s.codeEnd ∧
      (xs.foldl pass s).depth = s.depth := by
  induction xs generalizing s with
  | nil => exact ⟨rfl, rfl, rfl⟩
  | cons x xs ih =>
    have hkind : x.kind = .blank ∨ x.kind = .comment ∨ (x.kind = .semicolon ∧ s.depth = 0) := by
      simpa [Lexeme.isToken, imp_iff_not_or, or_assoc] using h x List.mem_cons_self
    have hpass : (s.pass x).codeEnd = s.codeEnd ∧ (s.pass x).depth = s.depth := by
      rcases hkind with hkind | hkind | ⟨hkind, hdepth⟩ <;> simp [pass, isCode, *]
    have hword : s.word? x = none := by
      rcases hkind with hkind | hkind | ⟨hkind, -⟩ <;> simp [word?, hkind]
    obtain ⟨hwords, hend, hdepth⟩ := ih (s.pass x) fun y hy => by
      rw [hpass.2]
      exact h y (List.mem_cons_of_mem x hy)
    refine ⟨?_, hend.trans hpass.1, hdepth.trans hpass.2⟩
    rw [words, hword, hwords]
    rfl

/-! ## Comments -/

/-- A complete comment: a block up to the first `*/` in it, or a line with its line break. -/
inductive IsComment : List UInt8 → Prop
  | block {u : List UInt8} (h : ¬[Ascii.asterisk, Ascii.slash] <:+: u) :
      IsComment (Ascii.slash :: Ascii.asterisk :: (u ++ [Ascii.asterisk, Ascii.slash]))
  | line {u : List UInt8} (h : Ascii.newline ∉ u) :
      IsComment (Ascii.hyphen :: Ascii.hyphen :: (u ++ [Ascii.newline]))

/-- A block comment ends with the first `*/`. -/
theorem Lexeme.splitBlock_of_not_infix {u : List UInt8} (v : List UInt8)
    (h : ¬[Ascii.asterisk, Ascii.slash] <:+: u) :
    splitBlock (u ++ Ascii.asterisk :: Ascii.slash :: v) =
      (u ++ [Ascii.asterisk, Ascii.slash], v) := by
  induction u with
  | nil => simp [splitBlock]
  | cons b u ih =>
    have hrest := ih fun hinside => h (hinside.trans (List.infix_cons List.infix_rfl))
    cases u with
    | nil =>
      have hne : Ascii.asterisk ≠ Ascii.slash := by decide
      simp [splitBlock, hne]
    | cons c u =>
      have hne : ¬(b = Ascii.asterisk ∧ c = Ascii.slash) := by
        rintro ⟨rfl, rfl⟩
        exact h (List.prefix_append [Ascii.asterisk, Ascii.slash] u).isInfix
      rw [List.cons_append] at hrest
      simp only [List.cons_append, splitBlock, hne, ↓reduceIte, hrest]

/-- A line comment goes up to the line break behind it, or to the end of the text. -/
theorem lexemes_line {u v : List UInt8} (h : Ascii.newline ∉ u)
    (hv : ∀ b ∈ v.head?, b = Ascii.newline) :
    lexemes (Ascii.hyphen :: Ascii.hyphen :: (u ++ v)) =
      ⟨.comment, Ascii.hyphen :: Ascii.hyphen :: u⟩ :: lexemes v := by
  have hu : ∀ b ∈ u, (b != Ascii.newline) = true := by
    intro b hb
    simp only [bne_iff_ne, ne_eq]
    rintro rfl
    exact h hb
  have hstop : v.takeWhile (· != Ascii.newline) = [] ∧ v.dropWhile (· != Ascii.newline) = v := by
    cases v with
    | nil => exact ⟨rfl, rfl⟩
    | cons b v =>
      obtain rfl := hv b rfl
      exact ⟨rfl, rfl⟩
  have hbegins := (Lexeme.Begins.line (r := u ++ v)).first_eq
  rw [List.takeWhile_append_of_pos hu, List.dropWhile_append_of_pos hu, hstop.1, hstop.2,
    List.append_nil] at hbegins
  rw [lexemes_cons, hbegins]

namespace IsComment

variable {c : List UInt8}

theorem gap (h : IsComment c) : Gap c := by
  cases h with
  | @block u h =>
    have hcomment (v : List UInt8) :
        lexemes (Ascii.slash :: Ascii.asterisk :: (u ++ [Ascii.asterisk, Ascii.slash]) ++ v) =
          [⟨.comment, Ascii.slash :: Ascii.asterisk :: (u ++ [Ascii.asterisk, Ascii.slash])⟩] ++
            lexemes v := by
      have hbegins := (Lexeme.Begins.block
        (r := u ++ Ascii.asterisk :: Ascii.slash :: v)).first_eq
      rw [Lexeme.splitBlock_of_not_infix v h] at hbegins
      simp only [List.cons_append, List.append_assoc, List.nil_append]
      rw [lexemes_cons, hbegins]
    exact .of_lexemes _ (by simp [Lexeme.isToken]) hcomment
  | @line u h =>
    have hcomment (v : List UInt8) :
        lexemes (Ascii.hyphen :: Ascii.hyphen :: (u ++ [Ascii.newline]) ++ v) =
          [⟨.comment, Ascii.hyphen :: Ascii.hyphen :: u⟩, ⟨.blank, [Ascii.newline]⟩] ++
            lexemes v := by
      have hline := lexemes_line (v := Ascii.newline :: v) h fun b hb => (Option.some.inj hb).symm
      rw [lexemes_blank (b := Ascii.newline) rfl] at hline
      simpa using hline
    exact .of_lexemes _ (by simp [Lexeme.isToken]) hcomment

/-- A comment starts with an ASCII character that is no blank. -/
theorem blankRun_eq_zero (h : IsComment c) (v : List UInt8) : blankRun (c ++ v) = 0 := by
  cases h with
  | block => exact Text.blankRun_eq_zero (by decide +kernel)
  | line => exact Text.blankRun_eq_zero (by decide +kernel)

end IsComment

end Listing
