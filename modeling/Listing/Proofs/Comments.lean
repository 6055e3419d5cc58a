import Listing.Proofs.Gaps
import Listing.Proofs.Marks
import Listing.Proofs.Relocation

/-!
# A comment more in a statement

What a comment behind a blank does to the outline of a statement: the positions behind the blank
move on by the length of what is put there, and all else stays (`Remark.outline_commented`). The
site moves with the outline, except for one thing. A comment behind the blanks after WHERE is no
blank, so that the base predicate then starts in front of the comment (`Remark.start_cases`).
-/

namespace Listing

open Text

/-- A position as it is when some bytes are put into a text at another one. -/
def slide (n k position : Nat) : Nat := if position < n then position else position + k

theorem slide_of_lt {n k p : Nat} (h : p < n) : slide n k p = p := if_pos h

theorem slide_of_le {n k p : Nat} (h : n ≤ p) : slide n k p = p + k := if_neg (Nat.not_lt_of_le h)

theorem strictMono_slide (n k : Nat) : StrictMono (slide n k) := by
  intro a b hab
  unfold slide
  split <;> split <;> omega

/-! ## Scans further on -/

namespace Scan

variable {n k : Nat} {s s' : Scan} {x : Lexeme} {xs : List Lexeme}

/-- Behind a text, a scan knows whether a point is its last byte. -/
theorem foldl_afterPoint {u : List UInt8} (hne : u ≠ []) (s : Scan) :
    ((lexemes u).foldl pass s).afterPoint = (u.getLast? == some Ascii.point) := by
  have hlexemes : lexemes u ≠ [] := by
    intro hnil
    have hflat := lexemes_flatten u
    rw [hnil] at hflat
    exact hne hflat.symm
  have hlast := List.getLast?_eq_some_getLast hlexemes
  rw [getLast?_of_lexemes hlast]
  conv => lhs; rw [← List.dropLast_concat_getLast hlexemes]
  rw [List.foldl_append]
  rfl

/-- A scan that has got to the same place in a text with some bytes more. -/
structure Slid (n k : Nat) (s s' : Scan) : Prop where
  le : n ≤ s.position
  position : s'.position = s.position + k
  depth : s'.depth = s.depth
  codeEnd : s'.codeEnd = slide n k s.codeEnd
  afterPoint : s'.afterPoint = s.afterPoint

theorem Slid.pass (h : Slid n k s s') (x : Lexeme) : Slid n k (s.pass x) (s'.pass x) := by
  obtain ⟨hle, hposition, hdepth, hend, -⟩ := h
  have hcode : s'.isCode x = s.isCode x := by
    rw [isCode, isCode, hdepth]
  refine ⟨Nat.le_trans hle (Nat.le_add_right _ _), ?_, ?_, ?_, rfl⟩
  · rw [pass_position, pass_position, hposition]
    omega
  · rw [pass_depth, pass_depth, hdepth]
  · simp only [Scan.pass, hcode, hposition, hend]
    split
    · rw [slide_of_le (by omega)]
      omega
    · rfl

theorem Slid.word? (h : Slid n k s s') (x : Lexeme) :
    s'.word? x = (s.word? x).map (Word.move (slide n k)) := by
  obtain ⟨hle, hposition, hdepth, hend, hpoint⟩ := h
  unfold Scan.word?
  rw [hdepth, hpoint, hposition, hend]
  split
  · have hstop : slide n k (s.position + x.text.length) = s.position + k + x.text.length := by
      rw [slide_of_le (Nat.le_trans hle (Nat.le_add_right _ _))]
      omega
    rw [Option.map_some, Word.move, slide_of_le hle, hstop]
  · rfl

theorem Slid.words (h : Slid n k s s') (xs : List Lexeme) :
    s'.words xs = (s.words xs).map (Word.move (slide n k)) := by
  induction xs generalizing s s' with
  | nil => rfl
  | cons x xs ih =>
    rw [Scan.words, Scan.words, h.word? x, ih (h.pass x), List.map_append, Option.toList_map]

theorem Slid.foldl (h : Slid n k s s') (xs : List Lexeme) :
    Slid n k (xs.foldl Scan.pass s) (xs.foldl Scan.pass s') := by
  induction xs generalizing s s' with
  | nil => exact h
  | cons x xs ih => exact ih (h.pass x)

end Scan

/-! ## Blanks behind a word -/

/-- Where a clause ends, code ends. -/
theorem Site.exists_codeEnds (text : List UInt8) (ks : List Keyword) (position : Nat) :
    ∃ p, CodeEnds text p (clauseEnd text ks position) := by
  unfold clauseEnd
  cases hp : (Outline.of text).earliest? ks position with
  | none => exact ⟨_, Outline.codeEnds_codeEnd text⟩
  | some place =>
    obtain ⟨w, hw, -, -, rfl, -, -⟩ := Outline.place_words (List.mem_of_head? hp)
    exact ⟨w.start, (Outline.mem_words_iff.1 hw).before⟩

/-- A blank at a cut is no code. -/
theorem Cut.codeAt_of_blank {text : List UInt8} {p d : Nat} {b : UInt8} (h : Cut text p d)
    (hb : text[p]? = some b) (hblank : Lexeme.isBlankByte b = true) : codeAt text p = false := by
  obtain ⟨hlt, hget⟩ := List.getElem?_eq_some_iff.1 hb
  have hplain := isPlain_blanks (u := [b]) (by simpa using hblank) b List.mem_cons_self
  have hmark : (({} : Reader).marks text)[p]? = some ⟨.code, d⟩ := by
    conv => lhs; rw [← List.take_append_drop p text]
    rw [Reader.marks_append h.splits, h.reads, List.drop_eq_getElem_cons hlt, hget,
      List.getElem?_append_right (by simp), Reader.length_marks, List.length_take,
      Nat.min_eq_left h.le, Nat.sub_self, Reader.marks_cons, Reader.mark_of_isPlain hplain]
    rfl
  have hmarked : markedAt? text p = some (⟨.code, d⟩, b) :=
    List.getElem?_zip_eq_some.2 ⟨hmark, hb⟩
  rw [codeAt, hmarked]
  simp [Mark.isCode, hblank]

/-- If there is code behind a word before the clause ends, some of it stands behind the blanks that
follow the word. -/
theorem Site.blankRun_lt_clauseEnd {text : List UInt8} {w : Word} (hplain : PlainBlanks text)
    (hw : w ∈ (Outline.of text).words) (ks : List Keyword)
    (hlt : w.stop < clauseEnd text ks w.stop) :
    w.stop + blankRun (text.drop w.stop) < clauseEnd text ks w.stop := by
  obtain ⟨p, hends⟩ := exists_codeEnds text ks w.stop
  generalize clauseEnd text ks w.stop = stop at *
  refine Nat.lt_of_not_le fun hle => ?_
  have hcode := hends.last (stop - 1) (by omega)
  have hblanks := blank_of_blankRun (hplain.drop (Outline.joint_stop hw))
  have hplain' := isPlain_of_blankRun (text.drop w.stop)
  have hrun := blankRun_le (text.drop w.stop)
  rw [List.length_drop] at hrun
  have hcut : Cut text (stop - 1) 0 := by
    have hadvance := (Outline.cut_stop hw).advance (n := stop - 1 - w.stop)
      (fun b hb => hplain' b (List.take_subset_take_left _ (by omega) hb)) (by omega)
    rwa [Nat.add_sub_cancel' (by omega)] at hadvance
  have hget : ∃ b, text[stop - 1]? = some b ∧ Lexeme.isBlankByte b = true := by
    refine ⟨text[stop - 1], List.getElem?_eq_getElem (by omega), hblanks _ ?_⟩
    rw [List.mem_take_iff_getElem]
    refine ⟨stop - 1 - w.stop, by rw [List.length_drop]; omega, ?_⟩
    rw [List.getElem_drop]
    congr 1
    omega
  obtain ⟨b, hb, hblank⟩ := hget
  rw [hcut.codeAt_of_blank hb hblank] at hcode
  cases hcode

/-! ## The outline -/

theorem markedAt?_append {u v : List UInt8} {i : Nat} (h : Reader.Splits u v) (hi : i < u.length) :
    markedAt? (u ++ v) i = markedAt? u i := by
  rw [markedAt?, markedAt?, Reader.marks_append h,
    List.zip_append (by rw [Reader.length_marks]), List.getElem?_append_left]
  rwa [List.length_zip, Reader.length_marks, Nat.min_self]

/-- Nothing reaches across a blank. -/
theorem Seam.of_blank {w : UInt8} (hw : Lexeme.isBlankByte w = true) (u v : List UInt8) :
    Seam (u ++ [w]) v := by
  refine ⟨fun a ha b _ => ?_, fun a ha hpoint => ?_⟩ <;>
    rw [List.getLast?_concat, Option.mem_some_iff] at ha <;> subst ha
  · rcases eq_of_isBlankByte hw with rfl | rfl | rfl | rfl | rfl <;>
      exact ⟨fun h => absurd h.1 (by decide), fun h => absurd h.1 (by decide), rfl, rfl⟩
  · rw [hpoint] at hw
    cases hw

/-- A text and a comment to put into it: behind a blank outside quotes and comments, with the same
blank behind it. -/
structure Remark where
  front : List UInt8
  blank : UInt8
  comment : List UInt8
  back : List UInt8
  isBlank : Lexeme.isBlankByte blank = true
  inCode : ∃ depth,
    markedAt? (front ++ [blank] ++ back) front.length = some (⟨.code, depth⟩, blank)
  isComment : IsComment comment

namespace Remark

variable (r : Remark)

/-- The text up to the blank. -/
def head : List UInt8 := r.front ++ [r.blank]

/-- What is put behind it. -/
def gap : List UInt8 := r.comment ++ [r.blank]

/-- The text without the comment. -/
def bare : List UInt8 := r.head ++ r.back

/-- The text with the comment. -/
def commented : List UInt8 := r.head ++ (r.gap ++ r.back)

/-- Where a position of the text is with the comment in it. -/
def slide (position : Nat) : Nat := Listing.slide r.head.length r.gap.length position

theorem strictMono_slide : StrictMono r.slide :=
  Listing.strictMono_slide r.head.length r.gap.length

theorem length_head : r.head.length = r.front.length + 1 := by simp [head]

theorem isGap : Gap r.gap := r.isComment.gap.join (.blank r.isBlank)

theorem seam_head (t : List UInt8) : Seam r.head t := .of_blank r.isBlank r.front t

/-- The text up to the blank ends in code: also if the blank is the line break of a comment. -/
theorem endsInCode_head : EndsInCode r.head := by
  have hsplits (t : List UInt8) : Reader.Splits r.front (r.blank :: t) := by
    refine Reader.splits_of_head fun b hb => ?_
    rw [← Option.some.inj hb]
    rcases eq_of_isBlankByte r.isBlank with heq | heq | heq | heq | heq <;> rw [heq] <;> decide
  obtain ⟨d, hmarked⟩ := r.inCode
  rw [List.append_assoc, List.singleton_append, markedAt?, List.getElem?_zip_eq_some,
    Reader.marks_append (hsplits r.back), List.getElem?_append_right (by rw [Reader.length_marks]),
    Reader.length_marks, Nat.sub_self] at hmarked
  have hmark : (({} : Reader).after r.front).mark r.blank r.back.head? = ⟨.code, d⟩ :=
    Option.some.inj hmarked.1
  have hplain := isPlain_blanks (u := [r.blank]) (by simpa using r.isBlank) r.blank
    List.mem_cons_self
  rw [EndsInCode, head, Reader.after_append (hsplits [])]
  generalize ({} : Reader).after r.front = reader at hmark
  obtain ⟨mode, depth⟩ := reader
  rw [Reader.after_cons, Reader.after_nil]
  cases mode with
  | code => rw [Reader.step_of_isPlain hplain]
  | quoted => cases hmark
  | line =>
    by_cases hnewline : r.blank = Ascii.newline
    · simp [Reader.step, hnewline]
    · simp [Reader.mark, hnewline] at hmark
  | opening => cases hmark
  | block => cases hmark

/-- The blank is no code, so the code in front of it ends there. -/
theorem codeEnd_lt : (Outline.of r.head).codeEnd < r.head.length := by
  have hends := Outline.codeEnds_codeEnd r.head
  refine Nat.lt_of_le_of_ne hends.le fun heq => ?_
  have hcode := hends.last r.front.length (by rw [heq, r.length_head])
  obtain ⟨d, hmarked⟩ := r.inCode
  change markedAt? (r.head ++ r.back) r.front.length = _ at hmarked
  rw [markedAt?_append (r.seam_head r.back).splits (by rw [r.length_head]; omega)] at hmarked
  rw [codeAt, hmarked] at hcode
  simp [Mark.isCode, r.isBlank] at hcode

/-- Behind the comment a scan is where it is in front of it, but for the position. -/
theorem slid : Scan.Slid r.head.length r.gap.length ((lexemes r.head).foldl Scan.pass {})
    ((lexemes r.gap).foldl Scan.pass ((lexemes r.head).foldl Scan.pass {})) := by
  obtain ⟨-, hend, hdepth⟩ := Scan.foldl_mute ((lexemes r.head).foldl Scan.pass {})
    fun x hx => .inl (r.isGap.noToken x hx)
  have hposition : ((lexemes r.head).foldl Scan.pass {}).position = r.head.length := by
    rw [foldl_pass_position, lexemes_flatten]
    exact Nat.zero_add _
  refine ⟨Nat.le_of_eq hposition.symm, ?_, hdepth, ?_, ?_⟩
  · rw [foldl_pass_position, lexemes_flatten]
  · rw [hend]
    exact (slide_of_lt r.codeEnd_lt).symm
  · rw [Scan.foldl_afterPoint (by simp [gap]), Scan.foldl_afterPoint (by simp [head]), head, gap,
      List.getLast?_concat, List.getLast?_concat]

/-- The positions behind the blank move on by the length of what is put behind it. -/
theorem outline_commented : Outline.of r.commented = (Outline.of r.bare).move r.slide := by
  have hlexemes (t : List UInt8) : lexemes (r.head ++ t) = lexemes r.head ++ lexemes t :=
    lexemes_append r.endsInCode_head (r.seam_head t).apart
  have hfront : (Outline.of r.head).words.map (Word.move r.slide) = (Outline.of r.head).words := by
    conv => rhs; rw [← List.map_id (Outline.of r.head).words]
    refine List.map_congr_left fun x hx => ?_
    obtain ⟨hbefore, hstop, hend⟩ := Outline.word_bounds hx
    have hlt := r.codeEnd_lt
    simp only [Word.move, slide]
    rw [slide_of_lt (by omega), slide_of_lt (by omega), slide_of_lt (by omega), id_eq]
  obtain ⟨hgap, -, -⟩ := Scan.foldl_mute ((lexemes r.head).foldl Scan.pass {})
    fun x hx => .inl (r.isGap.noToken x hx)
  have hwords : Scan.words {} (lexemes r.head) = (Outline.of r.head).words := rfl
  rw [commented, bare, Outline.of, Outline.of, hlexemes, hlexemes, r.isGap.append, Outline.move,
    Outline.mk.injEq]
  refine ⟨?_, ?_⟩
  · rw [Scan.words_append, Scan.words_append, Scan.words_append, hgap, List.nil_append,
      r.slid.words, List.map_append, hwords, hfront]
    rfl
  · rw [List.foldl_append, List.foldl_append, List.foldl_append, (r.slid.foldl _).codeEnd]
    rfl

/-! ## The start of a predicate -/

/-- Behind the comment the blanks are those of the base. -/
theorem slide_add_blankRun {position : Nat} (hle : r.head.length ≤ position) :
    r.slide position + blankRun (r.commented.drop (r.slide position)) =
      r.slide (position + blankRun (r.bare.drop position)) := by
  have hdrop : r.commented.drop (position + r.gap.length) = r.bare.drop position := by
    obtain ⟨m, hm⟩ := Nat.exists_eq_add_of_le hle
    rw [hm, bare, commented, List.drop_length_add_append, Nat.add_assoc,
      List.drop_length_add_append, Nat.add_comm, List.drop_length_add_append]
  rw [slide, slide, slide_of_le hle, slide_of_le (by omega), hdrop]
  omega

/-- In front of the comment the blanks are those of the base, unless they reach to the comment: it
ends them. -/
theorem blankRun_in_front {position : Nat} (hlt : position < r.head.length) :
    blankRun (r.bare.drop position) =
        (if blankRun (r.front.drop position) < r.front.length - position then
          blankRun (r.front.drop position)
        else r.front.length - position + (1 + blankRun r.back)) ∧
      blankRun (r.commented.drop position) =
        if blankRun (r.front.drop position) < r.front.length - position then
          blankRun (r.front.drop position)
        else r.front.length - position + 1 := by
  have hlength := r.length_head
  have hbeyond : Ascii.isBeyond r.blank = false := by
    rcases eq_of_isBlankByte r.isBlank with heq | heq | heq | heq | heq <;> rw [heq] <;> decide
  have hdrop (t : List UInt8) :
      (r.head ++ t).drop position = r.front.drop position ++ r.blank :: t := by
    rw [head, List.append_assoc, List.drop_append_of_le_length (by omega)]
    rfl
  have hrun (t : List UInt8) := blankRun_append (r.front.drop position) (t := r.blank :: t)
    (by simpa using hbeyond)
  have hcomment : blankRun (r.gap ++ r.back) = 0 := by
    rw [gap, List.append_assoc]
    exact r.isComment.blankRun_eq_zero _
  constructor
  · rw [bare, hdrop, hrun, blankRun_blank r.isBlank, List.length_drop]
  · rw [commented, hdrop, hrun, blankRun_blank r.isBlank, hcomment, List.length_drop]

/-- A predicate behind a word starts further on by what is put into the statement, or there is none
with and without the comment, or the comment follows the blanks behind the word: then the predicate
starts with the comment. -/
theorem start_cases (hplain : PlainBlanks r.bare) {x : Word}
    (hx : x ∈ (Outline.of r.bare).words) {start start' stop : Nat}
    (hstart : start = x.stop + blankRun (r.bare.drop x.stop))
    (hstart' : start' = r.slide x.stop + blankRun (r.commented.drop (r.slide x.stop)))
    (hstop : stop = Site.clauseEnd r.bare Keyword.afterWhere x.stop) :
    ((start < stop ∧ start' = r.slide start) ∨ (stop ≤ start ∧ r.slide stop ≤ start')) ∨
      (x.stop < r.head.length ∧ r.head.length ≤ start ∧ start < stop ∧
        start' = r.head.length) := by
  have hlength := r.length_head
  have hmoved (heq : start' = r.slide start) :
      (start < stop ∧ start' = r.slide start) ∨ (stop ≤ start ∧ r.slide stop ≤ start') := by
    rcases Nat.lt_or_ge start stop with hlt | hge
    · exact .inl ⟨hlt, heq⟩
    · exact .inr ⟨hge, heq ▸ r.strictMono_slide.monotone hge⟩
  by_cases hle : r.head.length ≤ x.stop
  · exact .inl (hmoved (by rw [hstart', hstart, r.slide_add_blankRun hle]))
  · have hlt : x.stop < r.head.length := Nat.lt_of_not_le hle
    obtain ⟨hbare, hcommented⟩ := r.blankRun_in_front hlt
    rw [slide, slide_of_lt hlt, hcommented] at hstart'
    by_cases hwithin : blankRun (r.front.drop x.stop) < r.front.length - x.stop
    · -- it starts in front of the comment
      rw [if_pos hwithin] at hbare hstart'
      refine .inl (hmoved ?_)
      rw [slide, slide_of_lt (by omega)]
      omega
    · rw [if_neg hwithin] at hbare hstart'
      rcases Nat.lt_or_ge stop r.head.length with hbefore | hbehind
      · refine .inl (.inr ⟨by omega, ?_⟩)
        rw [slide, slide_of_lt hbefore]
        omega
      · have hcode := Site.blankRun_lt_clauseEnd hplain hx Keyword.afterWhere (by omega)
        exact .inr ⟨hlt, by omega, by omega, by omega⟩

end Remark

end Listing
