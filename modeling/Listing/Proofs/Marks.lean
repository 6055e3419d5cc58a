import Listing.Proofs.Boundaries
import Listing.Proofs.Sites
import Listing.Proofs.Words

/-!
# Outlines and marks

An outline is found by jumping from one lexeme to the next; here it is told from the marks that
reading byte by byte gives. All bytes of a lexeme have one mark (`Lexeme.Begins.marks`), so that a
byte is code exactly if the scan takes its lexeme for code (`Scan.Reaches.codeAt`), and belongs to a
word at the top level exactly if its lexeme is one (`Scan.Reaches.topWordAt`).

`Outline.of_marks`: the words of an outline are the longest runs of such bytes, the ends of code in
it are where the last byte of code ends, and no lookup finds a keyword anywhere else.
-/

namespace Listing

open Text

/-! ## Code and words by their marks -/

/-- Whether a byte with a mark is code. What stands in quotes is, blanks are not, and neither is a
semicolon outside parentheses. -/
def Mark.isCode (m : Mark) (b : UInt8) : Bool :=
  match m.cls with
  | .quoted => true
  | .code => !Lexeme.isBlankByte b && !(b == Ascii.semicolon && m.depth == 0)
  | .lineComment | .blockComment => false

/-- Whether a byte with a mark belongs to a word at the top level. -/
def Mark.isTopWord (m : Mark) (b : UInt8) : Bool := m == ⟨.code, 0⟩ && Lexeme.isWordByte b

/-- The byte at a position of a text, with its mark. -/
def markedAt? (text : List UInt8) (i : Nat) : Option (Mark × UInt8) :=
  ((({} : Reader).marks text).zip text)[i]?

/-- Whether the byte at a position of a text is code. -/
def codeAt (text : List UInt8) (i : Nat) : Bool := (markedAt? text i).any fun (m, b) => m.isCode b

/-- Whether the byte at a position of a text belongs to a word at the top level. -/
def topWordAt (text : List UInt8) (i : Nat) : Bool :=
  (markedAt? text i).any fun (m, b) => m.isTopWord b

/-- A position is where the last code in front of another one ends, or 0 if there is none. -/
structure CodeEnds (text : List UInt8) (position codeEnd : Nat) : Prop where
  le : codeEnd ≤ position
  last : ∀ i, i + 1 = codeEnd → codeAt text i = true
  behind : ∀ i, codeEnd ≤ i → i < position → codeAt text i = false

/-- A word as long as it can be, at the top level of a text and not right behind a point. -/
structure TopWord (text : List UInt8) (w : Word) : Prop where
  lt : w.start < w.stop
  inside : ∀ i, w.start ≤ i → i < w.stop → topWordAt text i = true
  front : ∀ i, i + 1 = w.start → topWordAt text i = false ∧ text[i]? ≠ some Ascii.point
  back : topWordAt text w.stop = false
  before : CodeEnds text w.start w.before
  text_eq : w.text = (text.take w.stop).drop w.start

theorem markedAt?_eq_none {text : List UInt8} {i : Nat} (h : text.length ≤ i) :
    markedAt? text i = none := by
  rw [markedAt?, List.getElem?_eq_none]
  rwa [List.length_zip, Reader.length_marks, Nat.min_self]

theorem CodeEnds.unique {text : List UInt8} {position e e' : Nat} (h : CodeEnds text position e)
    (h' : CodeEnds text position e') : e = e' := by
  have hlt {a b : Nat} (ha : CodeEnds text position a) (hb : CodeEnds text position b) :
      ¬a < b := by
    intro hab
    have hcode := hb.last (b - 1) (by omega)
    rw [ha.behind (b - 1) (by omega) (by have := hb.le; omega)] at hcode
    cases hcode
  have := hlt h h'
  have := hlt h' h
  omega

/-- Two longest words that have a byte in common are one. -/
theorem TopWord.unique {text : List UInt8} {w v : Word} {i : Nat} (hw : TopWord text w)
    (hv : TopWord text v) (hiw : w.start ≤ i ∧ i < w.stop) (hiv : v.start ≤ i ∧ i < v.stop) :
    w = v := by
  have hstart {w v : Word} (hw : TopWord text w) (hv : TopWord text v)
      (hiw : w.start ≤ i ∧ i < w.stop) (hiv : v.start ≤ i ∧ i < v.stop) :
      ¬w.start < v.start := by
    intro hlt
    have hin := hw.inside (v.start - 1) (by omega) (by omega)
    rw [(hv.front (v.start - 1) (by omega)).1] at hin
    cases hin
  have hstop {w v : Word} (hw : TopWord text w) (hv : TopWord text v)
      (hiw : w.start ≤ i ∧ i < w.stop) (hiv : v.start ≤ i ∧ i < v.stop) : ¬w.stop < v.stop := by
    intro hlt
    have hin := hv.inside w.stop (by omega) hlt
    rw [hw.back] at hin
    cases hin
  have hstart' : w.start = v.start := Nat.le_antisymm
    (Nat.le_of_not_lt (hstart hv hw hiv hiw)) (Nat.le_of_not_lt (hstart hw hv hiw hiv))
  have hstop' : w.stop = v.stop := Nat.le_antisymm
    (Nat.le_of_not_lt (hstop hv hw hiv hiw)) (Nat.le_of_not_lt (hstop hw hv hiw hiv))
  have hbefore : w.before = v.before := hw.before.unique (hstart' ▸ hv.before)
  have htext : w.text = v.text := by rw [hw.text_eq, hv.text_eq, hstart', hstop']
  obtain ⟨start, stop, before, wtext⟩ := w
  obtain ⟨start', stop', before', vtext⟩ := v
  cases hstart'
  cases hstop'
  cases hbefore
  cases htext
  rfl

/-! ## The marks of a lexeme -/

/-- The mark of a byte of code that changes neither the mode nor the depth. -/
theorem Reader.mark_of_isPlain {b : UInt8} {d : Nat} {ahead : Option UInt8}
    (h : isPlain b = true) : (⟨.code, d⟩ : Reader).mark b ahead = ⟨.code, d⟩ := by
  simp only [isPlain, Bool.and_eq_true, Bool.not_eq_true', bne_iff_ne, ne_eq] at h
  obtain ⟨⟨⟨⟨hquote, hhyphen⟩, hslash⟩, -⟩, hclose⟩ := h
  simp [mark, opensLine, opensBlock, hquote, hhyphen, hslash, hclose]

namespace Lexeme

/-- The mark that the bytes of a lexeme have in a text, given the depth in front of it. -/
def mark (x : Lexeme) (depth : Nat) : Mark :=
  match x.kind with
  | .quoted => ⟨.quoted, depth⟩
  | .comment =>
    ⟨if x.text.head? = some Ascii.hyphen then .lineComment else .blockComment, depth⟩
  | .closing => ⟨.code, depth - 1⟩
  | _ => ⟨.code, depth⟩

theorem marks_splitQuoted {q : UInt8} {r : List UInt8} {d : Nat} (hq : isQuote q = true) :
    (⟨.quoted q, d⟩ : Reader).marks r =
      List.replicate (splitQuoted q r).1.length ⟨.quoted, d⟩ ++
        (⟨.code, d⟩ : Reader).marks (splitQuoted q r).2 := by
  fun_induction splitQuoted q r with
  | case1 => rfl
  | case2 b => rfl
  | case3 r inside rest hsplit ih =>
    -- the first quote closes the run and the second opens it again
    rw [hsplit] at ih
    simp only [Reader.marks_cons, Reader.step, Reader.mark, ↓reduceIte, hq, ih, List.length_cons,
      List.replicate_succ, List.cons_append]
  | case4 c r hne =>
    simp [Reader.marks_cons, Reader.step, Reader.mark]
  | case5 b c r hne inside rest hsplit ih =>
    rw [hsplit] at ih
    rw [Reader.marks_cons]
    simp only [Reader.step, Reader.mark, hne, ↓reduceIte, ih, List.length_cons,
      List.replicate_succ, List.cons_append]

theorem marks_splitBlock {r : List UInt8} {d : Nat} {star : Bool}
    (hstar : star = true → r.head? ≠ some Ascii.slash) :
    (⟨.block star, d⟩ : Reader).marks r =
      List.replicate (splitBlock r).1.length ⟨.blockComment, d⟩ ++
        (⟨.code, d⟩ : Reader).marks (splitBlock r).2 := by
  fun_induction splitBlock r generalizing star with
  | case1 => rfl
  | case2 b => rfl
  | case3 b c r hclose =>
    obtain ⟨rfl, rfl⟩ := hclose
    rw [Reader.marks_cons, step_block hstar]
    rfl
  | case4 b c r hopen inside rest hsplit ih =>
    rw [hsplit] at ih
    rw [Reader.marks_cons, step_block hstar, ih (head?_ne_of_not_close hopen r)]
    rfl

/-- Up to the line break, all is comment; the line break is code, whoever reads it. -/
theorem marks_line (r : List UInt8) (d : Nat) :
    (⟨.line, d⟩ : Reader).marks r =
      List.replicate (r.takeWhile (· != Ascii.newline)).length ⟨.lineComment, d⟩ ++
        (⟨.code, d⟩ : Reader).marks (r.dropWhile (· != Ascii.newline)) := by
  induction r with
  | nil => rfl
  | cons b r ih =>
    by_cases hb : b = Ascii.newline
    · subst hb
      have hplain : Reader.isPlain Ascii.newline = true := by decide
      have hstop : (Ascii.newline != Ascii.newline) = false := by decide
      simp only [List.takeWhile_cons, List.dropWhile_cons, hstop, Bool.false_eq_true, ↓reduceIte]
      rw [Reader.marks_cons, Reader.marks_cons, Reader.step_of_isPlain hplain,
        Reader.mark_of_isPlain hplain]
      simp [Reader.step, Reader.mark]
    · simp [Reader.marks_cons, Reader.step, Reader.mark, hb, ih, List.replicate_succ]

theorem marks_word (r : List UInt8) (d : Nat) :
    (⟨.code, d⟩ : Reader).marks r =
      List.replicate (r.takeWhile isWordByte).length ⟨.code, d⟩ ++
        (⟨.code, d⟩ : Reader).marks (r.dropWhile isWordByte) := by
  induction r with
  | nil => rfl
  | cons b r ih =>
    by_cases hb : isWordByte b = true
    · have hplain := isPlain_of_isWordByte hb
      simp only [List.takeWhile_cons, List.dropWhile_cons, hb, ↓reduceIte, List.length_cons,
        List.replicate_succ, List.cons_append]
      rw [Reader.marks_cons, Reader.step_of_isPlain hplain, Reader.mark_of_isPlain hplain, ih]
    · simp [hb]

/-- The two bytes that open a line comment belong to it. -/
theorem marks_opensLine (r : List UInt8) (d : Nat) :
    (⟨.code, d⟩ : Reader).marks (Ascii.hyphen :: Ascii.hyphen :: r) =
      List.replicate 2 ⟨.lineComment, d⟩ ++ (⟨.line, d⟩ : Reader).marks r := rfl

/-- The two bytes that open a block comment belong to it. -/
theorem marks_opensBlock (r : List UInt8) (d : Nat) :
    (⟨.code, d⟩ : Reader).marks (Ascii.slash :: Ascii.asterisk :: r) =
      List.replicate 2 ⟨.blockComment, d⟩ ++ (⟨.block false, d⟩ : Reader).marks r := rfl

/-- All bytes of a lexeme have the same mark, and reading goes on behind it in code. -/
theorem Begins.marks {b : UInt8} {r rest : List UInt8} {x : Lexeme} (h : Begins b r x rest)
    (d : Nat) :
    (⟨.code, d⟩ : Reader).marks (b :: r) =
      List.replicate x.text.length (x.mark d) ++
        (⟨.code, x.depthBehind d⟩ : Reader).marks rest := by
  cases h with
  | quoted hquote =>
    rw [Reader.marks_cons]
    simp only [Reader.step, Reader.mark, hquote, ↓reduceIte, marks_splitQuoted hquote]
    rfl
  | @line r =>
    rw [marks_opensLine, marks_line]
    rfl
  | @block r =>
    rw [marks_opensBlock, marks_splitBlock (by simp)]
    rfl
  | @word b r hword =>
    have hplain := isPlain_of_isWordByte hword
    rw [Reader.marks_cons, Reader.step_of_isPlain hplain, Reader.mark_of_isPlain hplain, marks_word]
    rfl
  | single hquote hline hblock hword =>
    rw [Reader.marks_cons, step_single hquote hline hblock]
    have hmark : (⟨.code, d⟩ : Reader).mark b r.head? =
        (⟨singleKind b, [b]⟩ : Lexeme).mark d := by
      simp only [Reader.mark, hquote, hline, hblock, Bool.false_eq_true, ↓reduceIte]
      grind [singleKind, mark]
    rw [hmark]
    rfl

/-- A byte is code by its mark if its lexeme is code for the scan. -/
theorem Begins.isCode_mark {b c : UInt8} {r rest : List UInt8} {x : Lexeme}
    (h : Begins b r x rest) (s : Scan) (hc : c ∈ x.text) :
    (x.mark s.depth).isCode c = s.isCode x := by
  cases h with
  | quoted => rfl
  | line => rfl
  | block => rfl
  | @word b r hword =>
    have hc' := ((Begins.word (r := r) hword).isWord rfl).all c hc
    have hblank : isBlankByte c = false := by
      have h₁ := ne_of_isWordByte hc' (a := Ascii.space) (by decide)
      have h₂ := ne_of_isWordByte hc' (a := Ascii.tab) (by decide)
      have h₃ := ne_of_isWordByte hc' (a := Ascii.newline) (by decide)
      have h₄ := ne_of_isWordByte hc' (a := Ascii.formFeed) (by decide)
      have h₅ := ne_of_isWordByte hc' (a := Ascii.carriageReturn) (by decide)
      simp [isBlankByte, h₁, h₂, h₃, h₄, h₅]
    have hsemicolon := ne_of_isWordByte hc' (a := Ascii.semicolon) (by decide)
    simp [mark, Mark.isCode, Scan.isCode, hblank, hsemicolon]
  | single =>
    obtain rfl : c = b := List.mem_singleton.1 hc
    unfold singleKind
    by_cases hopen : c = Ascii.openParen
    · subst hopen
      rfl
    by_cases hclose : c = Ascii.closeParen
    · subst hclose
      rfl
    by_cases hsemicolon : c = Ascii.semicolon
    · subst hsemicolon
      change (!(s.depth == 0)) = decide (0 < s.depth)
      cases s.depth <;> rfl
    by_cases hblank : isBlankByte c = true
    · simp [mark, Mark.isCode, Scan.isCode, hopen, hclose, hsemicolon, hblank]
    · simp [mark, Mark.isCode, Scan.isCode, hopen, hclose, hsemicolon, hblank]

/-- A byte belongs to a word at the top level by its mark if its lexeme is one for the scan. -/
theorem Begins.isTopWord_mark {b c : UInt8} {r rest : List UInt8} {x : Lexeme}
    (h : Begins b r x rest) (d : Nat) (hc : c ∈ x.text) :
    (x.mark d).isTopWord c = decide (x.kind = .word ∧ d = 0) := by
  cases h with
  | quoted => rfl
  | line => rfl
  | block => rfl
  | @word b r hword =>
    have hc' := ((Begins.word (r := r) hword).isWord rfl).all c hc
    simp [mark, Mark.isTopWord, hc', Bool.beq_eq_decide_eq]
  | single _ _ _ hword =>
    obtain rfl : c = b := List.mem_singleton.1 hc
    have hkind : singleKind c ≠ .word := by
      unfold singleKind
      grind
    simp [Mark.isTopWord, hword, hkind]

/-- Of two lexemes in a row, one is no word. -/
theorem Begins.not_both_words {b c : UInt8} {r r' rest : List UInt8} {x y : Lexeme}
    (hx : Begins b r x (c :: r')) (hy : Begins c r' y rest) (hkind : x.kind = .word) :
    y.kind ≠ .word := by
  intro hkind'
  obtain ⟨a, ha⟩ : ∃ a, x.text.getLast? = some a := ⟨_, List.getLast?_eq_some_getLast hx.ne_nil⟩
  have hword := (hx.isWord hkind).all a (List.mem_of_getLast? ha)
  exact (hx.apart (by simp [hkind]) a ha c rfl).1 ⟨hword, hy.starts_word hkind'⟩

end Lexeme

/-! ## The marks of what a scan comes to -/

namespace Scan

variable {passed r rest : List UInt8} {b : UInt8} {x : Lexeme} {s : Scan} {w : Word} {i : Nat}

/-- Where a scan has got to, reading goes on in code at the depth that the scan has. -/
theorem Reaches.marks (h : Reaches passed rest s) :
    (({} : Reader).marks (passed ++ rest)).drop passed.length =
      (⟨.code, s.depth⟩ : Reader).marks rest := by
  induction h with
  | start => rfl
  | @pass passed r rest b x s h hx ih =>
    rw [List.append_assoc, hx.append, List.length_append, ← List.drop_drop, ih, hx.marks,
      List.drop_left' List.length_replicate]
    rfl

theorem Reaches.exists_markedAt? (h : Reaches passed (b :: r) s) (hx : Lexeme.Begins b r x rest)
    (hi : passed.length ≤ i) (hlt : i < passed.length + x.text.length) :
    ∃ c ∈ x.text, markedAt? (passed ++ b :: r) i = some (x.mark s.depth, c) := by
  obtain ⟨k, rfl⟩ := Nat.exists_eq_add_of_le hi
  have hk : k < x.text.length := by omega
  refine ⟨x.text[k], List.getElem_mem hk, ?_⟩
  rw [markedAt?, List.getElem?_zip_eq_some]
  constructor
  · rw [← List.getElem?_drop, h.marks, hx.marks, List.getElem?_append_left (by simpa using hk),
      List.getElem?_replicate_of_lt hk]
  · rw [List.getElem?_append_right (Nat.le_add_right _ _), Nat.add_sub_cancel_left, ← hx.append,
      List.getElem?_append_left hk, List.getElem?_eq_getElem hk]

/-- The bytes of a lexeme are code if the scan says so of the lexeme. -/
theorem Reaches.codeAt (h : Reaches passed (b :: r) s) (hx : Lexeme.Begins b r x rest)
    (hi : passed.length ≤ i) (hlt : i < passed.length + x.text.length) :
    codeAt (passed ++ b :: r) i = s.isCode x := by
  obtain ⟨c, hc, hmarked⟩ := h.exists_markedAt? hx hi hlt
  rw [Listing.codeAt, hmarked]
  exact hx.isCode_mark s hc

theorem Reaches.topWordAt (h : Reaches passed (b :: r) s) (hx : Lexeme.Begins b r x rest)
    (hi : passed.length ≤ i) (hlt : i < passed.length + x.text.length) :
    topWordAt (passed ++ b :: r) i = decide (x.kind = .word ∧ s.depth = 0) := by
  obtain ⟨c, hc, hmarked⟩ := h.exists_markedAt? hx hi hlt
  rw [Listing.topWordAt, hmarked]
  exact hx.isTopWord_mark s.depth hc

/-- The scan remembers where the last code ends that it has passed. -/
theorem Reaches.codeEnds (h : Reaches passed rest s) :
    CodeEnds (passed ++ rest) s.position s.codeEnd := by
  induction h with
  | start =>
    exact ⟨Nat.le_refl 0, fun i hi => absurd hi (Nat.succ_ne_zero i),
      fun i _ hi => absurd hi (Nat.not_lt_zero i)⟩
  | @pass passed r rest b x s h hx ih =>
    have hpos := List.length_pos_iff.2 hx.ne_nil
    rw [hx.append_append, pass_position]
    by_cases hcode : s.isCode x = true
    · rw [codeEnd_pass_of_isCode hcode, h.position_eq]
      refine ⟨Nat.le_refl _, fun i hi => ?_, fun i hle hlt => by omega⟩
      rw [h.codeAt hx (by omega) (by omega), hcode]
    · rw [codeEnd_pass_of_not_isCode hcode]
      refine ⟨by have := ih.le; omega, ih.last, fun i hle hlt => ?_⟩
      by_cases hi : i < s.position
      · exact ih.behind i hle hi
      · rw [h.position_eq] at hi hlt
        rw [h.codeAt hx (by omega) hlt]
        simpa using hcode

/-- Each byte of what a scan has ahead of it belongs to a lexeme that it comes to. -/
theorem Reaches.exists_lexeme_at (h : Reaches passed rest s) (hi : passed.length ≤ i)
    (hlt : i < (passed ++ rest).length) :
    ∃ (passed' r rest' : List UInt8) (b : UInt8) (x : Lexeme) (s' : Scan),
      passed' ++ b :: r = passed ++ rest ∧ Reaches passed' (b :: r) s' ∧
        Lexeme.Begins b r x rest' ∧ passed'.length ≤ i ∧ i < passed'.length + x.text.length := by
  fun_induction lexemes rest generalizing passed s with
  | case1 =>
    rw [List.append_nil] at hlt
    omega
  | case2 b r ih =>
    have hx := Lexeme.begins_first b r
    by_cases hin : i < passed.length + (Lexeme.first b r).1.text.length
    · exact ⟨passed, r, _, b, _, s, rfl, h, hx, hi, hin⟩
    · have htext := hx.append_append passed
      obtain ⟨passed', r', rest', b', x', s', htext', hrest⟩ :=
        ih (h.pass hx) (by rw [List.length_append]; omega) (htext ▸ hlt)
      exact ⟨passed', r', rest', b', x', s', htext'.trans htext, hrest⟩

/-- The words that a scan finds further on are words of the whole text. -/
theorem Reaches.mem_words (h : Reaches passed rest s) (hw : w ∈ s.words (lexemes rest)) :
    w ∈ (Outline.of (passed ++ rest)).words := by
  induction h with
  | start => exact hw
  | @pass passed r rest b x s h hx ih =>
    rw [hx.append_append]
    refine ih ?_
    rw [lexemes_cons, hx.first_eq]
    exact List.mem_append_right _ hw

/-- A lexeme that is a word to the scan is one by the marks. -/
theorem Reaches.topWord (h : Reaches passed (b :: r) s) (hx : Lexeme.Begins b r x rest)
    (hword : s.word? x = some w) : TopWord (passed ++ b :: r) w := by
  obtain ⟨hkind, hdepth, hpoint, rfl⟩ := word?_eq_some hword
  have hpos := List.length_pos_iff.2 hx.ne_nil
  have hposition := h.position_eq
  have htext := (hx.append_append passed).symm
  refine ⟨by dsimp only; omega, fun i hle hlt => ?_, fun i hi => ⟨?_, ?_⟩, ?_, h.codeEnds, ?_⟩
  · dsimp only at hle hlt
    rw [h.topWordAt hx (by omega) (by omega)]
    simp [hkind, hdepth]
  · dsimp only at hi
    cases h with
    | start => cases hi
    | @pass passed' r' rest' b' y s' h' hy =>
      have hlast := List.length_pos_iff.2 hy.ne_nil
      rw [hposition, List.length_append] at hi
      have hnot : y.kind ≠ .word := fun hkind' => hy.not_both_words hx hkind' hkind
      rw [List.append_assoc, hy.append, h'.topWordAt hy (by omega) (by omega)]
      simp [hnot]
  · dsimp only at hi
    have hlt : i < passed.length := by omega
    have hget : (passed ++ b :: r)[i]? = passed.getLast? := by
      rw [List.getElem?_append_left hlt, List.getLast?_eq_getElem?]
      congr 1
      omega
    rw [h.afterPoint_eq] at hpoint
    rw [hget]
    simpa using hpoint
  · cases rest with
    | nil =>
      rw [Listing.topWordAt, markedAt?_eq_none]
      · rfl
      · refine Nat.le_of_eq ?_
        dsimp only
        rw [htext, List.append_nil, List.length_append, hposition]
    | cons c r' =>
      have hy := Lexeme.begins_first c r'
      have hlast := List.length_pos_iff.2 hy.ne_nil
      have hlength : (passed ++ x.text).length = s.position + x.text.length := by
        rw [List.length_append, hposition]
      rw [htext, (h.pass hx).topWordAt hy (by dsimp only; omega) (by dsimp only; omega)]
      simp [hx.not_both_words hy hkind]
  · dsimp only
    rw [htext, hposition, ← List.length_append, List.take_left' rfl, List.drop_left' rfl]

end Scan

/-! ## The outline of a text -/

namespace Outline

variable {text : List UInt8} {w : Word}

/-- The words of an outline are those that the marks show. -/
theorem mem_words_iff : w ∈ (Outline.of text).words ↔ TopWord text w := by
  constructor
  · intro hw
    obtain ⟨passed, r, rest, b, x, s, rfl, hreaches, hx, hword⟩ := reaches_word hw
    exact hreaches.topWord hx hword
  · intro h
    have hstart := h.inside w.start (Nat.le_refl _) h.lt
    have hlt : w.start < text.length := by
      refine Nat.lt_of_not_le fun hle => ?_
      rw [topWordAt, markedAt?_eq_none hle] at hstart
      cases hstart
    obtain ⟨passed, r, rest, b, x, s, rfl, hreaches, hx, hfront, hback⟩ :=
      Scan.Reaches.start.exists_lexeme_at (Nat.zero_le _) hlt
    have htop (i : Nat) := hreaches.topWordAt hx (i := i)
    rw [htop _ hfront hback, decide_eq_true_eq] at hstart
    obtain ⟨hkind, hdepth⟩ := hstart
    -- the run starts with the lexeme, since nothing in front of the run belongs to it
    have hbegin : w.start = passed.length := by
      refine Nat.le_antisymm (Nat.le_of_not_lt fun hgt => ?_) hfront
      have hin := htop (w.start - 1) (by omega) (by omega)
      rw [(h.front (w.start - 1) (by omega)).1] at hin
      simp [hkind, hdepth] at hin
    have hpoint : s.afterPoint = false := by
      rw [hreaches.afterPoint_eq, List.getLast?_eq_getElem?]
      cases hlength : passed.length with
      | zero => rw [List.length_eq_zero_iff.1 hlength]; rfl
      | succ n =>
        have hnot := (h.front n (by omega)).2
        rw [List.getElem?_append_left (by omega)] at hnot
        simpa using hnot
    have hword : s.word? x =
        some ⟨s.position, s.position + x.text.length, s.codeEnd, x.text⟩ :=
      if_pos ⟨hkind, hdepth, hpoint⟩
    have hfound := hreaches.topWord hx hword
    have hposition := hreaches.position_eq
    have hin : s.position ≤ w.start ∧ w.start < s.position + x.text.length := by omega
    rw [h.unique hfound ⟨Nat.le_refl _, h.lt⟩ hin]
    refine hreaches.mem_words ?_
    rw [lexemes_cons, hx.first_eq, Scan.words, hword]
    exact List.mem_append_left _ List.mem_cons_self

theorem words_increasing (text : List UInt8) :
    (Outline.of text).words.Pairwise fun w v => w.stop ≤ v.start := by
  refine (words_ordered text).imp_of_mem fun hw hv hle => ?_
  exact Nat.le_trans hle (word_bounds hv).1

theorem codeEnds_codeEnd (text : List UInt8) :
    CodeEnds text text.length (Outline.of text).codeEnd := by
  have h := (reaches_end text).codeEnds
  rwa [(reaches_end text).position_eq, List.append_nil] at h

end Outline

/-- A keyword stands at a place by the marks: its words are longest words at the top level, and no
other word stands between the two of a pair. -/
inductive Keyword.Stands (k : Keyword) (text : List UInt8) : Place → Prop
  | single {w : Word} {a : String} (hparts : k.parts = [a]) (hw : TopWord text w)
      (hspells : w.spells a = true) : Stands k text ⟨w.start, w.stop, w.before⟩
  | pair {w v : Word} {a b : String} (hparts : k.parts = [a, b]) (hw : TopWord text w)
      (hv : TopWord text v) (hle : w.stop ≤ v.start)
      (hnext : ∀ u, TopWord text u → w.stop ≤ u.start → v.start < u.stop)
      (hformer : w.spells a = true) (hlatter : v.spells b = true) :
      Stands k text ⟨w.start, v.stop, w.before⟩

theorem Outline.Occurs.stands {k : Keyword} {text : List UInt8} {p : Place}
    (h : Occurs k (Outline.of text).words p) : k.Stands text p := by
  cases h with
  | @single A B w a hparts hws hw =>
    exact .single hparts (mem_words_iff.1 (by simp [hws])) hw
  | @pair A B w v a b hparts hws hw hv =>
    have hwmem : w ∈ (Outline.of text).words := by simp [hws]
    have hvmem : v ∈ (Outline.of text).words := by simp [hws]
    have hle : w.stop ≤ v.start := by
      have hordered := words_increasing text
      rw [hws, List.pairwise_append] at hordered
      exact (List.pairwise_cons.1 hordered.2.1).1 v List.mem_cons_self
    refine .pair hparts (mem_words_iff.1 hwmem) (mem_words_iff.1 hvmem) hle ?_ hw hv
    intro u hu hwu
    have humem := mem_words_iff.2 hu
    refine Nat.lt_of_not_le fun huv => ?_
    exact Site.not_between hws humem (stop_le_before hwmem humem hwu)
      (stop_le_before humem hvmem huv)

/-- What an outline says of a text, by the marks of the text. -/
structure Outline.Reads (o : Outline) (s : String) : Prop where
  mem_words : ∀ w, w ∈ o.words ↔ TopWord (bytes s) w
  increasing : o.words.Pairwise fun w v => w.stop ≤ v.start
  codeEnd : CodeEnds (bytes s) (bytes s).length o.codeEnd
  boundary_codeEnd : Boundary s o.codeEnd
  boundary_words : ∀ w ∈ o.words, Boundary s w.before ∧ Boundary s w.start ∧ Boundary s w.stop
  /-- A keyword that is found stands at the top level, outside quotes and comments. -/
  found : ∀ k position p, o.first? k position = some p ∨ o.last? k position = some p →
    position ≤ p.start ∧ k.Stands (bytes s) p
  earliest : ∀ ks position p, o.earliest? ks position = some p →
    position ≤ p.start ∧ ∃ k ∈ ks, k.Stands (bytes s) p

/-- **Jumping over lexemes finds what reading byte by byte does**, in every text: also where a quote
or a comment is not closed, or a parenthesis too many is. -/
theorem Outline.of_marks (s : String) : (Outline.of (bytes s)).Reads s where
  mem_words _ := mem_words_iff
  increasing := words_increasing (bytes s)
  codeEnd := codeEnds_codeEnd (bytes s)
  boundary_codeEnd := Outline.boundary_codeEnd s
  boundary_words _ hw := ⟨boundary_before hw, boundary_start hw, boundary_stop hw⟩
  found k position p hp := by
    have hmem : p ∈ places [k] position (Outline.of (bytes s)).words := by
      rcases hp with hp | hp
      · exact List.mem_of_head? hp
      · exact List.mem_of_getLast? hp
    obtain ⟨hle, k', hk', hoccurs⟩ := mem_places.1 hmem
    obtain rfl : k' = k := List.mem_singleton.1 hk'
    exact ⟨hle, hoccurs.stands⟩
  earliest ks position p hp := by
    obtain ⟨hle, k, hk, hoccurs⟩ := mem_places.1 (List.mem_of_head? hp)
    exact ⟨hle, k, hk, hoccurs.stands⟩

/-- An opening that does not close, a doubled quote, a parenthesis too many and semicolons. -/
example : Outline.of (bytes "a) /*/ b */ 'c''--' d.e;f (;g); --h") =
    ⟨[⟨0, 1, 0, bytes "a"⟩, ⟨20, 21, 19, bytes "d"⟩, ⟨24, 25, 23, bytes "f"⟩], 30⟩ := by
  decide +kernel

end Listing
