import Listing.Proofs.Insertions
import Listing.Proofs.Rendering

/-!
# Two texts in a row

At a `Seam` two texts may be put together without a word, a quoted run or a comment reaching across,
and without a point in front of a word. If the first of them is closed, the words of the whole are
its words and those of the second, which stand further back (`Outline.of_append`). How far back the
code in front of them ends is told best where the first text ends with code (`Finished`).
-/

namespace Listing

open Text

/-- A cut between two texts that keeps their words apart. -/
structure Seam (u v : List UInt8) : Prop where
  apart : Lexeme.Apart u v
  point : ∀ a ∈ u.getLast?, a = Ascii.point → ∀ b ∈ v.head?, Lexeme.isWordByte b = false

/-! ## Separators -/

/-- Whether a byte always stands between two words, quoted runs or comments. -/
def isSeparator (b : UInt8) : Bool :=
  b == Ascii.space || b == Ascii.openParen || b == Ascii.closeParen || b == 44

theorem eq_of_isSeparator {b : UInt8} (h : isSeparator b = true) :
    b = Ascii.space ∨ b = Ascii.openParen ∨ b = Ascii.closeParen ∨ b = 44 := by
  simpa [isSeparator, or_assoc] using h

theorem Seam.of_last {u v : List UInt8} (h : ∀ a ∈ u.getLast?, isSeparator a = true) :
    Seam u v := by
  constructor
  · intro a ha b _
    have hlast := h a ha
    refine ⟨?_, ?_, ?_, ?_⟩
    · rintro ⟨hword, -⟩
      rcases eq_of_isSeparator hlast with rfl | rfl | rfl | rfl <;> exact absurd hword (by decide)
    · rintro ⟨hquote, -⟩
      rcases eq_of_isSeparator hlast with rfl | rfl | rfl | rfl <;> exact absurd hquote (by decide)
    · rcases eq_of_isSeparator hlast with rfl | rfl | rfl | rfl <;> rfl
    · rcases eq_of_isSeparator hlast with rfl | rfl | rfl | rfl <;> rfl
  · rintro a ha rfl
    exact absurd (h _ ha) (by decide)

theorem Seam.of_head {u v : List UInt8} (h : ∀ b ∈ v.head?, isSeparator b = true) :
    Seam u v := by
  have hb : ∀ b ∈ v.head?, Lexeme.isWordByte b = false ∧ Lexeme.isQuote b = false ∧
      b ≠ Ascii.hyphen ∧ b ≠ Ascii.asterisk := by
    intro b hb
    rcases eq_of_isSeparator (h b hb) with rfl | rfl | rfl | rfl <;> decide
  constructor
  · intro a _ b hmem
    obtain ⟨hword, hquote, hhyphen, hasterisk⟩ := hb b hmem
    refine ⟨?_, ?_, ?_, ?_⟩
    · rintro ⟨-, hword'⟩
      rw [hword] at hword'
      cases hword'
    · rintro ⟨hquote', rfl⟩
      rw [hquote] at hquote'
      cases hquote'
    · simp [Reader.opensLine, hhyphen]
    · simp [Reader.opensBlock, hasterisk]
  · intro _ _ _ b hmem
    exact (hb b hmem).1

theorem Seam.append_right {u v w : List UInt8} (h : Seam u v) (hne : v ≠ []) : Seam u (v ++ w) := by
  obtain ⟨b, v, rfl⟩ := List.exists_cons_of_ne_nil hne
  exact ⟨h.apart, h.point⟩

/-- A seam depends on the last byte in front of it. -/
theorem Seam.congr_last {u u' v : List UInt8} (h : Seam u v) (heq : u'.getLast? = u.getLast?) :
    Seam u' v :=
  ⟨fun a ha => h.apart a (heq ▸ ha), fun a ha => h.point a (heq ▸ ha)⟩

/-- A word ends where no byte of a word follows. -/
theorem Seam.of_isWord {u v : List UInt8} (hu : IsWord u)
    (hv : ∀ b ∈ v.head?, Lexeme.isWordByte b = false) : Seam u v := by
  constructor
  · intro a ha b hb
    have hword := hu.all a (List.mem_of_getLast? ha)
    refine ⟨fun hboth => ?_, fun hquote => ?_, ?_, ?_⟩
    · rw [hv b hb] at hboth
      cases hboth.2
    · rw [Lexeme.isQuote_of_isWordByte hword] at hquote
      cases hquote.1
    · cases hopens : Reader.opensLine a b with
      | false => rfl
      | true =>
        simp only [Reader.opensLine, Bool.and_eq_true, beq_iff_eq] at hopens
        rw [hopens.1] at hword
        cases hword
    · cases hopens : Reader.opensBlock a b with
      | false => rfl
      | true =>
        simp only [Reader.opensBlock, Bool.and_eq_true, beq_iff_eq] at hopens
        rw [hopens.1] at hword
        cases hword
  · intro _ _ _ b hb
    exact hv b hb

theorem Seam.splits {u v : List UInt8} (h : Seam u v) : Reader.Splits u v :=
  fun a ha b hb => ⟨(h.apart a ha b hb).2.2.1, (h.apart a ha b hb).2.2.2⟩

/-! ## Words further back -/

/-- A position behind which the code ends, if it ends at all, as seen from further back. -/
def codeBehind (length codeEnd position : Nat) : Nat :=
  if position = 0 then codeEnd else length + position

theorem codeBehind_self (length position : Nat) :
    codeBehind length length position = length + position := by
  unfold codeBehind
  split
  · omega
  · rfl

/-- A word of a text as it stands behind another text of a given length, whose code ends at a given
position. -/
def Word.behind (length codeEnd : Nat) (w : Word) : Word where
  start := length + w.start
  stop := length + w.stop
  before := codeBehind length codeEnd w.before
  text := w.text

/-- A place of a keyword behind another text. -/
def Place.behind (length codeEnd : Nat) (p : Place) : Place where
  start := length + p.start
  stop := length + p.stop
  before := codeBehind length codeEnd p.before

/-- A scan that goes on behind another text. -/
def Scan.behind (length codeEnd : Nat) (s : Scan) : Scan where
  position := length + s.position
  depth := s.depth
  codeEnd := codeBehind length codeEnd s.codeEnd
  afterPoint := s.afterPoint

namespace Scan

variable {n c : Nat} {s s' : Scan} {x : Lexeme} {xs ys : List Lexeme}

theorem words_append (s : Scan) (xs ys : List Lexeme) :
    s.words (xs ++ ys) = s.words xs ++ (xs.foldl pass s).words ys := by
  induction xs generalizing s with
  | nil => rfl
  | cons x xs ih => rw [List.cons_append, words, words, ih, List.append_assoc, List.foldl_cons]

theorem pass_behind (hx : x.text ≠ []) : (s.behind n c).pass x = (s.pass x).behind n c := by
  have hpos := List.length_pos_iff.2 hx
  have hend : (if s.isCode x then n + (s.position + x.text.length)
      else codeBehind n c s.codeEnd) =
        codeBehind n c (if s.isCode x then s.position + x.text.length else s.codeEnd) := by
    split
    · rw [codeBehind, if_neg (by omega)]
    · rfl
  have hcode : (s.behind n c).isCode x = s.isCode x := rfl
  simp only [pass, hcode]
  simp only [behind, Nat.add_assoc, hend]

theorem word?_behind : (s.behind n c).word? x = (s.word? x).map (Word.behind n c) := by
  unfold word?
  simp only [behind, Nat.add_assoc]
  split <;> rfl

theorem words_behind (hxs : ∀ x ∈ xs, x.text ≠ []) :
    (s.behind n c).words xs = (s.words xs).map (Word.behind n c) := by
  induction xs generalizing s with
  | nil => rfl
  | cons x xs ih =>
    have hhere : ((s.behind n c).word? x).toList = (s.word? x).toList.map (Word.behind n c) := by
      rw [word?_behind]
      cases s.word? x <;> rfl
    rw [words, words, hhere, pass_behind (hxs x List.mem_cons_self),
      ih fun y hy => hxs y (List.mem_cons_of_mem x hy), List.map_append]

theorem foldl_pass_behind (hxs : ∀ x ∈ xs, x.text ≠ []) :
    xs.foldl pass (s.behind n c) = (xs.foldl pass s).behind n c := by
  induction xs generalizing s with
  | nil => rfl
  | cons x xs ih =>
    rw [List.foldl_cons, List.foldl_cons, pass_behind (hxs x List.mem_cons_self),
      ih fun y hy => hxs y (List.mem_cons_of_mem x hy)]

/-- A point in front of the first lexeme matters to a word only. -/
theorem words_afterPoint (h : ∀ x ∈ xs.head?, x.kind ≠ .word) (point : Bool) :
    { s with afterPoint := point }.words xs = s.words xs ∧
      (xs.foldl pass { s with afterPoint := point }).codeEnd = (xs.foldl pass s).codeEnd := by
  cases xs with
  | nil => exact ⟨rfl, rfl⟩
  | cons x xs =>
    have hkind : x.kind ≠ .word := h x rfl
    have hpass : { s with afterPoint := point }.pass x = s.pass x := rfl
    refine ⟨?_, rfl⟩
    rw [words, words, hpass]
    simp [word?, hkind]

end Scan

/-- The outline of two texts in a row, the first of them closed. -/
theorem Outline.of_append {u v : List UInt8} (hu : ({} : Reader).after u = {}) (h : Seam u v) :
    Outline.of (u ++ v) =
      ⟨(Outline.of u).words ++
          (Outline.of v).words.map (Word.behind u.length (Outline.of u).codeEnd),
        codeBehind u.length (Outline.of u).codeEnd (Outline.of v).codeEnd⟩ := by
  have hmode : (({} : Reader).after u).mode = .code := by rw [hu]
  have hend := Outline.reaches_end u
  have hdepth := hend.depth_eq
  rw [hu] at hdepth
  have htexts : ∀ x ∈ lexemes v, x.text ≠ [] := fun _ => text_ne_nil_of_mem_lexemes
  -- the scan of the second text starts as by itself, but for a point
  have hscan : (lexemes u).foldl Scan.pass {} =
      { ({} : Scan).behind u.length (Outline.of u).codeEnd with
          afterPoint := u.getLast? == some Ascii.point } := by
    have heta : (lexemes u).foldl Scan.pass {} = ⟨((lexemes u).foldl Scan.pass {}).position,
      ((lexemes u).foldl Scan.pass {}).depth, ((lexemes u).foldl Scan.pass {}).codeEnd,
        ((lexemes u).foldl Scan.pass {}).afterPoint⟩ := rfl
    rw [heta, hend.position_eq, ← hdepth, hend.afterPoint_eq]
    rfl
  have hpoint : (({ ({} : Scan).behind u.length (Outline.of u).codeEnd with
        afterPoint := u.getLast? == some Ascii.point } : Scan).words (lexemes v) =
          (({} : Scan).behind u.length (Outline.of u).codeEnd).words (lexemes v)) ∧
      ((lexemes v).foldl Scan.pass { ({} : Scan).behind u.length (Outline.of u).codeEnd with
        afterPoint := u.getLast? == some Ascii.point }).codeEnd =
          ((lexemes v).foldl Scan.pass
            (({} : Scan).behind u.length (Outline.of u).codeEnd)).codeEnd := by
    by_cases hlast : u.getLast? = some Ascii.point
    · refine Scan.words_afterPoint (fun x hx hkind => ?_) _
      cases v with
      | nil =>
        rw [lexemes_nil] at hx
        cases hx
      | cons b r =>
        rw [lexemes_cons] at hx
        obtain rfl := Option.some.inj hx
        have hword := (Lexeme.begins_first b r).starts_word hkind
        rw [h.point Ascii.point hlast rfl b rfl] at hword
        cases hword
    · have hfalse : (u.getLast? == some Ascii.point) = false := by simpa using hlast
      rw [hfalse]
      exact ⟨rfl, rfl⟩
  rw [Outline.of, lexemes_append hmode h.apart, Scan.words_append, List.foldl_append, hscan,
    hpoint.1, hpoint.2, Scan.words_behind htexts, Scan.foldl_pass_behind htexts]
  rfl

/-- A text that is closed and ends with code. -/
structure Finished (u : List UInt8) : Prop where
  closed : ({} : Reader).after u = {}
  codeEnd : (Outline.of u).codeEnd = u.length

instance (u : List UInt8) : Decidable (Finished u) :=
  decidable_of_iff (({} : Reader).after u = {} ∧ (Outline.of u).codeEnd = u.length)
    ⟨fun h => ⟨h.1, h.2⟩, fun h => ⟨h.closed, h.codeEnd⟩⟩

/-- A text ends with code if the end of it does. -/
theorem Finished.append {u v : List UInt8} (hu : ({} : Reader).after u = {}) (h : Seam u v)
    (hne : v ≠ []) (hv : Finished v) : Finished (u ++ v) := by
  have hlength : v.length ≠ 0 := fun hzero => hne (List.length_eq_zero_iff.1 hzero)
  refine ⟨?_, ?_⟩
  · rw [Reader.after_append h.splits, hu, hv.closed]
  · rw [Outline.of_append hu h]
    dsimp only
    rw [hv.codeEnd, codeBehind, if_neg hlength, List.length_append]

theorem Outline.words_append {u v : List UInt8} (hu : ({} : Reader).after u = {}) (h : Seam u v) :
    (Outline.of (u ++ v)).words = (Outline.of u).words ++
      (Outline.of v).words.map (Word.behind u.length (Outline.of u).codeEnd) := by
  rw [of_append hu h]

/-! ## Texts of words -/

/-- The words at the top level of a text. -/
def topWords (text : List UInt8) : List (List UInt8) := (Outline.of text).words.map (·.text)

theorem texts_behind (n c : Nat) (ws : List Word) :
    (ws.map (Word.behind n c)).map (·.text) = ws.map (·.text) := by
  rw [List.map_map]
  rfl

theorem topWords_append {u v : List UInt8} (hu : ({} : Reader).after u = {}) (h : Seam u v) :
    topWords (u ++ v) = topWords u ++ topWords v := by
  rw [topWords, Outline.words_append hu h, List.map_append, texts_behind]
  rfl

@[simp] theorem topWords_nil : topWords [] = [] := by
  rw [topWords, Outline.of, lexemes_nil]
  rfl

end Listing
