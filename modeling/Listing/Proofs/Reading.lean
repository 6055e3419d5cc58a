import Listing.Statement.Lexeme
import Mathlib.Data.List.Basic

/-!
# Reading a text byte by byte

The reference for what is said here of the lexical structure of a statement, apart from the lexemes
that the composer works with. A `Reader` takes one byte after the other, looks one byte ahead, and
knows whether it stands in code, in a quoted run or in a comment, and how many parentheses are open.
It gives every byte a `Mark`: what the byte belongs to, and its depth.

A text may be read in two parts unless a comment opens across the cut (`Reader.marks_append`,
`Reader.after_append`), and a text that closes no parenthesis it has not opened reads the same at
any depth (`Reader.marks_deepen`).
-/

namespace Listing

open Text

-- Bytes are finitely many: without these two, `decide` may go through all of them and not the list.
instance (priority := high) decidableForallMem {p : UInt8 → Prop} [DecidablePred p]
    (u : List UInt8) :
    Decidable (∀ b ∈ u, p b) :=
  List.decidableBAll p u

instance (priority := high) decidableForallMem? {p : UInt8 → Prop} [DecidablePred p]
    (b? : Option UInt8) :
    Decidable (∀ b ∈ b?, p b) :=
  Option.decidableForallMem b?

/-- What a byte of a text belongs to. -/
inductive ByteClass where
  | code
  | quoted
  | lineComment
  | blockComment
deriving DecidableEq, Repr

/-- What reading says of a byte. -/
structure Mark where
  cls : ByteClass
  /-- How many parentheses are open; the two of a pair have the depth around the pair. -/
  depth : Nat
deriving DecidableEq, Repr

/-- The mark further down by some parentheses. -/
def Mark.deepen (n : Nat) (m : Mark) : Mark := { m with depth := m.depth + n }

/-- Where a reader stands. -/
inductive Reader.Mode where
  | code
  /-- In a quoted run. A doubled quote closes the run and opens it again at once. -/
  | quoted (quote : UInt8)
  /-- In a comment that ends with the line; the line break is code again. -/
  | line
  /-- Between the two bytes that open a block comment. -/
  | opening
  /-- In a block comment; whether the last byte is an asterisk that a slash would close it with. -/
  | block (star : Bool)
deriving DecidableEq, Repr

structure Reader where
  mode : Reader.Mode := .code
  /-- How many parentheses are open. One that closes without an opening one changes nothing. -/
  depth : Nat := 0
deriving DecidableEq, Repr

namespace Reader

/-- Whether a byte of code opens a comment that ends with the line, given the byte ahead. -/
def opensLine (b : UInt8) (ahead : Option UInt8) : Bool :=
  b == Ascii.hyphen && ahead == some Ascii.hyphen

/-- Whether a byte of code opens a block comment, given the byte ahead. -/
def opensBlock (b : UInt8) (ahead : Option UInt8) : Bool :=
  b == Ascii.slash && ahead == some Ascii.asterisk

def mark (r : Reader) (b : UInt8) (ahead : Option UInt8) : Mark :=
  match r.mode with
  | .code =>
    if Lexeme.isQuote b then ⟨.quoted, r.depth⟩
    else if opensLine b ahead then ⟨.lineComment, r.depth⟩
    else if opensBlock b ahead then ⟨.blockComment, r.depth⟩
    else ⟨.code, if b = Ascii.closeParen then r.depth - 1 else r.depth⟩
  | .quoted _ => ⟨.quoted, r.depth⟩
  | .line => ⟨if b = Ascii.newline then .code else .lineComment, r.depth⟩
  | .opening | .block _ => ⟨.blockComment, r.depth⟩

/-- Passes a byte. -/
def step (r : Reader) (b : UInt8) (ahead : Option UInt8) : Reader :=
  match r.mode with
  | .code =>
    if Lexeme.isQuote b then { r with mode := .quoted b }
    else if opensLine b ahead then { r with mode := .line }
    else if opensBlock b ahead then { r with mode := .opening }
    else if b = Ascii.openParen then { r with depth := r.depth + 1 }
    else if b = Ascii.closeParen then { r with depth := r.depth - 1 }
    else r
  | .quoted quote => if b = quote then { r with mode := .code } else r
  | .line => if b = Ascii.newline then { r with mode := .code } else r
  | .opening => { r with mode := .block false }
  | .block star =>
    if star ∧ b = Ascii.slash then { r with mode := .code }
    else { r with mode := .block (b == Ascii.asterisk) }

/-- The marks of the bytes of a text. -/
def marks : Reader → List UInt8 → List Mark
  | _, [] => []
  | r, b :: bs => r.mark b bs.head? :: (r.step b bs.head?).marks bs

/-- Where the reader stands behind a text. -/
def after : Reader → List UInt8 → Reader
  | r, [] => r
  | r, b :: bs => (r.step b bs.head?).after bs

/-- Whether each parenthesis that a text closes in code was open. -/
def Nested : Reader → List UInt8 → Prop
  | _, [] => True
  | r, b :: bs =>
    (r.mode = .code → b = Ascii.closeParen → 0 < r.depth) ∧ (r.step b bs.head?).Nested bs

/-- The reader further down by some parentheses. -/
def deepen (n : Nat) (r : Reader) : Reader := { r with depth := r.depth + n }

/-- No comment opens with the last byte of the one text and the first byte of the other. -/
def Splits (u v : List UInt8) : Prop :=
  ∀ a ∈ u.getLast?, ∀ b ∈ v.head?, opensLine a (some b) = false ∧ opensBlock a (some b) = false

end Reader

/-- Every quoted run of a text is closed. -/
def ClosesQuotes (bs : List UInt8) : Prop :=
  ∀ quote, (({} : Reader).after bs).mode ≠ .quoted quote

/-- A text that closes every quoted run and every parenthesis, and no other parenthesis. -/
structure Balanced (bs : List UInt8) : Prop where
  quotes : ClosesQuotes bs
  parens : (({} : Reader).after bs).depth = 0
  nested : ({} : Reader).Nested bs

namespace Reader

variable {r : Reader} {b : UInt8} {u v w : List UInt8}

@[simp] theorem marks_nil : r.marks [] = [] := rfl

@[simp] theorem after_nil : r.after [] = r := rfl

theorem marks_cons : r.marks (b :: u) = r.mark b u.head? :: (r.step b u.head?).marks u := rfl

theorem after_cons : r.after (b :: u) = (r.step b u.head?).after u := rfl

@[simp] theorem length_marks (r : Reader) (u : List UInt8) : (r.marks u).length = u.length := by
  induction u generalizing r with
  | nil => rfl
  | cons b u ih => rw [marks_cons, List.length_cons, ih, List.length_cons]

/-! ## Reading in parts -/

theorem splits_nil_right : Splits u [] := by
  intro a _ b hb
  cases hb

theorem splits_of_last (h : ∀ a ∈ u.getLast?, a ≠ Ascii.hyphen ∧ a ≠ Ascii.slash) :
    Splits u v := by
  intro a ha b _
  obtain ⟨hhyphen, hslash⟩ := h a ha
  simp [opensLine, opensBlock, hhyphen, hslash]

theorem splits_of_head (h : ∀ b ∈ v.head?, b ≠ Ascii.hyphen ∧ b ≠ Ascii.asterisk) :
    Splits u v := by
  intro a _ b hb
  obtain ⟨hhyphen, hasterisk⟩ := h b hb
  simp [opensLine, opensBlock, hhyphen, hasterisk]

theorem Splits.of_cons_cons {a : UInt8} (h : Splits (b :: a :: u) v) : Splits (a :: u) v := by
  intro x hx
  exact h x (by simpa [List.getLast?_cons_cons] using hx)

/-- Where no comment opens, the byte ahead makes no difference. -/
theorem step_some {a : UInt8} (hline : opensLine b (some a) = false)
    (hblock : opensBlock b (some a) = false) : r.step b (some a) = r.step b none := by
  have hline' : opensLine b none = false := by simp [opensLine]
  have hblock' : opensBlock b none = false := by simp [opensBlock]
  unfold step
  rw [hline, hblock, hline', hblock']

theorem mark_some {a : UInt8} (hline : opensLine b (some a) = false)
    (hblock : opensBlock b (some a) = false) : r.mark b (some a) = r.mark b none := by
  have hline' : opensLine b none = false := by simp [opensLine]
  have hblock' : opensBlock b none = false := by simp [opensBlock]
  unfold mark
  rw [hline, hblock, hline', hblock']

theorem after_append (h : Splits u v) : r.after (u ++ v) = (r.after u).after v := by
  induction u generalizing r with
  | nil => rfl
  | cons b u ih =>
    cases u with
    | nil =>
      cases v with
      | nil => rfl
      | cons a v =>
        obtain ⟨hline, hblock⟩ := h b rfl a rfl
        simp only [List.cons_append, List.nil_append, after_cons, after_nil, List.head?_cons,
          List.head?_nil, step_some hline hblock]
    | cons a u =>
      rw [List.cons_append, after_cons, after_cons, ih h.of_cons_cons]
      rfl

theorem marks_append (h : Splits u v) : r.marks (u ++ v) = r.marks u ++ (r.after u).marks v := by
  induction u generalizing r with
  | nil => rfl
  | cons b u ih =>
    cases u with
    | nil =>
      cases v with
      | nil => rfl
      | cons a v =>
        obtain ⟨hline, hblock⟩ := h b rfl a rfl
        simp only [List.cons_append, List.nil_append, marks_cons, marks_nil, after_cons, after_nil,
          List.head?_cons, List.head?_nil, step_some hline hblock, mark_some hline hblock]
    | cons a u =>
      rw [List.cons_append, marks_cons, marks_cons, after_cons, ih h.of_cons_cons]
      rfl

theorem nested_append (h : Splits u v) :
    r.Nested (u ++ v) ↔ r.Nested u ∧ (r.after u).Nested v := by
  induction u generalizing r with
  | nil => simp [Nested]
  | cons b u ih =>
    cases u with
    | nil =>
      cases v with
      | nil => simp [Nested]
      | cons a v =>
        obtain ⟨hline, hblock⟩ := h b rfl a rfl
        simp only [List.cons_append, List.nil_append, Nested, after_cons, after_nil,
          List.head?_cons, List.head?_nil, step_some hline hblock, and_true]
    | cons a u =>
      rw [List.cons_append, Nested, Nested, after_cons, ih h.of_cons_cons, and_assoc]
      rfl

/-! ## Reading at another depth -/

theorem mark_deepen {n : Nat} {ahead : Option UInt8}
    (h : r.mode = .code → b = Ascii.closeParen → 0 < r.depth) :
    (r.deepen n).mark b ahead = (r.mark b ahead).deepen n := by
  obtain ⟨mode, depth⟩ := r
  cases mode with
  | code =>
    simp only [mark, deepen]
    split
    · rfl
    split
    · rfl
    split
    · rfl
    split
    · rename_i hclose
      have hpos : 0 < depth := h rfl hclose
      simp only [Mark.deepen, Mark.mk.injEq, true_and]
      omega
    · rfl
  | quoted q => rfl
  | line => rfl
  | opening => rfl
  | block star => rfl

theorem step_deepen {n : Nat} {ahead : Option UInt8}
    (h : r.mode = .code → b = Ascii.closeParen → 0 < r.depth) :
    (r.deepen n).step b ahead = (r.step b ahead).deepen n := by
  obtain ⟨mode, depth⟩ := r
  cases mode with
  | code =>
    simp only [step, deepen]
    split
    · rfl
    split
    · rfl
    split
    · rfl
    split
    · simp only [mk.injEq, true_and]
      omega
    split
    · rename_i hclose
      have hpos : 0 < depth := h rfl hclose
      simp only [mk.injEq, true_and]
      omega
    · rfl
  | quoted q =>
    simp only [step, deepen]
    split <;> rfl
  | line =>
    simp only [step, deepen]
    split <;> rfl
  | opening => rfl
  | block star =>
    simp only [step, deepen]
    split <;> rfl

theorem after_deepen {n : Nat} (h : r.Nested u) :
    (r.deepen n).after u = (r.after u).deepen n := by
  induction u generalizing r with
  | nil => rfl
  | cons b u ih =>
    obtain ⟨hb, hu⟩ := h
    rw [after_cons, after_cons, step_deepen hb, ih hu]

theorem marks_deepen {n : Nat} (h : r.Nested u) :
    (r.deepen n).marks u = (r.marks u).map (·.deepen n) := by
  induction u generalizing r with
  | nil => rfl
  | cons b u ih =>
    obtain ⟨hb, hu⟩ := h
    rw [marks_cons, marks_cons, List.map_cons, step_deepen hb, mark_deepen hb, ih hu]

theorem nested_deepen {n : Nat} (h : r.Nested u) : (r.deepen n).Nested u := by
  induction u generalizing r with
  | nil => trivial
  | cons b u ih =>
    obtain ⟨hb, hu⟩ := h
    refine ⟨fun hmode hclose => Nat.lt_of_lt_of_le (hb hmode hclose) (Nat.le_add_right _ n), ?_⟩
    rw [step_deepen hb]
    exact ih hu

/-- The mode does not depend on the depth. -/
theorem mode_step {r' : Reader} (h : r.mode = r'.mode) (ahead : Option UInt8) :
    (r.step b ahead).mode = (r'.step b ahead).mode := by
  obtain ⟨mode, depth⟩ := r
  obtain ⟨mode', depth'⟩ := r'
  obtain rfl : mode = mode' := h
  unfold step
  cases mode <;> simp only
  all_goals repeat' split
  all_goals rfl

theorem mode_after {r' : Reader} (h : r.mode = r'.mode) :
    (r.after u).mode = (r'.after u).mode := by
  induction u generalizing r r' with
  | nil => exact h
  | cons b u ih =>
    rw [after_cons, after_cons]
    exact ih (mode_step h u.head?)

/-! ## Plain code -/

/-- Whether a byte of code changes neither the mode nor the depth, whatever is ahead. -/
def isPlain (b : UInt8) : Bool :=
  !Lexeme.isQuote b && b != Ascii.hyphen && b != Ascii.slash && b != Ascii.openParen &&
    b != Ascii.closeParen

theorem step_of_isPlain {d : Nat} {ahead : Option UInt8} (h : isPlain b = true) :
    (⟨.code, d⟩ : Reader).step b ahead = ⟨.code, d⟩ := by
  simp only [isPlain, Bool.and_eq_true, Bool.not_eq_true', bne_iff_ne, ne_eq] at h
  obtain ⟨⟨⟨⟨hquote, hhyphen⟩, hslash⟩, hopen⟩, hclose⟩ := h
  simp [step, opensLine, opensBlock, hquote, hhyphen, hslash, hopen, hclose]

theorem ne_of_isPlain (h : isPlain b = true) : b ≠ Ascii.hyphen ∧ b ≠ Ascii.slash := by
  simp only [isPlain, Bool.and_eq_true, bne_iff_ne, ne_eq] at h
  exact ⟨h.1.1.1.2, h.1.1.2⟩

theorem after_of_isPlain {d : Nat} (h : ∀ b ∈ u, isPlain b = true) :
    (⟨.code, d⟩ : Reader).after u = ⟨.code, d⟩ := by
  induction u with
  | nil => rfl
  | cons b u ih =>
    rw [after_cons, step_of_isPlain (h b List.mem_cons_self)]
    exact ih fun a ha => h a (List.mem_cons_of_mem b ha)

/-! ## Neutral texts -/

/-- A text that may stand between any two others without a comment opening across its ends. -/
structure Fit (u : List UInt8) : Prop where
  ne_nil : u ≠ []
  head : ∀ b ∈ u.head?, b ≠ Ascii.hyphen ∧ b ≠ Ascii.asterisk
  last : ∀ b ∈ u.getLast?, b ≠ Ascii.hyphen ∧ b ≠ Ascii.slash

namespace Fit

variable {u v w : List UInt8}

theorem splits_left (h : Fit v) : Splits u (v ++ w) := by
  refine splits_of_head fun b hb => h.head b ?_
  obtain ⟨a, v, rfl⟩ := List.exists_cons_of_ne_nil h.ne_nil
  exact hb

theorem splits_right (h : Fit u) : Splits u v := splits_of_last h.last

theorem append (hu : Fit u) (hv : Fit v) : Fit (u ++ v) := by
  refine ⟨by simp [hu.ne_nil], ?_, ?_⟩
  · obtain ⟨b, u, rfl⟩ := List.exists_cons_of_ne_nil hu.ne_nil
    exact hu.head
  · intro a ha
    rw [List.getLast?_append_of_ne_nil u hv.ne_nil] at ha
    exact hv.last a ha

end Fit

/-- What a byte belongs to does not depend on the depth. -/
theorem cls_mark {r' : Reader} (h : r.mode = r'.mode) (ahead : Option UInt8) :
    (r.mark b ahead).cls = (r'.mark b ahead).cls := by
  obtain ⟨mode, depth⟩ := r
  obtain ⟨mode', depth'⟩ := r'
  obtain rfl : mode = mode' := h
  unfold mark
  cases mode <;> simp only
  all_goals repeat' split
  all_goals rfl

theorem cls_marks {r' : Reader} (h : r.mode = r'.mode) :
    (r.marks u).map (·.cls) = (r'.marks u).map (·.cls) := by
  induction u generalizing r r' with
  | nil => rfl
  | cons b u ih =>
    rw [marks_cons, marks_cons, List.map_cons, List.map_cons, cls_mark h,
      ih (mode_step h u.head?)]

/-- The start of a text closes no parenthesis that was not open, if the text does not. -/
theorem nested_of_append (h : r.Nested (u ++ v)) : r.Nested u := by
  induction u generalizing r with
  | nil => trivial
  | cons b u ih =>
    obtain ⟨hb, hu⟩ := h
    cases u with
    | nil => exact ⟨hb, trivial⟩
    | cons a u => exact ⟨hb, ih hu⟩

/-- Reads a text at a depth and comes back to code at that depth. -/
structure Neutral (u : List UInt8) : Prop where
  nested : ({} : Reader).Nested u
  closed : ({} : Reader).after u = {}

theorem Neutral.after (h : Neutral u) (d : Nat) : (⟨.code, d⟩ : Reader).after u = ⟨.code, d⟩ := by
  have hafter := after_deepen (n := d) h.nested
  rw [h.closed] at hafter
  simpa [deepen] using hafter

theorem Neutral.append (hu : Neutral u) (hv : Neutral v) (h : Splits u v) : Neutral (u ++ v) := by
  refine ⟨(nested_append h).2 ⟨hu.nested, ?_⟩, ?_⟩
  · rw [hu.closed]
    exact hv.nested
  · rw [after_append h, hu.closed, hv.closed]

instance decidableNested : (r : Reader) → (u : List UInt8) → Decidable (r.Nested u)
  | _, [] => .isTrue trivial
  | r, b :: u =>
    have := decidableNested (r.step b u.head?) u
    inferInstanceAs (Decidable (_ ∧ _))

instance (u : List UInt8) : Decidable (Neutral u) :=
  decidable_of_iff (({} : Reader).Nested u ∧ ({} : Reader).after u = {})
    ⟨fun h => ⟨h.1, h.2⟩, fun h => ⟨h.nested, h.closed⟩⟩

instance (u : List UInt8) : Decidable (Fit u) :=
  decidable_of_iff (u ≠ [] ∧ (∀ b ∈ u.head?, b ≠ Ascii.hyphen ∧ b ≠ Ascii.asterisk) ∧
      ∀ b ∈ u.getLast?, b ≠ Ascii.hyphen ∧ b ≠ Ascii.slash)
    ⟨fun h => ⟨h.1, h.2.1, h.2.2⟩, fun h => ⟨h.ne_nil, h.head, h.last⟩⟩

theorem nested_of_isPlain {d : Nat} (h : ∀ b ∈ u, isPlain b = true) :
    (⟨.code, d⟩ : Reader).Nested u := by
  induction u with
  | nil => trivial
  | cons b u ih =>
    have hb := h b List.mem_cons_self
    refine ⟨fun _ hclose => ?_, ?_⟩
    · rw [hclose] at hb
      cases hb
    · rw [step_of_isPlain hb]
      exact ih fun a ha => h a (List.mem_cons_of_mem b ha)

theorem neutral_of_isPlain (h : ∀ b ∈ u, isPlain b = true) : Neutral u :=
  ⟨nested_of_isPlain h, after_of_isPlain h⟩

theorem Neutral.append_fit (hu : Neutral u) (hv : Neutral v) (hw : Neutral w) (h : Fit v) :
    Neutral (u ++ (v ++ w)) :=
  hu.append (hv.append hw h.splits_right) h.splits_left

/-- Putting a text in parentheses takes one down and back. -/
theorem Neutral.parens (h : Neutral u) :
    Neutral (Ascii.openParen :: u ++ [Ascii.closeParen]) := by
  have hopen : Splits [Ascii.openParen] (u ++ [Ascii.closeParen]) :=
    splits_of_last (by decide)
  have hclose : Splits u [Ascii.closeParen] := splits_of_head (by decide)
  have hstep : ({} : Reader).after [Ascii.openParen] = ⟨.code, 1⟩ := rfl
  have hnested : (({} : Reader).deepen 1).Nested u := nested_deepen h.nested
  have hafter := h.after 1
  refine ⟨?_, ?_⟩
  · refine (nested_append hopen).2 ⟨⟨fun _ => by decide, trivial⟩, ?_⟩
    rw [hstep]
    refine (nested_append hclose).2 ⟨hnested, ?_⟩
    rw [hafter]
    simp [Nested]
  · rw [List.cons_append, ← List.singleton_append, after_append hopen, hstep, after_append hclose,
      hafter]
    rfl

end Reader

instance (bs : List UInt8) : Decidable (ClosesQuotes bs) :=
  match h : (({} : Reader).after bs).mode with
  | .quoted quote => .isFalse fun hcloses => hcloses quote h
  | .code | .line | .opening | .block _ => .isTrue fun quote => by simp [h]

instance (bs : List UInt8) : Decidable (Balanced bs) :=
  decidable_of_iff (ClosesQuotes bs ∧ (({} : Reader).after bs).depth = 0 ∧ ({} : Reader).Nested bs)
    ⟨fun h => ⟨h.1, h.2.1, h.2.2⟩, fun h => ⟨h.quotes, h.parens, h.nested⟩⟩

end Listing
