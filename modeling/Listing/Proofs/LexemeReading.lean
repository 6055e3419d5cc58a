import Listing.Proofs.Reading

/-!
# Lexemes as the reader sees them

How the lexemes of a text relate to reading it byte by byte. `Lexeme.Begins` lists what can stand at
the start of a text; every other statement goes by its cases.

* Behind a closed lexeme of code the reader is in code again, at the depth that the parentheses make
  (`Lexeme.Begins.after`).
* A text may be cut into lexemes in two parts if the first part ends in code and the bytes at the
  cut do not belong together (`lexemes_append`).
-/

namespace Listing

open Text

namespace Lexeme

/-- The kind of a byte that is a lexeme by itself. -/
def singleKind (b : UInt8) : Kind :=
  if b = Ascii.openParen then .opening
  else if b = Ascii.closeParen then .closing
  else if b = Ascii.semicolon then .semicolon
  else if isBlankByte b then .blank
  else .symbol

theorem single_eq (b : UInt8) (r : List UInt8) :
    (if b = Ascii.openParen then ((⟨.opening, [b]⟩ : Lexeme), r)
      else if b = Ascii.closeParen then (⟨.closing, [b]⟩, r)
      else if b = Ascii.semicolon then (⟨.semicolon, [b]⟩, r)
      else if isBlankByte b then (⟨.blank, [b]⟩, r)
      else (⟨.symbol, [b]⟩, r)) = (⟨singleKind b, [b]⟩, r) := by
  grind [singleKind]

/-- A text that starts with a byte starts with a lexeme, and goes on with a rest. -/
inductive Begins : UInt8 → List UInt8 → Lexeme → List UInt8 → Prop
  | quoted {q : UInt8} {r : List UInt8} (hquote : isQuote q = true) :
      Begins q r ⟨.quoted, q :: (splitQuoted q r).1⟩ (splitQuoted q r).2
  | line {r : List UInt8} :
      Begins Ascii.hyphen (Ascii.hyphen :: r)
        ⟨.comment, Ascii.hyphen :: Ascii.hyphen :: r.takeWhile (· != Ascii.newline)⟩
        (r.dropWhile (· != Ascii.newline))
  | block {r : List UInt8} :
      Begins Ascii.slash (Ascii.asterisk :: r)
        ⟨.comment, Ascii.slash :: Ascii.asterisk :: (splitBlock r).1⟩ (splitBlock r).2
  | word {b : UInt8} {r : List UInt8} (hword : isWordByte b = true) :
      Begins b r ⟨.word, b :: r.takeWhile isWordByte⟩ (r.dropWhile isWordByte)
  | single {b : UInt8} {r : List UInt8} (hquote : isQuote b = false)
      (hline : Reader.opensLine b r.head? = false) (hblock : Reader.opensBlock b r.head? = false)
      (hword : isWordByte b = false) : Begins b r ⟨singleKind b, [b]⟩ r

theorem ne_of_isWordByte {a b : UInt8} (hb : isWordByte b = true) (ha : isWordByte a = false) :
    b ≠ a := by
  rintro rfl
  rw [ha] at hb
  cases hb

theorem isQuote_of_isWordByte {b : UInt8} (hb : isWordByte b = true) : isQuote b = false := by
  have h₁ := ne_of_isWordByte hb (a := Ascii.singleQuote) (by decide)
  have h₂ := ne_of_isWordByte hb (a := Ascii.doubleQuote) (by decide)
  have h₃ := ne_of_isWordByte hb (a := Ascii.backquote) (by decide)
  simp [isQuote, h₁, h₂, h₃]

theorem isPlain_of_isWordByte {b : UInt8} (hb : isWordByte b = true) :
    Reader.isPlain b = true := by
  have h₁ := ne_of_isWordByte hb (a := Ascii.hyphen) (by decide)
  have h₂ := ne_of_isWordByte hb (a := Ascii.slash) (by decide)
  have h₃ := ne_of_isWordByte hb (a := Ascii.openParen) (by decide)
  have h₄ := ne_of_isWordByte hb (a := Ascii.closeParen) (by decide)
  simp [Reader.isPlain, isQuote_of_isWordByte hb, h₁, h₂, h₃, h₄]

/-- `first` finds what a text begins with. -/
theorem begins_first (b : UInt8) (r : List UInt8) : Begins b r (first b r).1 (first b r).2 := by
  unfold first
  by_cases hquote : isQuote b = true
  · rw [if_pos hquote]
    exact .quoted hquote
  rw [if_neg hquote]
  by_cases hline : b = Ascii.hyphen ∧ r.head? = some Ascii.hyphen
  · rw [if_pos hline]
    obtain ⟨rfl, hhead⟩ := hline
    obtain ⟨r', rfl⟩ := List.head?_eq_some_iff.1 hhead
    have h : (Ascii.hyphen != Ascii.newline) = true := by decide
    simp only [List.takeWhile_cons, List.dropWhile_cons, h, ↓reduceIte]
    exact .line
  rw [if_neg hline]
  by_cases hblock : b = Ascii.slash ∧ r.head? = some Ascii.asterisk
  · rw [if_pos hblock]
    obtain ⟨rfl, hhead⟩ := hblock
    obtain ⟨r', rfl⟩ := List.head?_eq_some_iff.1 hhead
    exact .block
  rw [if_neg hblock]
  by_cases hword : isWordByte b = true
  · rw [if_pos hword]
    exact .word hword
  rw [if_neg hword, single_eq]
  exact .single (by simpa using hquote) (by simpa [Reader.opensLine] using hline)
    (by simpa [Reader.opensBlock] using hblock) (by simpa using hword)

/-- What a text begins with is what `first` finds. -/
theorem Begins.first_eq {b : UInt8} {r rest : List UInt8} {x : Lexeme} (h : Begins b r x rest) :
    first b r = (x, rest) := by
  cases h with
  | quoted hquote => simp [first, hquote]
  | line =>
    have h₁ : isQuote Ascii.hyphen = false := by decide
    have h₂ : (Ascii.hyphen != Ascii.newline) = true := by decide
    simp [first, h₁, h₂]
  | block =>
    have h₁ : isQuote Ascii.slash = false := by decide
    have h₂ : Ascii.slash ≠ Ascii.hyphen := by decide
    simp [first, h₁, h₂]
  | word hword =>
    have h₁ := ne_of_isWordByte hword (a := Ascii.hyphen) (by decide)
    have h₂ := ne_of_isWordByte hword (a := Ascii.slash) (by decide)
    simp [first, isQuote_of_isWordByte hword, h₁, h₂, hword]
  | single hquote hline hblock hword =>
    have h₁ : ¬(b = Ascii.hyphen ∧ r.head? = some Ascii.hyphen) := by
      simpa [Reader.opensLine] using hline
    have h₂ : ¬(b = Ascii.slash ∧ r.head? = some Ascii.asterisk) := by
      simpa [Reader.opensBlock] using hblock
    rw [first, if_neg (by simp [hquote]), if_neg h₁, if_neg h₂, if_neg (by simp [hword]), single_eq]

theorem Begins.append {b : UInt8} {r rest : List UInt8} {x : Lexeme} (h : Begins b r x rest) :
    x.text ++ rest = b :: r := by
  have happ := first_append b r
  rw [h.first_eq] at happ
  exact happ

theorem Begins.append_append {b : UInt8} {r rest : List UInt8} {x : Lexeme}
    (h : Begins b r x rest) (u : List UInt8) : (u ++ x.text) ++ rest = u ++ b :: r := by
  rw [List.append_assoc, h.append]

theorem Begins.text_prefix {b : UInt8} {r rest : List UInt8} {x : Lexeme}
    (h : Begins b r x rest) : x.text <+: b :: r := ⟨rest, h.append⟩

theorem Begins.ne_nil {b : UInt8} {r rest : List UInt8} {x : Lexeme} (h : Begins b r x rest) :
    x.text ≠ [] := by
  have hne := first_text_ne_nil b r
  rw [h.first_eq] at hne
  exact hne

/-- Only a word byte starts a word. -/
theorem Begins.starts_word {b : UInt8} {r rest : List UInt8} {x : Lexeme} (h : Begins b r x rest)
    (hkind : x.kind = .word) : isWordByte b = true := by
  cases h with
  | quoted => cases hkind
  | line => cases hkind
  | block => cases hkind
  | word hword => exact hword
  | single =>
    simp only [singleKind] at hkind
    repeat' split at hkind
    all_goals cases hkind

/-! ## Reading a lexeme -/

/-- How many parentheses are open behind a lexeme. -/
def depthBehind (x : Lexeme) (d : Nat) : Nat :=
  match x.kind with
  | .opening => d + 1
  | .closing => d - 1
  | _ => d

/-- Behind a quoted run that something follows, the reader is in code. -/
theorem after_splitQuoted {q : UInt8} {r w : List UInt8} {d : Nat} (hq : isQuote q = true)
    (hrest : (splitQuoted q r).2 ≠ []) :
    (⟨.quoted q, d⟩ : Reader).after ((splitQuoted q r).1 ++ w) =
      (⟨.code, d⟩ : Reader).after w := by
  fun_induction splitQuoted q r with
  | case1 => exact absurd rfl hrest
  | case2 b => exact absurd rfl hrest
  | case3 r inside rest hsplit ih =>
    -- the first quote closes the run and the second opens it again
    rw [hsplit] at ih
    simp only [List.cons_append, Reader.after_cons, Reader.step, ↓reduceIte, hq]
    exact ih hrest
  | case4 c r hne =>
    simp [Reader.after_cons, Reader.step]
  | case5 b c r hne inside rest hsplit ih =>
    rw [hsplit] at ih
    simp only [List.cons_append, Reader.after_cons, Reader.step, hne, ↓reduceIte]
    exact ih hrest

/-- Behind the end of a text that starts in a quoted run, the reader is in code or still in it. -/
theorem after_splitQuoted_or {q : UInt8} {r : List UInt8} {d : Nat} (hq : isQuote q = true) :
    (⟨.quoted q, d⟩ : Reader).after (splitQuoted q r).1 = ⟨.code, d⟩ ∨
      (⟨.quoted q, d⟩ : Reader).after (splitQuoted q r).1 = ⟨.quoted q, d⟩ := by
  fun_induction splitQuoted q r with
  | case1 => exact .inr rfl
  | case2 b =>
    by_cases hb : b = q
    · left
      simp [Reader.after_cons, Reader.step, hb]
    · right
      simp [Reader.after_cons, Reader.step, hb]
  | case3 r inside rest hsplit ih =>
    rw [hsplit] at ih
    simpa only [List.cons_append, Reader.after_cons, Reader.step, List.head?_cons, ↓reduceIte, hq]
      using ih
  | case4 c r hne =>
    left
    simp [Reader.after_cons, Reader.step]
  | case5 b c r hne inside rest hsplit ih =>
    rw [hsplit] at ih
    simpa only [Reader.after_cons, Reader.step, hne, ↓reduceIte] using ih

/-- In a block comment, a byte that does not end it is passed. -/
theorem step_block {b : UInt8} {r : List UInt8} {ahead : Option UInt8} {d : Nat} {star : Bool}
    (hstar : star = true → (b :: r).head? ≠ some Ascii.slash) :
    (⟨.block star, d⟩ : Reader).step b ahead = ⟨.block (b == Ascii.asterisk), d⟩ := by
  have h : ¬(star = true ∧ b = Ascii.slash) := fun h => hstar h.1 (by rw [h.2]; rfl)
  simp only [Reader.step, h, ↓reduceIte]

/-- Two bytes that do not end a block comment leave the reader in it in front of the second. -/
theorem head?_ne_of_not_close {b c : UInt8} (h : ¬(b = Ascii.asterisk ∧ c = Ascii.slash))
    (r : List UInt8) : (b == Ascii.asterisk) = true → (c :: r).head? ≠ some Ascii.slash := by
  intro hb hc
  exact h ⟨by simpa using hb, by simpa using hc⟩

/-- Behind the two bytes that end a block comment the reader is in code. -/
theorem after_close {w : List UInt8} {d : Nat} {star : Bool} :
    (⟨.block star, d⟩ : Reader).after (Ascii.asterisk :: Ascii.slash :: w) =
      (⟨.code, d⟩ : Reader).after w := by
  rw [Reader.after_cons, step_block (r := []) fun _ => by decide]
  rfl

/-- Behind a block comment that something follows, the reader is in code. -/
theorem after_splitBlock {r w : List UInt8} {d : Nat} {star : Bool}
    (hstar : star = true → r.head? ≠ some Ascii.slash) (hrest : (splitBlock r).2 ≠ []) :
    (⟨.block star, d⟩ : Reader).after ((splitBlock r).1 ++ w) =
      (⟨.code, d⟩ : Reader).after w := by
  fun_induction splitBlock r generalizing star with
  | case1 => exact absurd rfl hrest
  | case2 b => exact absurd rfl hrest
  | case3 b c r hclose =>
    obtain ⟨rfl, rfl⟩ := hclose
    exact after_close
  | case4 b c r hopen inside rest hsplit ih =>
    rw [hsplit] at ih
    rw [List.cons_append, Reader.after_cons, step_block hstar]
    exact ih (head?_ne_of_not_close hopen r) hrest

/-- A quoted run that something follows ends with its quote. -/
theorem getLast?_splitQuoted_of_rest {q : UInt8} {r : List UInt8}
    (hrest : (splitQuoted q r).2 ≠ []) : (splitQuoted q r).1.getLast? = some q := by
  fun_induction splitQuoted q r with
  | case1 => exact absurd rfl hrest
  | case2 b => exact absurd rfl hrest
  | case3 r inside rest hsplit ih =>
    rw [hsplit] at ih
    simp [List.getLast?_cons, ih hrest]
  | case4 c r hne => rfl
  | case5 b c r hne inside rest hsplit ih =>
    rw [hsplit] at ih
    simp [List.getLast?_cons, ih hrest]

/-- A line comment goes on up to the line break. -/
theorem after_line {u w : List UInt8} {d : Nat} (h : ∀ b ∈ u, (b != Ascii.newline) = true) :
    (⟨.line, d⟩ : Reader).after (u ++ w) = (⟨.line, d⟩ : Reader).after w := by
  induction u with
  | nil => rfl
  | cons b u ih =>
    have hb : b ≠ Ascii.newline := by simpa using h b List.mem_cons_self
    simp only [List.cons_append, Reader.after_cons, Reader.step, hb, ↓reduceIte]
    exact ih fun a ha => h a (List.mem_cons_of_mem b ha)

theorem depth_after_splitBlock {r : List UInt8} {d : Nat} {star : Bool}
    (hstar : star = true → r.head? ≠ some Ascii.slash) :
    ((⟨.block star, d⟩ : Reader).after (splitBlock r).1).depth = d := by
  fun_induction splitBlock r generalizing star with
  | case1 => rfl
  | case2 b =>
    simp only [Reader.after_cons, Reader.step]
    split <;> rfl
  | case3 b c r hclose =>
    obtain ⟨rfl, rfl⟩ := hclose
    rw [after_close, Reader.after_nil]
  | case4 b c r hopen inside rest hsplit ih =>
    rw [hsplit] at ih
    rw [Reader.after_cons, step_block hstar]
    exact ih (head?_ne_of_not_close hopen r)

/-- The two bytes that open a line comment. -/
theorem after_opensLine (w : List UInt8) (d : Nat) :
    (⟨.code, d⟩ : Reader).after (Ascii.hyphen :: Ascii.hyphen :: w) =
      (⟨.line, d⟩ : Reader).after w := rfl

/-- The two bytes that open a block comment. -/
theorem after_opensBlock (w : List UInt8) (d : Nat) :
    (⟨.code, d⟩ : Reader).after (Ascii.slash :: Ascii.asterisk :: w) =
      (⟨.block false, d⟩ : Reader).after w := rfl

/-- A line comment without its line break leaves the reader in it. -/
theorem after_takeWhile_line (r : List UInt8) (d : Nat) :
    (⟨.line, d⟩ : Reader).after (r.takeWhile (· != Ascii.newline)) = ⟨.line, d⟩ := by
  have hline := after_line (u := r.takeWhile (· != Ascii.newline)) (w := []) (d := d)
    fun c hc => List.all_eq_true.1 List.all_takeWhile c hc
  rwa [List.append_nil, Reader.after_nil] at hline

/-- Whether a quoted run is closed. -/
def IsClosed (x : Lexeme) : Prop :=
  x.kind = .quoted → ∀ q, ((⟨.code, 0⟩ : Reader).after x.text).mode ≠ .quoted q

theorem Begins.isClosed {b : UInt8} {r rest : List UInt8} {x : Lexeme} (h : Begins b r x rest)
    (hrest : rest ≠ []) : x.IsClosed := by
  intro hkind q
  cases h with
  | quoted hquote =>
    have hafter := after_splitQuoted (w := []) (d := 0) hquote hrest
    rw [List.append_nil] at hafter
    simp only [Reader.after_cons, Reader.step, hquote, ↓reduceIte, hafter]
    simp
  | line => cases hkind
  | block => cases hkind
  | word hword => cases hkind
  | single =>
    simp only [singleKind] at hkind
    repeat' split at hkind
    all_goals cases hkind

theorem step_single {b : UInt8} {ahead : Option UInt8} {d : Nat} (hquote : isQuote b = false)
    (hline : Reader.opensLine b ahead = false) (hblock : Reader.opensBlock b ahead = false) :
    (⟨.code, d⟩ : Reader).step b ahead =
      ⟨.code, (⟨singleKind b, [b]⟩ : Lexeme).depthBehind d⟩ := by
  simp only [Reader.step, hquote, hline, hblock, Bool.false_eq_true, ↓reduceIte]
  grind [singleKind, depthBehind]

/-- The reader reads on behind a lexeme as if in code, at the depth behind it. Right behind a
comment it may be still in the comment; it is the line break that takes it out of there. -/
theorem Begins.after {b : UInt8} {r rest w : List UInt8} {x : Lexeme} {d : Nat}
    (h : Begins b r x rest) (hclosed : x.IsClosed) (hw : w <+: rest)
    (hcomment : x.kind = .comment → w ≠ []) :
    (⟨.code, d⟩ : Reader).after (x.text ++ w) = (⟨.code, x.depthBehind d⟩ : Reader).after w := by
  cases h with
  | quoted hquote =>
    simp only [List.cons_append, Reader.after_cons, Reader.step, hquote, ↓reduceIte, depthBehind]
    by_cases hrest : (splitQuoted b r).2 = []
    · obtain rfl : w = [] := by rwa [hrest, List.prefix_nil] at hw
      rw [List.append_nil, Reader.after_nil]
      rcases after_splitQuoted_or (r := r) (d := d) hquote with hcode | hquoted
      · exact hcode
      · refine absurd ?_ (hclosed rfl b)
        simp only [Reader.after_cons, Reader.step, hquote, ↓reduceIte]
        have hmode : ((⟨.quoted b, 0⟩ : Reader).after (splitQuoted b r).1).mode =
            ((⟨.quoted b, d⟩ : Reader).after (splitQuoted b r).1).mode := Reader.mode_after rfl
        rw [hmode, hquoted]
    · exact after_splitQuoted hquote hrest
  | @line r =>
    obtain ⟨c, w, rfl⟩ := List.exists_cons_of_ne_nil (hcomment rfl)
    obtain rfl : c = Ascii.newline := by
      have hhead := List.head?_dropWhile_not (· != Ascii.newline) r
      obtain ⟨t, ht⟩ := hw
      rw [← ht] at hhead
      simpa using hhead
    have hplain : Reader.isPlain Ascii.newline = true := by decide
    have hrun : ∀ b ∈ r.takeWhile (· != Ascii.newline), (b != Ascii.newline) = true :=
      fun b hb => List.all_eq_true.1 List.all_takeWhile b hb
    rw [List.cons_append, List.cons_append, after_opensLine, after_line hrun, Reader.after_cons,
      Reader.after_cons, Reader.step_of_isPlain hplain]
    simp [Reader.step, depthBehind]
  | @block r =>
    have hrest : (splitBlock r).2 ≠ [] := by
      intro hnil
      rw [hnil, List.prefix_nil] at hw
      exact hcomment rfl hw
    rw [List.cons_append, List.cons_append, after_opensBlock]
    exact after_splitBlock (by simp) hrest
  | @word b r hword =>
    have hplain : ∀ a ∈ b :: r.takeWhile isWordByte, Reader.isPlain a = true := by
      intro a ha
      rcases List.mem_cons.1 ha with rfl | ha
      · exact isPlain_of_isWordByte hword
      · exact isPlain_of_isWordByte (List.all_eq_true.1 List.all_takeWhile a ha)
    have hsplits : Reader.Splits (b :: r.takeWhile isWordByte) w :=
      Reader.splits_of_last fun a ha =>
        Reader.ne_of_isPlain (hplain a (List.mem_of_getLast? ha))
    rw [Reader.after_append hsplits, Reader.after_of_isPlain hplain]
    rfl
  | @single b r hquote hline hblock hword =>
    -- what is ahead of the byte is the same in front of the rest and of its start
    have hahead : (⟨.code, d⟩ : Reader).step b w.head? =
        ⟨.code, (⟨singleKind b, [b]⟩ : Lexeme).depthBehind d⟩ := by
      obtain ⟨t, rfl⟩ := hw
      cases w with
      | nil => exact step_single hquote (by simp [Reader.opensLine]) (by simp [Reader.opensBlock])
      | cons c w => exact step_single hquote hline hblock
    rw [List.cons_append, List.nil_append, Reader.after_cons, hahead]

/-- A lexeme opens and closes parentheses as it says, also one that the text does not close. -/
theorem Begins.depth_after {b : UInt8} {r rest : List UInt8} {x : Lexeme} {d : Nat}
    (h : Begins b r x rest) :
    ((⟨.code, d⟩ : Reader).after x.text).depth = x.depthBehind d := by
  cases h with
  | quoted hquote =>
    simp only [Reader.after_cons, Reader.step, hquote, ↓reduceIte, depthBehind]
    rcases after_splitQuoted_or (r := r) (d := d) hquote with hcode | hquoted
    · rw [hcode]
    · rw [hquoted]
  | @line r =>
    rw [after_opensLine, after_takeWhile_line]
    rfl
  | @block r =>
    rw [after_opensBlock]
    exact depth_after_splitBlock (by simp)
  | @word b r hword =>
    have hafter := (Begins.word (r := r) hword).after (d := d) (fun hkind => by cases hkind)
      List.nil_prefix fun hkind => by cases hkind
    rw [List.append_nil, Reader.after_nil] at hafter
    rw [hafter]
  | single hquote =>
    rw [Reader.after_cons, step_single hquote (by simp [Reader.opensLine])
      (by simp [Reader.opensBlock]), Reader.after_nil]

/-- No comment opens across the end of a closed lexeme, unless it is one itself. -/
theorem Begins.splits {b : UInt8} {r rest : List UInt8} {x : Lexeme} (h : Begins b r x rest)
    (hcomment : x.kind ≠ .comment) : Reader.Splits x.text rest := by
  cases h with
  | @quoted q r hquote =>
    by_cases hrest : (splitQuoted b r).2 = []
    · rw [hrest]
      exact Reader.splits_nil_right
    · refine Reader.splits_of_last fun a ha => ?_
      rw [List.getLast?_cons, getLast?_splitQuoted_of_rest hrest] at ha
      obtain rfl : b = a := by simpa using ha
      refine ⟨?_, ?_⟩ <;> rintro rfl <;> exact absurd hquote (by decide)
  | line => exact absurd rfl hcomment
  | block => exact absurd rfl hcomment
  | @word b r hword =>
    refine Reader.splits_of_last fun a ha => Reader.ne_of_isPlain (isPlain_of_isWordByte ?_)
    rcases List.mem_cons.1 (List.mem_of_getLast? ha) with rfl | ha
    · exact hword
    · exact List.all_eq_true.1 List.all_takeWhile a ha
  | single hquote hline hblock hword =>
    intro a ha c hc
    obtain rfl : b = a := by simpa using ha
    rw [← Option.mem_def.1 hc]
    exact ⟨hline, hblock⟩

/-! ## Lexemes in parts -/

/-- No lexeme reaches across the cut between two texts, if the first one ends in code. -/
def Apart (u v : List UInt8) : Prop :=
  ∀ a ∈ u.getLast?, ∀ b ∈ v.head?,
    ¬(isWordByte a = true ∧ isWordByte b = true) ∧ ¬(isQuote a = true ∧ b = a) ∧
      Reader.opensLine a (some b) = false ∧ Reader.opensBlock a (some b) = false

/-- What follows a quoted run does not start with its quote. -/
theorem head?_splitQuoted (q : UInt8) (r : List UInt8) :
    ∀ b ∈ (splitQuoted q r).2.head?, b ≠ q := by
  fun_induction splitQuoted q r with
  | case1 => simp
  | case2 => simp
  | case3 r inside rest hsplit ih =>
    rw [hsplit] at ih
    exact ih
  | case4 c r hne => simpa using hne
  | case5 b c r hne inside rest hsplit ih =>
    rw [hsplit] at ih
    exact ih

/-- A closed lexeme and what follows it are apart, unless it is a comment. -/
theorem Begins.apart {b : UInt8} {r rest : List UInt8} {x : Lexeme} (h : Begins b r x rest)
    (hcomment : x.kind ≠ .comment) : Apart x.text rest := by
  intro a ha c hc
  obtain ⟨hline, hblock⟩ := h.splits hcomment a ha c hc
  refine ⟨?_, ?_, hline, hblock⟩
  · rintro ⟨hword, hword'⟩
    cases h with
    | @quoted q r hquote =>
      have hrest : (splitQuoted b r).2 ≠ [] := by
        rintro hnil
        rw [hnil] at hc
        cases hc
      rw [List.getLast?_cons, getLast?_splitQuoted_of_rest hrest] at ha
      obtain rfl : b = a := by simpa using ha
      rw [isQuote_of_isWordByte hword] at hquote
      cases hquote
    | line => exact absurd rfl hcomment
    | block => exact absurd rfl hcomment
    | @word b r hword =>
      have hnot := List.head?_dropWhile_not isWordByte r
      rw [Option.mem_def.1 hc] at hnot
      simp [hword'] at hnot
    | single hquote hline hblock hnot =>
      obtain rfl : b = a := by simpa using ha
      rw [hword] at hnot
      cases hnot
  · rintro ⟨hquote, rfl⟩
    cases h with
    | @quoted q r hquote' =>
      have hrest : (splitQuoted b r).2 ≠ [] := by
        rintro hnil
        rw [hnil] at hc
        cases hc
      rw [List.getLast?_cons, getLast?_splitQuoted_of_rest hrest] at ha
      obtain rfl : b = c := by simpa using ha
      exact head?_splitQuoted b r b hc rfl
    | line => exact absurd rfl hcomment
    | block => exact absurd rfl hcomment
    | @word b r hword =>
      have hmem : c ∈ b :: r.takeWhile isWordByte := List.mem_of_getLast? ha
      have hc' : isWordByte c = true := by
        rcases List.mem_cons.1 hmem with rfl | hmem
        · exact hword
        · exact List.all_eq_true.1 List.all_takeWhile c hmem
      rw [isQuote_of_isWordByte hc'] at hquote
      cases hquote
    | single hnot =>
      obtain rfl : b = c := by simpa using ha
      rw [hquote] at hnot
      cases hnot

/-- A run goes no further than the end of its text if something ends it before or right there. -/
theorem takeWhile_append_of_stop {p : UInt8 → Bool} {r v : List UInt8}
    (h : r.dropWhile p ≠ [] ∨ ∀ b ∈ v.head?, p b = false) :
    (r ++ v).takeWhile p = r.takeWhile p ∧ (r ++ v).dropWhile p = r.dropWhile p ++ v := by
  induction r with
  | nil =>
    rcases h with h | h
    · exact absurd rfl h
    · cases v with
      | nil => exact ⟨rfl, rfl⟩
      | cons b v => simp [h b rfl]
  | cons b r ih =>
    by_cases hb : p b = true
    · simp only [List.cons_append, List.takeWhile_cons, List.dropWhile_cons, hb, ↓reduceIte] at h ⊢
      exact ⟨by rw [(ih h).1], (ih h).2⟩
    · simp [hb]

theorem splitQuoted_append_of_rest {q : UInt8} {r v : List UInt8}
    (hrest : (splitQuoted q r).2 ≠ []) :
    splitQuoted q (r ++ v) = ((splitQuoted q r).1, (splitQuoted q r).2 ++ v) := by
  fun_induction splitQuoted q r with
  | case1 => exact absurd rfl hrest
  | case2 b => exact absurd rfl hrest
  | case3 r inside rest hsplit ih =>
    rw [hsplit] at ih
    simp [splitQuoted, ih hrest]
  | case4 c r hne => simp [splitQuoted, hne]
  | case5 b c r hne inside rest hsplit ih =>
    rw [hsplit] at ih
    rw [List.cons_append] at ih
    simp [splitQuoted, hne, ih hrest]

theorem splitQuoted_append_of_code {q : UInt8} {r v : List UInt8} {d : Nat} (hq : isQuote q = true)
    (hrest : (splitQuoted q r).2 = [])
    (hmode : ((⟨.quoted q, d⟩ : Reader).after (splitQuoted q r).1).mode = .code)
    (hv : ∀ b ∈ v.head?, b ≠ q) : splitQuoted q (r ++ v) = ((splitQuoted q r).1, v) := by
  fun_induction splitQuoted q r with
  | case1 => cases hmode
  | case2 b =>
    obtain rfl : b = q := by
      by_cases hb : b = q
      · exact hb
      · simp [Reader.after_cons, Reader.step, hb] at hmode
    cases v with
    | nil => rfl
    | cons c v => simp [splitQuoted, hv c rfl]
  | case3 r inside rest hsplit ih =>
    rw [hsplit] at ih
    simp only [Reader.after_cons, Reader.step, ↓reduceIte, hq] at hmode
    simp [splitQuoted, ih hrest hmode]
  | case4 c r hne => cases hrest
  | case5 b c r hne inside rest hsplit ih =>
    rw [hsplit] at ih
    rw [List.cons_append] at ih
    simp only [Reader.after_cons, Reader.step, hne, ↓reduceIte] at hmode
    simp [splitQuoted, hne, ih hrest hmode]

/-- A closed quoted run ends with its quote. -/
theorem getLast?_splitQuoted {q : UInt8} {r : List UInt8} {d : Nat} (hq : isQuote q = true)
    (hrest : (splitQuoted q r).2 = [])
    (hmode : ((⟨.quoted q, d⟩ : Reader).after (splitQuoted q r).1).mode = .code) :
    (splitQuoted q r).1.getLast? = some q := by
  fun_induction splitQuoted q r with
  | case1 => cases hmode
  | case2 b =>
    by_cases hb : b = q
    · rw [hb]
      rfl
    · simp [Reader.after_cons, Reader.step, hb] at hmode
  | case3 r inside rest hsplit ih =>
    rw [hsplit] at ih
    simp only [Reader.after_cons, Reader.step, ↓reduceIte, hq] at hmode
    simp [List.getLast?_cons, ih hrest hmode]
  | case4 c r hne => cases hrest
  | case5 b c r hne inside rest hsplit ih =>
    rw [hsplit] at ih
    simp only [Reader.after_cons, Reader.step, hne, ↓reduceIte] at hmode
    simp [List.getLast?_cons, ih hrest hmode]

theorem splitBlock_append_of_rest {r v : List UInt8} (hrest : (splitBlock r).2 ≠ []) :
    splitBlock (r ++ v) = ((splitBlock r).1, (splitBlock r).2 ++ v) := by
  fun_induction splitBlock r with
  | case1 => exact absurd rfl hrest
  | case2 b => exact absurd rfl hrest
  | case3 b c r hclose => simp [splitBlock, hclose]
  | case4 b c r hopen inside rest hsplit ih =>
    rw [hsplit] at ih
    rw [List.cons_append] at ih
    simp [splitBlock, hopen, ih hrest]

theorem splitBlock_append_of_code {r v : List UInt8} {d : Nat} {star : Bool}
    (hstar : star = true → r.head? ≠ some Ascii.slash) (hrest : (splitBlock r).2 = [])
    (hmode : ((⟨.block star, d⟩ : Reader).after (splitBlock r).1).mode = .code) :
    splitBlock (r ++ v) = ((splitBlock r).1, v) := by
  fun_induction splitBlock r generalizing star with
  | case1 => cases hmode
  | case2 b =>
    rw [Reader.after_cons, step_block hstar] at hmode
    cases hmode
  | case3 b c r hclose =>
    have hr : r = [] := hrest
    subst hr
    simp [splitBlock, hclose]
  | case4 b c r hopen inside rest hsplit ih =>
    rw [hsplit] at ih
    rw [List.cons_append] at ih
    rw [Reader.after_cons, step_block hstar] at hmode
    have hih := ih (head?_ne_of_not_close hopen r) hrest hmode
    simp [splitBlock, hopen, hih]

/-- A lexeme that something follows stays the first one when the text goes on. -/
theorem Begins.append_of_rest {b : UInt8} {r rest : List UInt8} {x : Lexeme} (v : List UInt8)
    (h : Begins b r x rest) (hrest : rest ≠ []) : Begins b (r ++ v) x (rest ++ v) := by
  cases h with
  | quoted hquote =>
    have hsplit := splitQuoted_append_of_rest (v := v) hrest
    have hbegins := Begins.quoted (r := r ++ v) hquote
    rwa [hsplit] at hbegins
  | @line r =>
    have hstop := takeWhile_append_of_stop (v := v) (.inl hrest)
    have hbegins := Begins.line (r := r ++ v)
    rwa [hstop.1, hstop.2] at hbegins
  | @block r =>
    have hsplit := splitBlock_append_of_rest (v := v) hrest
    have hbegins := Begins.block (r := r ++ v)
    rwa [hsplit] at hbegins
  | @word b r hword =>
    have hstop := takeWhile_append_of_stop (v := v) (.inl hrest)
    have hbegins := Begins.word (r := r ++ v) hword
    rwa [hstop.1, hstop.2] at hbegins
  | single hquote hline hblock hword =>
    obtain ⟨c, r, rfl⟩ := List.exists_cons_of_ne_nil hrest
    exact .single hquote hline hblock hword

/-- The last lexeme of a text stays a lexeme when the text goes on behind a proper cut. -/
theorem Begins.append_of_apart {b : UInt8} {r v : List UInt8} {x : Lexeme}
    (h : Begins b r x []) (hmode : ((⟨.code, 0⟩ : Reader).after x.text).mode = .code)
    (hv : Apart x.text v) : Begins b (r ++ v) x v := by
  generalize hnil : ([] : List UInt8) = rest at h
  cases h with
  | @quoted q r hquote =>
    simp only [Reader.after_cons, Reader.step, hquote, ↓reduceIte] at hmode
    have hlast := getLast?_splitQuoted hquote hnil.symm hmode
    have hv' : ∀ c ∈ v.head?, c ≠ b := by
      rintro c hc rfl
      exact (hv c (by simp [List.getLast?_cons, hlast]) c hc).2.1 ⟨hquote, rfl⟩
    have hsplit := splitQuoted_append_of_code hquote hnil.symm hmode hv'
    have hbegins := Begins.quoted (r := r ++ v) hquote
    rwa [hsplit] at hbegins
  | @line r =>
    -- a line comment is in code only behind its line break
    rw [after_opensLine, after_takeWhile_line] at hmode
    cases hmode
  | @block r =>
    rw [after_opensBlock] at hmode
    have hsplit := splitBlock_append_of_code (v := v) (by simp) hnil.symm hmode
    have hbegins := Begins.block (r := r ++ v)
    rwa [hsplit] at hbegins
  | @word b r hword =>
    have hall : ∀ a ∈ b :: r.takeWhile isWordByte, isWordByte a = true := by
      intro a ha
      rcases List.mem_cons.1 ha with rfl | ha
      · exact hword
      · exact List.all_eq_true.1 List.all_takeWhile a ha
    have hv' : ∀ c ∈ v.head?, isWordByte c = false := by
      intro c hc
      obtain ⟨a, ha⟩ : ∃ a, (b :: r.takeWhile isWordByte).getLast? = some a :=
        ⟨_, List.getLast?_eq_some_getLast (List.cons_ne_nil b _)⟩
      have hac := (hv a ha c hc).1
      rw [hall a (List.mem_of_getLast? ha)] at hac
      simpa using hac
    have hstop := takeWhile_append_of_stop (r := r) (.inr hv')
    have hbegins := Begins.word (r := r ++ v) hword
    rw [hstop.1, hstop.2, ← hnil] at hbegins
    exact hbegins
  | single hquote hline hblock hword =>
    subst hnil
    cases v with
    | nil => exact .single hquote hline hblock hword
    | cons c v =>
      obtain ⟨-, -, hline', hblock'⟩ := hv b rfl c rfl
      exact .single hquote hline' hblock' hword

end Lexeme

/-- Two texts, the first of them ending in code, have the lexemes of both if none reaches across
the cut. -/
theorem lexemes_append {u v : List UInt8} (hmode : (({} : Reader).after u).mode = .code)
    (h : Lexeme.Apart u v) : lexemes (u ++ v) = lexemes u ++ lexemes v := by
  fun_induction lexemes u with
  | case1 => rfl
  | case2 b r ih =>
    have hbegins := Lexeme.begins_first b r
    rw [List.cons_append, lexemes_cons]
    by_cases hrest : (Lexeme.first b r).2 = []
    · rw [hrest] at hbegins
      have htext : (Lexeme.first b r).1.text = b :: r := by
        rw [← hbegins.append, List.append_nil]
      have hbegins' := hbegins.append_of_apart (v := v) (by rw [htext]; exact hmode)
        (by rw [htext]; exact h)
      rw [hbegins'.first_eq, hrest, lexemes_nil]
      rfl
    · have hbegins' := hbegins.append_of_rest v hrest
      have hafter := hbegins.after (d := 0) (hbegins.isClosed hrest) List.prefix_rfl fun _ => hrest
      rw [hbegins.append] at hafter
      have hmode' : (({} : Reader).after (Lexeme.first b r).2).mode = .code := by
        have hdepth : (({} : Reader).after (Lexeme.first b r).2).mode =
            (Reader.after ⟨.code, (Lexeme.first b r).1.depthBehind 0⟩ (Lexeme.first b r).2).mode :=
          Reader.mode_after rfl
        rw [hdepth, ← hafter]
        exact hmode
      have hlast : (Lexeme.first b r).2.getLast? = (b :: r).getLast? := by
        rw [← hbegins.append, List.getLast?_append_of_ne_nil _ hrest]
      have hapart : Lexeme.Apart (Lexeme.first b r).2 v := by
        intro a ha
        exact h a (hlast ▸ ha)
      rw [hbegins'.first_eq, ih hmode' hapart]
      rfl

end Listing
