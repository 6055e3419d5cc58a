import Listing.Proofs.Words
import Listing.Text.Numeral
import Mathlib

/-!
# Code tokens

What a database reads of a statement: its words, signs, quoted texts and parentheses without blanks
and comments, and its placeholders with their numbers. PostgreSQL writes the placeholder of a number
as one word, SQLite as a sign and a word behind it; so two texts have their tokens one after the
other only if no placeholder reaches across the cut (`codeTokens_append`), which a separator on
either side of it makes sure of (`codeTokens_join`, `codeTokens_intercalate`).
-/

namespace Listing

open Text

inductive CodeToken where
  | word (text : List UInt8)
  | placeholder (n : Nat)
  | quoted (text : List UInt8)
  | sign (text : List UInt8)
  | opening
  | closing
  | semicolon
deriving DecidableEq, Repr

/-- The number of a placeholder. -/
def CodeToken.number? : CodeToken → Option Nat
  | placeholder n => some n
  | _ => none

/-- The number that a text of digits writes. -/
def numeral? (u : List UInt8) : Option Nat := (ofBytes? u).bind fun s => natural? s.toList

theorem numeral?_toString (n : Nat) : numeral? (bytes (toString n)) = some n := by
  have hdigits : (toString n).toList = Nat.toDigits 10 n := by
    rw [Nat.toString_eq_repr, Nat.repr, String.toList_ofList]
  have hall : (Nat.toDigits 10 n).all Char.isDigit = true :=
    List.all_eq_true.2 fun c hc => Nat.isDigit_of_mem_toDigits (by decide) (by decide) hc
  have hempty : (Nat.toDigits 10 n).isEmpty = false :=
    List.isEmpty_eq_false_iff.2 Nat.toDigits_ne_nil
  rw [numeral?, ofBytes?_bytes, Option.bind_some, hdigits, natural?, hempty, hall,
    if_neg (by decide), Nat.ofDigitChars_toDigits (by decide) (by decide)]

namespace Dialect

/-- The number of a placeholder that is one word. -/
def wordNumber? (d : Dialect) (text : List UInt8) : Option Nat :=
  match d, text with
  | postgres, b :: r => if b = Ascii.dollar then numeral? r else none
  | _, _ => none

/-- The number of a placeholder that is a sign and a word behind it. -/
def pairNumber? (d : Dialect) (x y : Lexeme) : Option Nat :=
  match d with
  | postgres => none
  | sqlite =>
    if x.kind = .symbol ∧ x.text = bytes "?" ∧ y.kind = .word then numeral? y.text else none

def codeToken? (d : Dialect) (x : Lexeme) : Option CodeToken :=
  match x.kind with
  | .word => some ((d.wordNumber? x.text).elim (.word x.text) .placeholder)
  | .quoted => some (.quoted x.text)
  | .opening => some .opening
  | .closing => some .closing
  | .semicolon => some .semicolon
  | .symbol => some (.sign x.text)
  | .blank | .comment => none

/-- The code tokens among lexemes. -/
def codeAmong (d : Dialect) : List Lexeme → List CodeToken
  | [] => []
  | [x] => (d.codeToken? x).toList
  | x :: y :: xs =>
    match d.pairNumber? x y with
    | some n => .placeholder n :: codeAmong d xs
    | none => (d.codeToken? x).toList ++ codeAmong d (y :: xs)

theorem codeAmong_append {d : Dialect} {xs ys : List Lexeme}
    (h : ∀ x ∈ xs.getLast?, ∀ y ∈ ys.head?, d.pairNumber? x y = none) :
    d.codeAmong (xs ++ ys) = d.codeAmong xs ++ d.codeAmong ys := by
  fun_induction codeAmong d xs with
  | case1 => rfl
  | case2 x =>
    cases ys with
    | nil => simp [codeAmong]
    | cons y ys => rw [List.singleton_append, codeAmong, h x rfl y rfl]
  | case3 x y xs n hpair ih =>
    have hrest := ih fun z hz => h z (by
      cases xs with
      | nil => cases hz
      | cons a xs => rwa [List.getLast?_cons_cons, List.getLast?_cons_cons])
    rw [List.cons_append, List.cons_append, codeAmong, hpair, hrest]
    rfl
  | case4 x y xs hpair ih =>
    have hrest := ih fun z hz => h z (by rwa [List.getLast?_cons_cons])
    rw [List.cons_append, List.cons_append, codeAmong, hpair, List.append_assoc, ← hrest]
    rfl

/-- A lexeme by itself cannot be half of a placeholder behind something else than the sign. -/
theorem codeAmong_cons {d : Dialect} {x : Lexeme} {xs : List Lexeme}
    (h : x.text ≠ bytes "?") :
    d.codeAmong (x :: xs) = (d.codeToken? x).toList ++ d.codeAmong xs := by
  cases xs with
  | nil => simp [codeAmong]
  | cons y xs =>
    have hpair : d.pairNumber? x y = none := by
      cases d with
      | postgres => rfl
      | sqlite => exact if_neg fun hboth => h hboth.2.1
    rw [codeAmong, hpair]

end Dialect

/-- The code tokens of a text. -/
def codeTokens (d : Dialect) (u : List UInt8) : List CodeToken := d.codeAmong (lexemes u)

/-- The numbers of the placeholders in a text, in order. -/
def placeholders (d : Dialect) (u : List UInt8) : List Nat :=
  (codeTokens d u).filterMap CodeToken.number?

example : placeholders .sqlite (bytes "a = ?1 /* ?2 */ AND b LIKE '?3' OR c > ?12") = [1, 12] := by
  decide +kernel

variable {d : Dialect} {u v s : List UInt8}

@[simp] theorem codeTokens_nil (d : Dialect) : codeTokens d [] = [] := by
  rw [codeTokens, lexemes_nil]
  rfl

/-! ## Tokens of two texts -/

/-- A cut between two texts that no lexeme and no placeholder reaches across. -/
structure Border (u v : List UInt8) : Prop where
  apart : Lexeme.Apart u v
  mark : ∀ a ∈ u.getLast?, a ∈ bytes "?" → ∀ b ∈ v.head?, Lexeme.isWordByte b = false

theorem Border.of_last (h : ∀ a ∈ u.getLast?, isSeparator a = true) : Border u v := by
  refine ⟨(Seam.of_last h).apart, fun a ha hmark => ?_⟩
  obtain rfl : a = 63 := List.mem_singleton.1 hmark
  exact absurd (h 63 ha) (by decide)

theorem Border.of_head (h : ∀ b ∈ v.head?, isSeparator b = true) : Border u v := by
  refine ⟨(Seam.of_head h).apart, fun _ _ _ b hb => ?_⟩
  rcases eq_of_isSeparator (h b hb) with rfl | rfl | rfl | rfl <;> rfl

theorem getLast?_of_lexemes {x : Lexeme} (h : x ∈ (lexemes u).getLast?) :
    u.getLast? = x.text.getLast? := by
  obtain ⟨xs, hxs⟩ := List.getLast?_eq_some_iff.1 h
  have hmem : x ∈ lexemes u := by simp [hxs]
  have hne : x.text ≠ [] := text_ne_nil_of_mem_lexemes hmem
  have hflat := lexemes_flatten u
  rw [hxs, List.flatMap_append, List.flatMap_singleton] at hflat
  rw [← hflat, List.getLast?_append_of_ne_nil _ hne]

theorem head?_of_lexemes {x : Lexeme} (h : x ∈ (lexemes v).head?) (hkind : x.kind = .word) :
    ∃ b ∈ v.head?, Lexeme.isWordByte b = true := by
  cases v with
  | nil =>
    rw [lexemes_nil] at h
    cases h
  | cons b r =>
    rw [lexemes_cons] at h
    obtain rfl := Option.some.inj h
    exact ⟨b, rfl, (Lexeme.begins_first b r).starts_word hkind⟩

theorem codeTokens_append (hmode : (({} : Reader).after u).mode = .code) (h : Border u v) :
    codeTokens d (u ++ v) = codeTokens d u ++ codeTokens d v := by
  rw [codeTokens, lexemes_append hmode h.apart]
  refine Dialect.codeAmong_append fun x hx y hy => ?_
  cases d with
  | postgres => rfl
  | sqlite =>
    refine if_neg fun ⟨_, htext, hkind⟩ => ?_
    have hlast : (63 : UInt8) ∈ u.getLast? := by
      rw [getLast?_of_lexemes hx, htext]
      rfl
    obtain ⟨b, hb, hword⟩ := head?_of_lexemes hy hkind
    rw [h.mark 63 hlast (List.mem_singleton.2 rfl) b hb] at hword
    cases hword

/-- A text that is read in code to its end. -/
def EndsInCode (u : List UInt8) : Prop := (({} : Reader).after u).mode = .code

instance (u : List UInt8) : Decidable (EndsInCode u) :=
  inferInstanceAs (Decidable ((({} : Reader).after u).mode = .code))

theorem EndsInCode.of_plain (h : IsPlain u) : EndsInCode u := by
  rw [EndsInCode, Reader.after_of_isPlain h]

theorem EndsInCode.of_neutral (h : Reader.Neutral u) : EndsInCode u := by
  rw [EndsInCode, h.closed]

/-- A text that starts and ends with a separator and ends in code. -/
structure Spacer (s : List UInt8) : Prop where
  closed : EndsInCode s
  head : ∃ b ∈ s.head?, isSeparator b = true
  last : ∃ b ∈ s.getLast?, isSeparator b = true

instance (s : List UInt8) : Decidable (Spacer s) :=
  decidable_of_iff
    (EndsInCode s ∧ s.head?.any isSeparator = true ∧ s.getLast?.any isSeparator = true)
    ⟨fun h => ⟨h.1, (Option.any_eq_true _ _).1 h.2.1, (Option.any_eq_true _ _).1 h.2.2⟩,
      fun h => ⟨h.closed, (Option.any_eq_true _ _).2 h.head, (Option.any_eq_true _ _).2 h.last⟩⟩

theorem Spacer.border_left (h : Spacer s) : Border u (s ++ v) := by
  obtain ⟨b, hb, hsep⟩ := h.head
  refine .of_head fun c hc => ?_
  rw [List.head?_append, Option.mem_def.1 hb, Option.some_or, Option.mem_some] at hc
  rwa [← hc]

theorem Spacer.border_right (h : Spacer s) : Border s v := by
  obtain ⟨b, hb, hsep⟩ := h.last
  refine .of_last fun c hc => ?_
  rwa [← Option.some.inj (hb.symm.trans hc)]

theorem codeTokens_spacer (hs : Spacer s) :
    codeTokens d (s ++ v) = codeTokens d s ++ codeTokens d v :=
  codeTokens_append hs.closed hs.border_right

/-- The tokens of two texts with a spacer between them. -/
theorem codeTokens_join (hu : EndsInCode u) (hs : Spacer s) :
    codeTokens d (u ++ (s ++ v)) = codeTokens d u ++ (codeTokens d s ++ codeTokens d v) := by
  rw [codeTokens_append hu hs.border_left, codeTokens_spacer hs]

/-- The tokens of texts with a separator between them. -/
theorem codeTokens_intercalate {separator : String} {ss : List String}
    (hs : Spacer (bytes separator)) (hss : ∀ t ∈ ss, EndsInCode (bytes t)) :
    codeTokens d (bytes (separator.intercalate ss)) =
      (codeTokens d (bytes separator)).intercalate (ss.map fun t => codeTokens d (bytes t)) := by
  induction ss with
  | nil =>
    rw [String.intercalate_nil, List.map_nil, List.intercalate_nil]
    exact codeTokens_nil d
  | cons t ss ih =>
    have ht := hss t List.mem_cons_self
    have hrest := ih fun a ha => hss a (List.mem_cons_of_mem t ha)
    cases ss with
    | nil => rw [String.intercalate_singleton, List.map_singleton, List.intercalate_singleton]
    | cons t' ss =>
      rw [String.intercalate_cons_cons, bytes_append, bytes_append, List.append_assoc,
        codeTokens_join ht hs, hrest, List.map_cons, List.map_cons, List.map_cons,
        List.intercalate_cons_cons, List.append_assoc]

theorem codeTokens_parens (h : EndsInCode u) :
    codeTokens d (Ascii.openParen :: u ++ [Ascii.closeParen]) =
      .opening :: codeTokens d u ++ [.closing] := by
  have hopen : codeTokens d [Ascii.openParen] = [.opening] := by
    cases d <;> cbv
  have hclose : codeTokens d [Ascii.closeParen] = [.closing] := by
    cases d <;> cbv
  have hspacer : Spacer [Ascii.openParen] := by decide
  rw [List.cons_append, ← List.singleton_append, codeTokens_spacer hspacer,
    codeTokens_append h (.of_head (by decide)), hopen, hclose]
  rfl

/-! ## Words and placeholders -/

/-- A word is one token, unless it is a placeholder. -/
theorem codeTokens_of_isWord (h : IsWord u) (hdollar : u.head? ≠ some Ascii.dollar) :
    codeTokens d u = [.word u] := by
  obtain ⟨b, r, rfl⟩ := List.exists_cons_of_ne_nil h.ne_nil
  have hnumber : d.wordNumber? (b :: r) = none := by
    cases d with
    | postgres => exact if_neg fun hb => hdollar (congrArg some hb)
    | sqlite => rfl
  rw [codeTokens, lexemes_of_isWord h]
  simp [Dialect.codeAmong, Dialect.codeToken?, hnumber]

theorem codeTokens_placeholder (n : Nat) :
    codeTokens d (bytes (d.placeholder n)) = [.placeholder n] := by
  have hnumeral := isWord_numeral n
  cases d with
  | postgres =>
    have hbytes : bytes (Dialect.postgres.placeholder n) = Ascii.dollar :: bytes (toString n) := by
      rw [Dialect.placeholder, bytes_append]
      rfl
    have hword : IsWord (Ascii.dollar :: bytes (toString n)) := by
      refine ⟨List.cons_ne_nil _ _, fun b hb => ?_⟩
      rcases List.mem_cons.1 hb with rfl | hb
      · rfl
      · exact hnumeral.all b hb
    rw [hbytes, codeTokens, lexemes_of_isWord hword]
    simp only [Dialect.codeAmong, Dialect.codeToken?, Dialect.wordNumber?, ↓reduceIte,
      numeral?_toString]
    rfl
  | sqlite =>
    have hbytes : bytes (Dialect.sqlite.placeholder n) = bytes "?" ++ bytes (toString n) :=
      bytes_append "?" (toString n)
    have hmark : lexemes (bytes "?") = [⟨.symbol, bytes "?"⟩] := by
      cbv
    have hapart : Lexeme.Apart (bytes "?") (bytes (toString n)) := by
      intro a ha b _
      obtain rfl : (63 : UInt8) = a := Option.some.inj ha
      exact ⟨fun hboth => absurd hboth.1 (by decide), fun hboth => absurd hboth.1 (by decide),
        rfl, rfl⟩
    rw [hbytes, codeTokens, lexemes_append rfl hapart, hmark, lexemes_of_isWord hnumeral]
    simp only [List.singleton_append, Dialect.codeAmong, Dialect.pairNumber?, and_self, ↓reduceIte,
      numeral?_toString]

theorem EndsInCode.placeholder (d : Dialect) (n : Nat) : EndsInCode (bytes (d.placeholder n)) :=
  .of_plain (d.plain_placeholder n)

end Listing
