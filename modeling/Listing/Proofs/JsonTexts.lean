import Listing.Proofs.Rendering
import Listing.Row
import Listing.Toml.Scalar
import Mathlib.Tactic.SplitIfs

/-!
# The JSON text of a value

A JSON text without blanks has no control characters, whatever the value is, and so no line break:
numbers are written in digits and signs, and strings escape what they hold
(`Value.oneLine_compact`).

`Json.string?` reads the text of a string: any escape that JSON has, those of a character beyond the
first 2^16 in two parts included. What `Json.quote` writes is read as what was written
(`Json.string?_quote`).
-/

namespace Listing

open Text

/-! ## Texts on one line -/

/-- Whether a text has no control characters below U+0020, such as a line break or a tab. -/
def Text.OneLine (s : String) : Prop := ∀ c ∈ s.toList, 32 ≤ c.toNat

instance (s : String) : Decidable (OneLine s) :=
  show Decidable (∀ c ∈ s.toList, 32 ≤ c.toNat) from List.decidableBAll _ _

namespace Text.OneLine

variable {s t : String}

theorem append (hs : OneLine s) (ht : OneLine t) : OneLine (s ++ t) := by
  rw [OneLine, String.toList_append, List.forall_mem_append]
  exact ⟨hs, ht⟩

theorem ofList {cs : List Char} (h : ∀ c ∈ cs, 32 ≤ c.toNat) : OneLine (String.ofList cs) := by
  rwa [OneLine, String.toList_ofList]

theorem intercalate {ss : List String} (hs : OneLine s) (hss : ∀ t ∈ ss, OneLine t) :
    OneLine (s.intercalate ss) := by
  induction ss with
  | nil =>
    rw [String.intercalate_nil]
    decide
  | cons t ss ih =>
    obtain ⟨ht, hss⟩ := List.forall_mem_cons.1 hss
    cases ss with
    | nil => rwa [String.intercalate_singleton]
    | cons u ss =>
      rw [String.intercalate_cons_cons]
      exact (ht.append hs).append (ih hss)

/-- There is no line break among its bytes. -/
theorem newline_not_mem (h : OneLine s) : Ascii.newline ∉ bytes s := by
  rw [bytes_eq_flatMap, List.mem_flatMap]
  rintro ⟨c, hc, hb⟩
  have hle : 32 ≤ c.val.toNat := h c hc
  have hnewline : Ascii.newline.toNat = 10 := rfl
  unfold String.utf8EncodeChar at hb
  generalize c.val.toNat = n at hb hle
  dsimp only at hb
  split_ifs at hb <;> simp [← UInt8.toNat_inj] at hb <;> omega

end Text.OneLine

/-! ## Numbers -/

theorem le_toNat_of_isDigit {c : Char} (h : c.isDigit = true) : 32 ≤ c.toNat :=
  Nat.le_trans (by decide) (Char.isDigit_iff_toNat.1 h).1

theorem le_toNat_of_mem_toDigits {n : Nat} {c : Char} (hc : c ∈ Nat.toDigits 10 n) : 32 ≤ c.toNat :=
  le_toNat_of_isDigit (Nat.isDigit_of_mem_toDigits (by decide) (by decide) hc)

theorem Text.OneLine.nat (n : Nat) : OneLine (toString n) := by
  rw [Nat.toString_eq_ofList_toDigits]
  exact .ofList fun c => le_toNat_of_mem_toDigits

theorem Text.OneLine.int (n : Int) : OneLine (toString n) := by
  cases n with
  | ofNat n => exact .nat n
  | negSucc n => exact .append (by decide) (.nat (n + 1))

namespace Decimal

theorem mem_of_mem_stripZeros {ds : List Char} {c : Char} (h : c ∈ stripZeros ds) : c ∈ ds := by
  cases ds with
  | nil => exact h
  | cons d ds =>
    rcases List.mem_cons.1 h with rfl | h
    · exact List.mem_cons_self
    · have hmem := (List.dropWhile_sublist _).mem (List.mem_reverse.1 h)
      exact List.mem_cons_of_mem d (List.mem_reverse.1 hmem)

theorem le_toNat_of_mem_positional {pointZero : Bool} {digits : List Char} {point : Int}
    (hdigits : ∀ c ∈ digits, 32 ≤ c.toNat) : ∀ c ∈ positional pointZero digits point,
      32 ≤ c.toNat := by
  have hzeros (n : Nat) : ∀ c ∈ List.replicate n '0', 32 ≤ c.toNat := by
    intro c hc
    rw [List.eq_of_mem_replicate hc]
    decide
  unfold positional
  dsimp only
  split
  · simp only [List.cons_append, List.forall_mem_cons, List.forall_mem_append]
    exact ⟨by decide, by decide, hzeros _, hdigits⟩
  split
  · simp only [List.forall_mem_cons, List.forall_mem_append]
    exact ⟨fun c hc => hdigits c (List.mem_of_mem_take hc), by decide,
      fun c hc => hdigits c (List.mem_of_mem_drop hc)⟩
  · simp only [List.forall_mem_append]
    exact ⟨⟨hdigits, hzeros _⟩, by cases pointZero <;> simp⟩

theorem le_toNat_of_mem_withExponent {digits : List Char} {exponent : Int}
    (hdigits : ∀ c ∈ digits, 32 ≤ c.toNat) : ∀ c ∈ withExponent digits exponent, 32 ≤ c.toNat := by
  have hfraction : ∀ c ∈ digits.drop 1, 32 ≤ c.toNat :=
    fun c hc => hdigits c (List.mem_of_mem_drop hc)
  unfold withExponent
  simp only [List.forall_mem_cons, List.forall_mem_append]
  refine ⟨⟨fun c hc => hdigits c (List.mem_of_mem_take hc), ?_⟩, by decide, ?_,
    fun c => le_toNat_of_mem_toDigits⟩
  · split
    · simp
    · exact List.forall_mem_cons.2 ⟨by decide, hfraction⟩
  · split <;> simp

theorem oneLine_text (style : Style) (x : Binary64) : OneLine (text style x) := by
  have hdigits : ∀ c ∈ stripZeros (Nat.toDigits 10 (shortest style.tie x).digits), 32 ≤ c.toNat :=
    fun c hc => le_toNat_of_mem_toDigits (mem_of_mem_stripZeros hc)
  refine .ofList (List.forall_mem_append.2 ⟨by split <;> simp, ?_⟩)
  unfold write
  dsimp only
  split
  · exact le_toNat_of_mem_positional hdigits
  · exact le_toNat_of_mem_withExponent hdigits

end Decimal

/-! ## Values -/

namespace Json

/-- A control character is escaped, in characters that are none. -/
theorem le_toNat_of_mem_escape {c d : Char} (h : d ∈ escape c) : 32 ≤ d.toNat := by
  have hhex : ∀ n < 16, 32 ≤ (Nat.digitChar n).toNat := by
    decide
  revert d
  unfold escape
  -- seven characters have a short escape
  iterate 7
    split
    · simp
  split
  · simp only [List.forall_mem_cons]
    have hhigh := hhex (c.toNat / 16) (by omega)
    have hlow := hhex (c.toNat % 16) (by omega)
    exact ⟨by decide, by decide, by decide, by decide, hhigh, hlow, by simp⟩
  · intro d hd
    rw [List.mem_singleton.1 hd]
    omega

theorem oneLine_quote (s : String) : OneLine (quote s) := by
  refine .ofList ?_
  simp only [List.cons_append, List.forall_mem_cons, List.forall_mem_append, List.mem_flatMap]
  refine ⟨by decide, ?_, by simp⟩
  rintro d ⟨c, -, hd⟩
  exact le_toNat_of_mem_escape hd

end Json

mutual

/-- A JSON text without blanks is on one line. -/
theorem Value.oneLine_compact : (v : Value) → OneLine v.toJson.compact
  | .null => by
    decide
  | .bool b => by
    cases b <;> decide
  | .int n => .int n
  | .float x => by
    rw [toJson]
    split
    · exact Decimal.oneLine_text _ x
    · decide
  | .text s => Json.oneLine_quote s
  | .array items => by
    have hitems := Value.oneLine_compactItems items
    exact .append (.append (by decide) (.intercalate (by decide) hitems)) (by decide)

theorem Value.oneLine_compactItems :
    (vs : List Value) → ∀ t ∈ Json.compactItems (Value.listToJson vs), OneLine t
  | [] => by
    simp [listToJson, Json.compactItems]
  | v :: vs => by
    rw [listToJson, Json.compactItems, List.forall_mem_cons]
    exact ⟨v.oneLine_compact, Value.oneLine_compactItems vs⟩

end

/-! ## Strings read back -/

namespace Json

/-- The character that a letter behind a backslash stands for. -/
def escaped? (c : Char) : Option Char :=
  match c with
  | '"' => some '"'
  | '\\' => some '\\'
  | '/' => some '/'
  | 'b' => some '\x08'
  | 'f' => some '\x0c'
  | 'n' => some '\n'
  | 'r' => some '\r'
  | 't' => some '\t'
  | _ => none

/-- The number that four hexadecimal digits write, and what follows them. -/
def unit? : List Char → Option (Nat × List Char)
  | a :: b :: c :: d :: rest => (Toml.Scalar.number? 16 [a, b, c, d]).map (·, rest)
  | _ => none

/-- The character beyond the first 2^16 that two numbers stand for. -/
def ofPair? (high low : Nat) : Option Char :=
  if high < 0xdc00 ∧ 0xdc00 ≤ low ∧ low < 0xe000 then
    some (Char.ofNat (0x10000 + (high - 0xd800) * 0x400 + (low - 0xdc00)))
  else none

/-- Reads what follows `\u`, up to the second number of a pair, which needs its own `\u`. -/
def numbered? (cs : List Char) : Option (Char × List Char) :=
  match unit? cs with
  | none => none
  | some (unit, rest) =>
    if unit.isValidChar then some (Char.ofNat unit, rest)
    else
      match rest with
      | '\\' :: 'u' :: rest =>
        match unit? rest with
        | none => none
        | some (low, rest) => (ofPair? unit low).map (·, rest)
      | _ => none

/-- Reads one character of a string. -/
def character? : List Char → Option (Char × List Char)
  | [] => none
  | '\\' :: 'u' :: rest => numbered? rest
  | '\\' :: e :: rest => (escaped? e).map (·, rest)
  | c :: rest => if c = '"' ∨ c = '\\' ∨ c.toNat < 32 then none else some (c, rest)

theorem length_of_unit? {cs rest : List Char} {n : Nat} (h : unit? cs = some (n, rest)) :
    rest.length < cs.length := by
  unfold unit? at h
  split at h
  · obtain ⟨_, -, heq⟩ := Option.map_eq_some_iff.1 h
    cases heq
    simp only [List.length_cons]
    omega
  · cases h

theorem length_of_numbered? {cs rest : List Char} {c : Char} (h : numbered? cs = some (c, rest)) :
    rest.length < cs.length := by
  unfold numbered? at h
  split at h
  · cases h
  rename_i hunit
  have hlt := length_of_unit? hunit
  split at h
  · cases h
    exact hlt
  split at h
  · split at h
    · cases h
    rename_i hlow
    have hlt' := length_of_unit? hlow
    obtain ⟨_, -, heq⟩ := Option.map_eq_some_iff.1 h
    cases heq
    simp only [List.length_cons] at hlt
    omega
  · cases h

theorem length_of_character? {cs rest : List Char} {c : Char}
    (h : character? cs = some (c, rest)) : rest.length < cs.length := by
  unfold character? at h
  split at h
  · cases h
  · have hlt := length_of_numbered? h
    simp only [List.length_cons]
    omega
  · obtain ⟨_, -, heq⟩ := Option.map_eq_some_iff.1 h
    cases heq
    simp only [List.length_cons]
    omega
  · split at h
    · cases h
    · cases h
      exact Nat.lt_succ_self _

/-- Reads the characters of a string up to the quote at the end of the text. -/
def characters? (cs : List Char) : Option (List Char) :=
  if cs = ['"'] then some []
  else
    match hread : character? cs with
    | none => none
    | some (c, rest) =>
      have := length_of_character? hread
      (characters? rest).map (c :: ·)
termination_by cs.length

/-- The string that a JSON text is, if it is one. -/
def string? (s : String) : Option String :=
  match s.toList with
  | '"' :: cs => (characters? cs).map String.ofList
  | _ => none

/-- An escaped character is read as the character, whatever follows. -/
theorem character?_escape (c : Char) (rest : List Char) :
    character? (escape c ++ rest) = some (c, rest) := by
  have hnumber : ∀ n < 32, Toml.Scalar.number? 16
      ['0', '0', Nat.digitChar (n / 16), Nat.digitChar (n % 16)] = some n := by
    decide +kernel
  unfold escape
  -- the short escapes one by one, then the numbers of the other control characters
  iterate 7
    split
    · rename_i hc
      subst hc
      rfl
  split
  · rename_i hcontrol
    have hvalid : c.toNat.isValidChar := .inl (Nat.lt_trans hcontrol (by decide))
    simp only [List.cons_append, List.nil_append, character?, numbered?, unit?, hnumber _ hcontrol,
      Option.map_some, hvalid, ↓reduceIte, Char.ofNat_toNat]
  · rename_i hquote hbackslash _ _ _ _ _ hvisible
    simp [character?, hquote, hbackslash, hvisible]

theorem characters?_of_character? {cs rest : List Char} {c : Char}
    (h : character? cs = some (c, rest)) : characters? cs = (characters? rest).map (c :: ·) := by
  have hmore : cs ≠ ['"'] := by
    rintro rfl
    cases h
  rw [characters?, if_neg hmore]
  split
  · rename_i hnone
    rw [h] at hnone
    cases hnone
  · rename_i hread
    rw [h] at hread
    cases hread
    rfl

theorem characters?_escape (cs : List Char) :
    characters? (cs.flatMap escape ++ ['"']) = some cs := by
  induction cs with
  | nil =>
    rw [characters?]
    rfl
  | cons c cs ih =>
    rw [List.flatMap_cons, List.append_assoc, characters?_of_character? (character?_escape c _), ih]
    rfl

/-- What a string is written as is read as the string. -/
theorem string?_quote (s : String) : string? (quote s) = some s := by
  have hchars := characters?_escape s.toList
  rw [string?, quote, String.toList_ofList, List.cons_append]
  simp only [hchars, Option.map_some, String.ofList_toList]

/-- A reader knows more than the writer uses, and no line break. -/
example : string? "\"\\ud83d\\ude00\\/\\u000A\"" = some "😀/\n" ∧
    string? "\"a\nb\"" = none ∧ string? "\"\\ud83d\"" = none := by
  decide +kernel

end Json

end Listing
