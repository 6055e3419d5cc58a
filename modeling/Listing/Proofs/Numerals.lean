import Listing.Request.Pagination
import Mathlib.Algebra.Group.Int.Defs
import Mathlib.Data.List.Induction

/-!
# Numerals of requests

A page number and a page size come as texts. `Text.Writes` tells which texts write an integer:
digits, zeros in front or not, behind a sign or not, among blanks or not. The readers of
`Listing.Text.Numeral` read these texts and no others, each as the integer that it writes
(`Text.integer?_trim`); where they are limited to 64 bits, a text beyond is read as none.

`Pagination.clamped_iff`: so the page and its size are the allowed numbers nearest to what the
texts write, as long as that has 64 bits, and the first page and the default size otherwise.
-/

namespace Listing

namespace Text

/-! ## Digits -/

/-- The digits of a natural number, the most significant one first; zeros may lead. -/
inductive Digits : List Char → Nat → Prop
  | one {d : Nat} (hd : d < 10) : Digits [d.digitChar] d
  | more {cs : List Char} {n d : Nat} (front : Digits cs n) (hd : d < 10) :
    Digits (cs ++ [d.digitChar]) (10 * n + d)

theorem exists_digitChar {c : Char} (h : c.isDigit = true) : ∃ d < 10, d.digitChar = c := by
  have hbounds : 48 ≤ c.toNat ∧ c.toNat ≤ 57 := Char.isDigit_iff_toNat.1 h
  refine ⟨c.toNat - 48, by omega, Char.toNat_inj.1 ?_⟩
  rw [Nat.toNat_digitChar_of_lt_ten (by omega)]
  omega

namespace Digits

variable {cs : List Char} {n : Nat}

theorem ne_nil (h : Digits cs n) : cs ≠ [] := by
  cases h with
  | one hd => exact List.cons_ne_nil _ _
  | more front hd => exact List.append_ne_nil_of_right_ne_nil _ (List.cons_ne_nil _ _)

theorem isDigit (h : Digits cs n) : ∀ c ∈ cs, c.isDigit = true := by
  induction h with
  | one hd =>
    intro c hc
    rw [List.mem_singleton.1 hc, Nat.isDigit_digitChar]
    exact decide_eq_true hd
  | more front hd ih =>
    intro c hc
    rcases List.mem_append.1 hc with hc | hc
    · exact ih c hc
    · rw [List.mem_singleton.1 hc, Nat.isDigit_digitChar]
      exact decide_eq_true hd

theorem ofDigitChars_eq (h : Digits cs n) : Nat.ofDigitChars 10 cs 0 = n := by
  induction h with
  | one hd => rw [Nat.ofDigitChars_cons_digitChar_of_lt_ten hd, Nat.ofDigitChars_nil]; simp
  | more front hd ih =>
    rw [Nat.ofDigitChars_append, ih, Nat.ofDigitChars_cons_digitChar_of_lt_ten hd,
      Nat.ofDigitChars_nil]

/-- Any digits are those of the number that they make up from the left. -/
theorem of_isDigit (hne : cs ≠ []) (h : ∀ c ∈ cs, c.isDigit = true) :
    Digits cs (Nat.ofDigitChars 10 cs 0) := by
  induction cs using List.reverseRecOn with
  | nil => exact absurd rfl hne
  | append_singleton cs c ih =>
    obtain ⟨d, hd, rfl⟩ := exists_digitChar (h c (List.mem_append_right cs List.mem_cons_self))
    rw [Nat.ofDigitChars_append, Nat.ofDigitChars_cons_digitChar_of_lt_ten hd,
      Nat.ofDigitChars_nil]
    by_cases hcs : cs = []
    · subst hcs
      simpa using Digits.one hd
    · exact .more (ih hcs fun c hc => h c (List.mem_append_left _ hc)) hd

end Digits

theorem natural?_eq_some_iff {cs : List Char} {n : Nat} :
    natural? cs = some n ↔ Digits cs n := by
  unfold natural?
  constructor
  · intro h
    split at h
    · cases h
    · rename_i hdigits
      simp only [Bool.or_eq_true, List.isEmpty_iff, Bool.not_eq_true', not_or,
        Bool.not_eq_false] at hdigits
      obtain rfl := Option.some.inj h
      exact .of_isDigit hdigits.1 (List.all_eq_true.1 hdigits.2)
  · intro h
    have hall : cs.all Char.isDigit = true := List.all_eq_true.2 h.isDigit
    rw [if_neg (by simp [h.ne_nil, hall]), h.ofDigitChars_eq]

/-! ## Signs and blanks -/

/-- Digits with a sign in front of them, or with none. -/
inductive Signed : List Char → Int → Prop
  | bare {cs : List Char} {n : Nat} (h : Digits cs n) : Signed cs n
  | plus {cs : List Char} {n : Nat} (h : Digits cs n) : Signed ('+' :: cs) n
  | minus {cs : List Char} {n : Nat} (h : Digits cs n) : Signed ('-' :: cs) (-n)

/-- A text writes an integer: a numeral among blanks, of any size. -/
def Writes (s : String) (n : Int) : Prop :=
  ∃ before numeral after, s.toList = before ++ (numeral ++ after) ∧ Signed numeral n ∧
    (∀ c ∈ before, isBlank c = true) ∧ ∀ c ∈ after, isBlank c = true

theorem integer?_eq_some_iff {cs : List Char} {n : Int} :
    integer? cs = some n ↔ Signed cs n := by
  constructor
  · intro h
    unfold integer? at h
    split at h
    · obtain ⟨m, hm, rfl⟩ := Option.map_eq_some_iff.1 h
      exact .plus (natural?_eq_some_iff.1 hm)
    · obtain ⟨m, hm, rfl⟩ := Option.map_eq_some_iff.1 h
      exact .minus (natural?_eq_some_iff.1 hm)
    · obtain ⟨m, hm, rfl⟩ := Option.map_eq_some_iff.1 h
      exact .bare (natural?_eq_some_iff.1 hm)
  · intro h
    cases h with
    | plus h => simp [integer?, natural?_eq_some_iff.2 h]
    | minus h => simp [integer?, natural?_eq_some_iff.2 h]
    | bare h =>
      unfold integer?
      split
      · exact absurd (h.isDigit '+' List.mem_cons_self) (by decide)
      · exact absurd (h.isDigit '-' List.mem_cons_self) (by decide)
      · simp [natural?_eq_some_iff.2 h]

namespace Signed

variable {cs : List Char} {n : Int}

theorem ne_nil (h : Signed cs n) : cs ≠ [] := by
  cases h with
  | bare h => exact h.ne_nil
  | plus h => exact List.cons_ne_nil _ _
  | minus h => exact List.cons_ne_nil _ _

theorem not_isBlank (h : Signed cs n) : ∀ c ∈ cs, isBlank c = false := by
  have hdigits {cs : List Char} {n : Nat} (h : Digits cs n) : ∀ c ∈ cs, isBlank c = false := by
    intro c hc
    obtain ⟨d, hd, rfl⟩ := exists_digitChar (h.isDigit c hc)
    have hall : ∀ d < 10, isBlank (Nat.digitChar d) = false := by decide
    exact hall d hd
  cases h with
  | bare h => exact hdigits h
  | plus h => exact List.forall_mem_cons.2 ⟨by decide, hdigits h⟩
  | minus h => exact List.forall_mem_cons.2 ⟨by decide, hdigits h⟩

end Signed

/-- Trimming removes blanks only. -/
theorem exists_blanks (s : String) :
    ∃ before after, s.toList = before ++ ((trim s).toList ++ after) ∧
      (∀ c ∈ before, isBlank c = true) ∧ ∀ c ∈ after, isBlank c = true := by
  have hfront := List.takeWhile_append_dropWhile (p := isBlank) (l := s.toList)
  have hback := List.takeWhile_append_dropWhile (p := isBlank)
    (l := (s.toList.dropWhile isBlank).reverse)
  refine ⟨s.toList.takeWhile isBlank,
    ((s.toList.dropWhile isBlank).reverse.takeWhile isBlank).reverse, ?_, ?_, ?_⟩
  · rw [trim, String.toList_ofList, ← List.reverse_append, hback, List.reverse_reverse, hfront]
  · intro c hc
    exact List.all_eq_true.1 List.all_takeWhile c hc
  · intro c hc
    exact List.all_eq_true.1 List.all_takeWhile c (List.mem_reverse.1 hc)

/-- What is left of a numeral among blanks is the numeral. -/
theorem toList_trim {s : String} {before numeral after : List Char} {n : Int}
    (hs : s.toList = before ++ (numeral ++ after)) (h : Signed numeral n)
    (hbefore : ∀ c ∈ before, isBlank c = true) (hafter : ∀ c ∈ after, isBlank c = true) :
    (trim s).toList = numeral := by
  have hstop {cs : List Char} (hne : cs ≠ []) (hcs : ∀ c ∈ cs, isBlank c = false)
      (rest : List Char) : (cs ++ rest).dropWhile isBlank = cs ++ rest := by
    obtain ⟨c, cs, rfl⟩ := List.exists_cons_of_ne_nil hne
    rw [List.cons_append, List.dropWhile_cons_of_neg]
    simp [hcs c List.mem_cons_self]
  have hreverse : ∀ c ∈ numeral.reverse, isBlank c = false := fun c hc =>
    h.not_isBlank c (List.mem_reverse.1 hc)
  have hafter : ∀ c ∈ after.reverse, isBlank c = true := fun c hc =>
    hafter c (List.mem_reverse.1 hc)
  have hback := hstop (List.reverse_ne_nil_iff.2 h.ne_nil) hreverse []
  rw [List.append_nil] at hback
  rw [trim, String.toList_ofList, hs, List.dropWhile_append_of_pos hbefore,
    hstop h.ne_nil h.not_isBlank, List.reverse_append, List.dropWhile_append_of_pos hafter, hback,
    List.reverse_reverse]

/-- A text is read as an integer if it writes it, whatever the size. -/
theorem integer?_trim {s : String} {n : Int} :
    integer? (trim s).toList = some n ↔ Writes s n := by
  rw [integer?_eq_some_iff]
  constructor
  · intro h
    obtain ⟨before, after, hs, hbefore, hafter⟩ := exists_blanks s
    exact ⟨before, _, after, hs, h, hbefore, hafter⟩
  · rintro ⟨before, numeral, after, hs, h, hbefore, hafter⟩
    rw [toList_trim hs h hbefore hafter]
    exact h

/-- A text writes one integer at most. -/
theorem Writes.unique {s : String} {m n : Int} (hm : Writes s m) (hn : Writes s n) : m = n :=
  Option.some.inj ((integer?_trim.2 hm).symm.trans (integer?_trim.2 hn))

theorem writes_toString (n : Nat) : Writes (toString n) n := by
  have hsigned : Signed (Nat.toDigits 10 n) n := by
    have h : Digits (Nat.toDigits 10 n) (Nat.ofDigitChars 10 (Nat.toDigits 10 n) 0) :=
      .of_isDigit Nat.toDigits_ne_nil fun c hc =>
        Nat.isDigit_of_mem_toDigits (by decide) (by decide) hc
    rw [Nat.ofDigitChars_ten_toDigits] at h
    exact .bare h
  refine ⟨[], Nat.toDigits 10 n, [], ?_, hsigned, ?_, ?_⟩
  · rw [Nat.toString_eq_ofList_toDigits, String.toList_ofList, List.nil_append, List.append_nil]
  · intro c hc
    cases hc
  · intro c hc
    cases hc

/-- An integer of 64 bits with a sign. -/
def FitsWord (n : Int) : Prop := -2 ^ 63 ≤ n ∧ n < 2 ^ 63

instance (n : Int) : Decidable (FitsWord n) := inferInstanceAs (Decidable (_ ∧ _))

theorem signed?_trim {s : String} {n : Int} :
    signed? (trim s) = some n ↔ Writes s n ∧ FitsWord n := by
  have hrange : (-0x8000000000000000 ≤ n ∧ n < 0x8000000000000000) ↔ FitsWord n := by
    unfold FitsWord
    omega
  rw [signed?, Option.filter_eq_some_iff, integer?_trim, decide_eq_true_eq, hrange]

end Text

/-! ## Pages and sizes -/

namespace Pagination

open Text

variable {raw : String} {n : Int}

theorem number?_eq_some_iff : number? (some raw) = some n ↔ Writes raw n ∧ FitsWord n := by
  rw [number?, Option.bind_some, signed?_trim]

/-- What has no number is the first page, and takes the default size. -/
theorem ofRequest_of_number? (config : Config) {raw : Option String} (h : number? raw = none) :
    limitOf config raw = config.defaultLimit.toNat ∧ pageOf raw = 1 := by
  rw [limitOf, pageOf, h]
  exact ⟨rfl, rfl⟩

/-- A number gives the nearest page and the nearest allowed size. -/
theorem ofRequest_of_fitsWord (config : Config) (hwrites : Writes raw n) (hfits : FitsWord n) :
    (limitOf config (some raw) : Int) = min (max n 1) config.maxLimit.toNat ∧
      (pageOf (some raw) : Int) = min (max n 1) maxPageNumber := by
  have hnumber : number? (some raw) = some n := number?_eq_some_iff.2 ⟨hwrites, hfits⟩
  have hmax : 1 ≤ maxPageNumber := by decide
  rw [limitOf, pageOf, hnumber]
  constructor
  · dsimp only
    omega
  · dsimp only
    split <;> omega

theorem number?_of_not_fitsWord (hwrites : Writes raw n) (hfits : ¬FitsWord n) :
    number? (some raw) = none := by
  refine Option.eq_none_iff_forall_not_mem.2 fun m hm => hfits ?_
  obtain ⟨hm, hmfits⟩ := number?_eq_some_iff.1 hm
  rwa [hwrites.unique hm]

theorem number?_of_not_writes (h : ∀ n, ¬Writes raw n) : number? (some raw) = none :=
  Option.eq_none_iff_forall_not_mem.2 fun n hn => h n (number?_eq_some_iff.1 hn).1

/-- **A numeral is clamped by its value within 64 bits, and is none beyond.** The size is the
allowed one nearest to the integer that a text writes, unless that has no 64 bits and the default
size is another; the page is the nearest one up to 2^63 - 1, and then the first. Both follow the
integer upward within 64 bits. A text that writes no integer gives the first page and the default
size. Neither depends on the other text of the request. -/
theorem clamped_iff (config : Config) (other : Option String) :
    (∀ raw n, Writes raw n →
      (((ofRequest config other (some raw)).limit : Int) = min (max n 1) config.maxLimit.toNat ↔
        FitsWord n ∨ (config.defaultLimit.toNat : Int) = min (max n 1) config.maxLimit.toNat) ∧
      (((ofRequest config (some raw) other).page : Int) = min (max n 1) maxPageNumber ↔
        n < 2 ^ 63) ∧
      (¬FitsWord n → (ofRequest config other (some raw)).limit = config.defaultLimit.toNat ∧
        (ofRequest config (some raw) other).page = 1)) ∧
    (∀ raw raw' n n', Writes raw n → Writes raw' n' → FitsWord n → FitsWord n' → n ≤ n' →
      (ofRequest config other (some raw)).limit ≤ (ofRequest config other (some raw')).limit ∧
        (ofRequest config (some raw) other).page ≤ (ofRequest config (some raw') other).page) ∧
    ∀ raw, (∀ n, ¬Writes raw n) →
      (ofRequest config other (some raw)).limit = config.defaultLimit.toNat ∧
        (ofRequest config (some raw) other).page = 1 := by
  simp only [ofRequest]
  refine ⟨?_, ?_, ?_⟩
  · intro raw n hwrites
    by_cases hfits : FitsWord n
    · obtain ⟨hlimit, hpage⟩ := ofRequest_of_fitsWord config hwrites hfits
      exact ⟨iff_of_true hlimit (.inl hfits), iff_of_true hpage hfits.2, absurd hfits⟩
    · obtain ⟨hlimit, hpage⟩ := ofRequest_of_number? config
        (number?_of_not_fitsWord hwrites hfits)
      refine ⟨?_, ?_, fun _ => ⟨hlimit, hpage⟩⟩
      · rw [hlimit]
        exact (or_iff_right hfits).symm
      · have hmax : maxPageNumber = 4294967295 := rfl
        rw [hpage, hmax]
        unfold FitsWord at hfits
        omega
  · intro raw raw' n n' hwrites hwrites' hfits hfits' hle
    obtain ⟨hlimit, hpage⟩ := ofRequest_of_fitsWord config hwrites hfits
    obtain ⟨hlimit', hpage'⟩ := ofRequest_of_fitsWord config hwrites' hfits'
    omega
  · intro raw h
    exact ofRequest_of_number? config (number?_of_not_writes h)

/-- The greatest number of 64 bits, with a sign, a zero in front and blanks around it. -/
theorem clamped_iff_greatest :
    Writes "\u2003+09223372036854775807\n" 9223372036854775807 ∧
      (ofRequest .default none (some "\u2003+09223372036854775807\n")).limit = 100 ∧
      (ofRequest .default (some "\u2003+09223372036854775807\n") none).page = 4294967295 := by
  have hwrites : Writes "\u2003+09223372036854775807\n" 9223372036854775807 :=
    integer?_trim.1 (by decide +kernel)
  obtain ⟨hlimit, hpage, -⟩ := (clamped_iff .default none).1 _ _ hwrites
  have hlimit := hlimit.2 (.inl (by decide))
  have hpage := hpage.2 (by decide)
  have hmax : Config.default.maxLimit.toNat = 100 := rfl
  have hmaxPage : maxPageNumber = 4294967295 := rfl
  refine ⟨hwrites, ?_, ?_⟩ <;> omega

/-- One more is no number: the size is the default and not the greatest allowed, the page the first
and not the last. -/
theorem not_clamped_beyond :
    ∃ raw n, Writes raw n ∧
      (ofRequest .default none (some raw)).limit = 25 ∧
      min (max n 1) Config.default.maxLimit.toNat = 100 ∧
      (ofRequest .default (some raw) none).page = 1 ∧
      min (max n 1) maxPageNumber = 4294967295 :=
  ⟨"9223372036854775808", 9223372036854775808, integer?_trim.1 (by decide +kernel),
    by decide +kernel, by decide +kernel, by decide +kernel, by decide +kernel⟩

end Pagination

end Listing
