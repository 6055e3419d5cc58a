import Listing.Clause.Condition
import Mathlib.Data.List.Forall2

/-!
# What patterns match

The pattern operators of SQL as relations between a pattern and a text, and what the patterns bound
to pattern conditions mean under them (`Condition.render_pattern_matches`): the operator that a
condition writes matches the pattern it binds exactly with the texts that have the needle where the
comparison asks for it, and no such pattern is malformed.

A pattern is read into elements first. `LIKE` and `ILIKE` name the character that escapes the next
one; behind a last escape character nothing is left to escape, and the pattern is no pattern
(`Pattern.likeElements?`). `GLOB` knows classes of characters in brackets, and a class has to be
closed (`Pattern.globElements?`). An operator that disregards case compares characters by a relation
of the database's choice, on which nothing here depends.
-/

namespace Listing

open List (Forall₂)

namespace Pattern

/-- A set of characters given by ranges, or what is outside of them. -/
structure CharClass where
  negated : Bool
  ranges : List (Char × Char)
deriving DecidableEq, Repr

def CharClass.has (k : CharClass) (c : Char) : Bool :=
  (k.ranges.any fun range => decide (range.1 ≤ c ∧ c ≤ range.2)) != k.negated

inductive Element where
  /-- Any run of characters. -/
  | run
  /-- Any one character. -/
  | one
  | literal (c : Char)
  | oneOf (k : CharClass)
deriving DecidableEq, Repr

/-! ## Reading patterns -/

/-- What a character of `LIKE` means where it is not escaped. -/
def likeElement (c : Char) : Element :=
  if c = '%' then .run else if c = '_' then .one else .literal c

/-- The elements of a `LIKE` pattern, unless it ends with an escape character that escapes
nothing. -/
def likeElements? (escape : Char) : List Char → Option (List Element)
  | [] => some []
  | [c] => if c = escape then none else some [likeElement c]
  | c :: c' :: cs =>
    if c = escape then (likeElements? escape cs).map (.literal c' :: ·)
    else (likeElements? escape (c' :: cs)).map (likeElement c :: ·)

/-- The ranges of a class up to its closing bracket, and what follows. A hyphen makes a range with
the character in front of it, unless that ended a range itself, and the one behind it. -/
def classRanges? (former : Option Char) : List Char → Option (List (Char × Char) × List Char)
  | [] => none
  | '-' :: c :: cs =>
    match former, c with
    | some _, ']' => some ([('-', '-')], cs)
    | some a, c => (classRanges? none cs).map fun (ranges, rest) => ((a, c) :: ranges, rest)
    | none, c => (classRanges? (some '-') (c :: cs)).map fun (ranges, rest) =>
      (('-', '-') :: ranges, rest)
  | c :: cs =>
    if c = ']' then some ([], cs)
    else (classRanges? (some c) cs).map fun (ranges, rest) => ((c, c) :: ranges, rest)

/-- A closing bracket that comes first belongs to the class. -/
def classMembers? : List Char → Option (List (Char × Char) × List Char)
  | ']' :: cs => (classRanges? none cs).map fun (ranges, rest) => ((']', ']') :: ranges, rest)
  | cs => classRanges? none cs

/-- The class behind an opening bracket, and what follows it. -/
def charClass? : List Char → Option (CharClass × List Char)
  | '^' :: cs => (classMembers? cs).map fun (ranges, rest) => (⟨true, ranges⟩, rest)
  | cs => (classMembers? cs).map fun (ranges, rest) => (⟨false, ranges⟩, rest)

theorem length_classRanges? {former : Option Char} {cs rest : List Char}
    {ranges : List (Char × Char)} (h : classRanges? former cs = some (ranges, rest)) :
    rest.length < cs.length := by
  fun_induction classRanges? former cs generalizing ranges with
  | case1 => cases h
  | case2 cs a =>
    cases h
    simp only [List.length_cons]
    omega
  | case3 c cs a hc ih =>
    obtain ⟨⟨ranges', rest'⟩, hrest, heq⟩ := Option.map_eq_some_iff.1 h
    cases heq
    have := ih hrest
    simp only [List.length_cons]
    omega
  | case4 c cs ih =>
    obtain ⟨⟨ranges', rest'⟩, hrest, heq⟩ := Option.map_eq_some_iff.1 h
    cases heq
    have := ih hrest
    simp only [List.length_cons] at this ⊢
    omega
  | case5 cs =>
    cases h
    simp
  | case6 former c cs hc hne ih =>
    obtain ⟨⟨ranges', rest'⟩, hrest, heq⟩ := Option.map_eq_some_iff.1 h
    cases heq
    have := ih hrest
    simp only [List.length_cons]
    omega

theorem length_classMembers? {cs rest : List Char} {ranges : List (Char × Char)}
    (h : classMembers? cs = some (ranges, rest)) : rest.length < cs.length := by
  unfold classMembers? at h
  split at h
  · obtain ⟨⟨ranges', rest'⟩, hrest, heq⟩ := Option.map_eq_some_iff.1 h
    cases heq
    have := length_classRanges? hrest
    simp only [List.length_cons]
    omega
  · exact length_classRanges? h

theorem length_charClass? {cs rest : List Char} {k : CharClass}
    (h : charClass? cs = some (k, rest)) : rest.length < cs.length := by
  unfold charClass? at h
  split at h
  · obtain ⟨⟨ranges', rest'⟩, hrest, heq⟩ := Option.map_eq_some_iff.1 h
    cases heq
    have := length_classMembers? hrest
    simp only [List.length_cons]
    omega
  · obtain ⟨⟨ranges', rest'⟩, hrest, heq⟩ := Option.map_eq_some_iff.1 h
    cases heq
    exact length_classMembers? hrest

/-- What a character of `GLOB` means outside of classes. -/
def globElement (c : Char) : Element :=
  if c = '*' then .run else if c = '?' then .one else .literal c

/-- The elements of a `GLOB` pattern, unless it has a class that is not closed. -/
def globElements? (cs : List Char) : Option (List Element) :=
  match cs with
  | [] => some []
  | c :: cs =>
    if c = '[' then
      match _ : charClass? cs with
      | none => none
      | some (k, rest) => (globElements? rest).map (.oneOf k :: ·)
    else (globElements? cs).map (globElement c :: ·)
termination_by cs.length
decreasing_by
  · have := length_charClass? ‹charClass? cs = some (k, rest)›
    simp only [List.length_cons]
    omega
  · simp

theorem likeElements?_cons {escape c : Char} (h : c ≠ escape) (cs : List Char) :
    likeElements? escape (c :: cs) = (likeElements? escape cs).map (likeElement c :: ·) := by
  cases cs with
  | nil => simp [likeElements?, h]
  | cons c' cs => rw [likeElements?, if_neg h]

theorem likeElements?_escaped (escape c : Char) (cs : List Char) :
    likeElements? escape (escape :: c :: cs) =
      (likeElements? escape cs).map (.literal c :: ·) := by
  rw [likeElements?, if_pos rfl]

theorem globElements?_cons {c : Char} (h : c ≠ '[') (cs : List Char) :
    globElements? (c :: cs) = (globElements? cs).map (globElement c :: ·) := by
  rw [globElements?, if_neg h]

theorem globElements?_class {cs rest : List Char} {k : CharClass}
    (h : charClass? cs = some (k, rest)) :
    globElements? ('[' :: cs) = (globElements? rest).map (.oneOf k :: ·) := by
  rw [globElements?, if_pos rfl]
  split
  · rename_i hnone
    rw [h] at hnone
    cases hnone
  · rename_i hsome
    rw [h] at hsome
    cases hsome
    rfl

/-! ## Matching -/

/-- Whether an element that stands for one character accepts a character. -/
def Element.Accepts (same : Char → Char → Prop) : Element → Char → Prop
  | run, _ => False
  | one, _ => True
  | literal a, c => same a c
  | oneOf k, c => k.has c = true

/-- Whether a text matches the elements of a pattern, with characters compared by a relation. -/
def Matches (same : Char → Char → Prop) : List Element → List Char → Prop
  | [], text => text = []
  | .run :: es, text => ∃ rest, rest <:+ text ∧ Matches same es rest
  | e :: es, text => ∃ c rest, text = c :: rest ∧ e.Accepts same c ∧ Matches same es rest

/-- An element that stands for a character and what is the same as it. -/
structure Means (same : Char → Char → Prop) (e : Element) (a : Char) : Prop where
  ne_run : e ≠ .run
  accepts : ∀ c, e.Accepts same c ↔ same a c

variable {same : Char → Char → Prop} {e : Element} {es tail : List Element}
  {needle text : List Char}

theorem matches_cons (h : e ≠ .run) :
    Matches same (e :: es) text ↔
      ∃ c rest, text = c :: rest ∧ e.Accepts same c ∧ Matches same es rest := by
  cases e with
  | run => exact absurd rfl h
  | one => rfl
  | literal a => rfl
  | oneOf k => rfl

/-- Elements that stand for the characters of a needle match what is the same as the needle. -/
theorem matches_append (h : Forall₂ (Means same) es needle) :
    Matches same (es ++ tail) text ↔
      ∃ found rest, text = found ++ rest ∧ Forall₂ same needle found ∧ Matches same tail rest := by
  induction h generalizing text with
  | nil =>
    constructor
    · intro htail
      exact ⟨[], text, rfl, .nil, htail⟩
    · rintro ⟨found, rest, rfl, hfound, htail⟩
      cases hfound
      exact htail
  | @cons e a es needle he _ ih =>
    rw [List.cons_append, matches_cons he.ne_run]
    constructor
    · rintro ⟨c, rest, rfl, hc, hrest⟩
      obtain ⟨found, rest, rfl, hfound, htail⟩ := ih.1 hrest
      exact ⟨c :: found, rest, rfl, .cons ((he.accepts c).1 hc) hfound, htail⟩
    · rintro ⟨found, rest, rfl, hfound, htail⟩
      obtain ⟨c, found', hc, hfound', rfl⟩ := List.forall₂_cons_left_iff.1 hfound
      exact ⟨c, found' ++ rest, rfl, (he.accepts c).2 hc, ih.2 ⟨found', rest, rfl, hfound', htail⟩⟩

theorem matches_run (es : List Element) (text : List Char) :
    Matches same (.run :: es) text ↔ ∃ front rest, text = front ++ rest ∧ Matches same es rest := by
  constructor
  · rintro ⟨rest, ⟨front, rfl⟩, hrest⟩
    exact ⟨front, rest, rfl, hrest⟩
  · rintro ⟨front, rest, rfl, hrest⟩
    exact ⟨rest, List.suffix_append front rest, hrest⟩

/-- A last run matches whatever is left. -/
theorem matches_last_run (text : List Char) : Matches same [.run] text :=
  ⟨[], List.nil_suffix, rfl⟩

end Pattern

/-! ## Operators -/

/-- The pattern operators of SQL, with the escape character that a statement names. -/
inductive PatternOperator where
  | like (escape : Char)
  | ilike (escape : Char)
  | glob
deriving DecidableEq, Repr

namespace PatternOperator

/-- An operator between a column and the placeholder of its pattern, in SQL. -/
def sql (column placeholder : String) : PatternOperator → String
  | like escape =>
    column ++ " LIKE " ++ placeholder ++ " ESCAPE '" ++ String.singleton escape ++ "'"
  | ilike escape =>
    column ++ " ILIKE " ++ placeholder ++ " ESCAPE '" ++ String.singleton escape ++ "'"
  | glob => column ++ " GLOB " ++ placeholder

/-- The elements of a pattern as an operator reads it, if it is a pattern. -/
def elements? : PatternOperator → List Char → Option (List Pattern.Element)
  | like escape, cs | ilike escape, cs => Pattern.likeElements? escape cs
  | glob, cs => Pattern.globElements? cs

end PatternOperator

/-- When an operator takes two characters for the same, if the dialect has the operator. `LIKE`
regards case in Postgres and disregards it in SQLite. -/
def Dialect.same? (d : Dialect) (sameButCase : Char → Char → Prop) :
    PatternOperator → Option (Char → Char → Prop)
  | .like _ =>
    match d with
    | postgres => some Eq
    | sqlite => some sameButCase
  | .ilike _ =>
    match d with
    | postgres => some sameButCase
    | sqlite => none
  | .glob =>
    match d with
    | postgres => none
    | sqlite => some Eq

/-- Whether a text has a needle where a comparison asks for it. -/
def Comparison.Finds (same : Char → Char → Prop) (needle text : List Char) : Comparison → Prop
  | contains => ∃ front found rest, text = front ++ (found ++ rest) ∧ Forall₂ same needle found
  | beginsWith => ∃ found rest, text = found ++ rest ∧ Forall₂ same needle found
  | endsWith => ∃ front found, text = front ++ found ∧ Forall₂ same needle found
  | _ => False

namespace Matcher

/-- The operator of a matcher. -/
def operator : Matcher → PatternOperator
  | like => .like '\\'
  | ilike => .ilike '\\'
  | glob => .glob

theorem condition_eq (m : Matcher) (column placeholder : String) :
    m.condition column placeholder = m.operator.sql column placeholder := by
  cases m <;> simp only [condition, operator, PatternOperator.sql, String.append_assoc] <;> rfl

/-- The element that an escaped character is read as. -/
def element : Matcher → Char → Pattern.Element
  | like, c | ilike, c => .literal c
  | glob, c => if c = '*' ∨ c = '?' ∨ c = '[' then .oneOf ⟨false, [(c, c)]⟩ else .literal c

theorem means_element (m : Matcher) {same : Char → Char → Prop} (h : m = .glob → same = Eq)
    (c : Char) : Pattern.Means same (m.element c) c := by
  have hliteral : Pattern.Means same (.literal c) c := ⟨by simp, fun _ => Iff.rfl⟩
  cases m with
  | like => exact hliteral
  | ilike => exact hliteral
  | glob =>
    rw [element]
    split
    · rw [h rfl]
      refine ⟨by simp, fun a => ?_⟩
      simp only [Pattern.Element.Accepts, Pattern.CharClass.has, List.any_cons, List.any_nil,
        Bool.or_false, Bool.bne_false, decide_eq_true_eq]
      exact ⟨fun hle => Char.le_antisymm hle.1 hle.2,
        fun heq => heq ▸ ⟨Char.le_refl c, Char.le_refl c⟩⟩
    · exact hliteral

/-- An escaped character is read as the element that stands for it. -/
theorem elements?_escape (m : Matcher) (c : Char) (cs : List Char) :
    m.operator.elements? (m.escape c ++ cs) = (m.operator.elements? cs).map (m.element c :: ·) := by
  have hlike : Pattern.likeElements? '\\' (like.escape c ++ cs) =
      (Pattern.likeElements? '\\' cs).map (.literal c :: ·) := by
    rw [escape]
    split
    · exact Pattern.likeElements?_escaped '\\' c cs
    · rename_i hc
      rw [List.singleton_append, Pattern.likeElements?_cons (by tauto), Pattern.likeElement,
        if_neg (by tauto), if_neg (by tauto)]
  cases m with
  | like => exact hlike
  | ilike => exact hlike
  | glob =>
    rw [escape, element]
    split
    · rename_i hc
      have hclass : Pattern.charClass? ([c, ']'] ++ cs) = some (⟨false, [(c, c)]⟩, cs) := by
        rcases hc with rfl | rfl | rfl <;>
          simp [Pattern.charClass?, Pattern.classMembers?, Pattern.classRanges?]
      exact Pattern.globElements?_class hclass
    · rename_i hc
      rw [List.singleton_append]
      refine (Pattern.globElements?_cons (by tauto) cs).trans ?_
      rw [Pattern.globElement, if_neg (by tauto), if_neg (by tauto)]
      rfl

theorem elements?_literal (m : Matcher) (needle cs : List Char) :
    m.operator.elements? (needle.flatMap m.escape ++ cs) =
      (m.operator.elements? cs).map (needle.map m.element ++ ·) := by
  induction needle with
  | nil => simp
  | cons c needle ih =>
    rw [List.flatMap_cons, List.append_assoc, elements?_escape, ih, Option.map_map, List.map_cons]
    rfl

theorem elements?_wildcard (m : Matcher) (cs : List Char) :
    m.operator.elements? (m.wildcard :: cs) = (m.operator.elements? cs).map (.run :: ·) := by
  cases m with
  | like => exact Pattern.likeElements?_cons (by decide) cs
  | ilike => exact Pattern.likeElements?_cons (by decide) cs
  | glob => exact Pattern.globElements?_cons (by decide) cs

theorem elements?_nil (m : Matcher) : m.operator.elements? [] = some [] := by
  cases m with
  | like => rfl
  | ilike => rfl
  | glob => rw [operator, PatternOperator.elements?, Pattern.globElements?]

/-- The pattern of a needle is a pattern, and matches the texts in which the comparison finds the
needle. -/
theorem pattern_matches (m : Matcher) {same : Char → Char → Prop} (h : m = .glob → same = Eq)
    {comparison : Comparison} (hpattern : comparison.isPattern = true) (needle : String) :
    ∃ elements, m.operator.elements? (m.pattern comparison needle).toList = some elements ∧
      ∀ text, Pattern.Matches same elements text ↔
        comparison.Finds same needle.toList text := by
  have hmeans : Forall₂ (Pattern.Means same) (needle.toList.map m.element) needle.toList := by
    rw [List.forall₂_map_left_iff]
    exact List.forall₂_same.2 fun c _ => m.means_element h c
  have hlast : m.operator.elements? [m.wildcard] = some [.run] := by
    rw [elements?_wildcard, elements?_nil]
    rfl
  have hneedle (tail : List Pattern.Element) (text : List Char) :
      Pattern.Matches same (needle.toList.map m.element ++ tail) text ↔
        ∃ found rest, text = found ++ rest ∧ Forall₂ same needle.toList found ∧
          Pattern.Matches same tail rest :=
    Pattern.matches_append hmeans
  cases comparison with
  | contains =>
    refine ⟨.run :: (needle.toList.map m.element ++ [.run]), ?_, fun text => ?_⟩
    · simp only [pattern, String.toList_ofList, List.cons_append]
      rw [elements?_wildcard, elements?_literal, hlast]
      rfl
    · rw [Pattern.matches_run]
      constructor
      · rintro ⟨front, behind, rfl, hbehind⟩
        obtain ⟨found, rest, rfl, hfound, -⟩ := (hneedle _ _).1 hbehind
        exact ⟨front, found, rest, rfl, hfound⟩
      · rintro ⟨front, found, rest, rfl, hfound⟩
        exact ⟨front, found ++ rest, rfl,
          (hneedle _ _).2 ⟨found, rest, rfl, hfound, Pattern.matches_last_run rest⟩⟩
  | beginsWith =>
    refine ⟨needle.toList.map m.element ++ [.run], ?_, fun text => ?_⟩
    · simp only [pattern, String.toList_ofList]
      rw [elements?_literal, hlast]
      rfl
    · rw [hneedle]
      constructor
      · rintro ⟨found, rest, rfl, hfound, -⟩
        exact ⟨found, rest, rfl, hfound⟩
      · rintro ⟨found, rest, rfl, hfound⟩
        exact ⟨found, rest, rfl, hfound, Pattern.matches_last_run rest⟩
  | endsWith =>
    refine ⟨.run :: (needle.toList.map m.element ++ []), ?_, fun text => ?_⟩
    · have hliteral := m.elements?_literal needle.toList []
      rw [List.append_nil] at hliteral
      simp only [pattern, String.toList_ofList]
      rw [elements?_wildcard, hliteral, elements?_nil]
      rfl
    · rw [Pattern.matches_run]
      constructor
      · rintro ⟨front, behind, rfl, hbehind⟩
        obtain ⟨found, rest, rfl, hfound, rfl⟩ := (hneedle _ _).1 hbehind
        exact ⟨front, found, by rw [List.append_nil], hfound⟩
      · rintro ⟨front, found, rfl, hfound⟩
        exact ⟨front, found, rfl,
          (hneedle _ _).2 ⟨found, [], (List.append_nil _).symm, hfound, rfl⟩⟩
  | _ => cases hpattern

end Matcher

/-- When a dialect takes two characters for the same under the operator of one of its matchers. -/
theorem Dialect.same?_matcher (d : Dialect) (caseSensitive : Bool)
    (sameButCase : Char → Char → Prop) :
    d.same? sameButCase (d.matcher caseSensitive).operator =
        some (if caseSensitive = true then Eq else sameButCase) ∧
      (d.matcher caseSensitive = .glob → caseSensitive = true) := by
  cases d <;> cases caseSensitive <;> exact ⟨rfl, by simp [matcher]⟩

theorem Condition.render_pattern (d : Dialect) (n : Nat) {c : Condition}
    (h : c.comparison.isPattern = true) :
    c.render d n = ⟨(d.matcher c.caseSensitive).condition c.column (d.placeholder n),
      [.text ((d.matcher c.caseSensitive).pattern c.comparison c.value.searchText)]⟩ := by
  obtain ⟨column, comparison, value, caseSensitive⟩ := c
  cases comparison <;> first | rfl | exact absurd h Bool.false_ne_true

/-- **A pattern condition finds its needle literally.** It is one of the dialect's operators and
binds a pattern that is well-formed for this operator. A text matches if and only if it has the
needle where the comparison asks for it, with characters taken for the same as the operator does:
only if they are equal when case counts, and as the database will otherwise. -/
theorem Condition.render_pattern_matches (d : Dialect) (n : Nat) {c : Condition}
    (hpattern : c.comparison.isPattern = true) (sameButCase : Char → Char → Prop) :
    ∃ operator pattern elements same,
      c.render d n = ⟨operator.sql c.column (d.placeholder n), [.text pattern]⟩ ∧
      d.same? sameButCase operator = some same ∧
      same = (if c.caseSensitive = true then Eq else sameButCase) ∧
      operator.elements? pattern.toList = some elements ∧
      ∀ text, Pattern.Matches same elements text ↔
        c.comparison.Finds same c.value.searchText.toList text := by
  obtain ⟨hsame, hglob⟩ := d.same?_matcher c.caseSensitive sameButCase
  have hequal (hm : d.matcher c.caseSensitive = .glob) :
      (if c.caseSensitive = true then Eq else sameButCase) = Eq := if_pos (hglob hm)
  obtain ⟨elements, helements, hmatches⟩ :=
    (d.matcher c.caseSensitive).pattern_matches hequal hpattern c.value.searchText
  refine ⟨_, _, elements, _, ?_, hsame, rfl, helements, hmatches⟩
  rw [c.render_pattern d n hpattern, Matcher.condition_eq]

/-- A needle of nothing but characters that `GLOB` gives a meaning to. -/
theorem Condition.glob_matches_brackets :
    Comparison.isPattern .endsWith = true ∧
      ∃ operator pattern elements same,
        (⟨"a", .endsWith, .text "[*]?", true⟩ : Condition).render .sqlite 3 =
          ⟨operator.sql "a" "?3", [.text pattern]⟩ ∧
        Dialect.sqlite.same? (fun _ _ => True) operator = some same ∧ same = Eq ∧
        operator.elements? pattern.toList = some elements ∧
        ∀ text, Pattern.Matches same elements text ↔
          Comparison.Finds same ['[', '*', ']', '?'] text .endsWith :=
  ⟨rfl, render_pattern_matches .sqlite 3 (c := ⟨"a", .endsWith, .text "[*]?", true⟩) rfl
    fun _ _ => True⟩

end Listing
