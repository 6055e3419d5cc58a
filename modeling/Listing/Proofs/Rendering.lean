import Listing.Clause.OrderBy
import Listing.Clause.Where
import Listing.Identifier
import Listing.Proofs.LexemeReading

/-!
# How rendered clauses read

The bytes of the texts that are written into a statement. Identifiers and numerals consist of word
bytes (`Identifier.isWord_of_mem_parts`, `isWord_numeral`), so what is rendered from qualified
columns comes back to code at the depth it started at: the sort columns without a parenthesis or
quote (`OrderBy.plain_render`), the predicate from one parenthesis to another
(`WhereClause.enclosed_render`).
-/

namespace Listing

open Text

/-! ## Characters as bytes -/

theorem bytes_eq_flatMap (s : String) : bytes s = s.toList.flatMap String.utf8EncodeChar := by
  rw [bytes, ← String.utf8Encode_toList]
  simp [List.utf8Encode]

theorem toNat_lt_of_isRest {c : Char} (h : Identifier.isRest c = true) : c.toNat < 128 := by
  delta Identifier.isRest Char.isAlphanum Char.isAlpha Char.isUpper Char.isLower Char.isDigit at h
  simp only [Bool.or_eq_true, Bool.and_eq_true, decide_eq_true_eq, beq_iff_eq,
    UInt32.le_iff_toNat_le] at h
  rcases h with ((⟨-, h⟩ | ⟨-, h⟩) | ⟨-, h⟩) | rfl
  · exact Nat.lt_of_le_of_lt h (by decide)
  · exact Nat.lt_of_le_of_lt h (by decide)
  · exact Nat.lt_of_le_of_lt h (by decide)
  · decide

/-- The characters of identifiers encode in word bytes. -/
theorem isWordByte_of_isRest {c : Char} (h : Identifier.isRest c = true) :
    ∀ b ∈ String.utf8EncodeChar c, Lexeme.isWordByte b = true := by
  have hall : ∀ n < 128, Identifier.isRest (Char.ofNat n) = true →
      (String.utf8EncodeChar (Char.ofNat n)).all Lexeme.isWordByte = true := by
    decide +kernel
  have hword := hall c.toNat (toNat_lt_of_isRest h)
  rw [Char.ofNat_toNat] at hword
  exact List.all_eq_true.1 (hword h)

theorem isRest_of_isDigit {c : Char} (h : c.isDigit = true) : Identifier.isRest c = true := by
  simp [Identifier.isRest, Char.isAlphanum, h]

/-- A text of word bytes only, and of at least one. -/
structure IsWord (u : List UInt8) : Prop where
  ne_nil : u ≠ []
  all : ∀ b ∈ u, Lexeme.isWordByte b = true

theorem IsWord.isPlain {u : List UInt8} (h : IsWord u) : ∀ b ∈ u, Reader.isPlain b = true :=
  fun b hb => Lexeme.isPlain_of_isWordByte (h.all b hb)

theorem isWord_of_isRest {s : String} (hne : s.toList ≠ [])
    (h : ∀ c ∈ s.toList, Identifier.isRest c = true) : IsWord (bytes s) := by
  rw [bytes_eq_flatMap]
  constructor
  · intro hnil
    obtain ⟨c, cs, hcs⟩ := List.exists_cons_of_ne_nil hne
    rw [List.flatMap_eq_nil_iff] at hnil
    have hc := hnil c (by simp [hcs])
    have hlength := String.length_utf8EncodeChar c
    rw [hc] at hlength
    exact absurd hlength.symm (Nat.ne_of_gt c.utf8Size_pos)
  · intro b hb
    obtain ⟨c, hc, hb⟩ := List.mem_flatMap.1 hb
    exact isWordByte_of_isRest (h c hc) b hb

theorem isWord_numeral (n : Nat) : IsWord (bytes (toString n)) := by
  have hdigits : (toString n).toList = Nat.toDigits 10 n := by
    rw [Nat.toString_eq_repr, Nat.repr, String.toList_ofList]
  refine isWord_of_isRest ?_ fun c hc => ?_
  · rw [hdigits]
    exact Nat.toDigits_ne_nil
  · rw [hdigits] at hc
    exact isRest_of_isDigit (Nat.isDigit_of_mem_toDigits (by decide) (by decide) hc)

/-- Numerals are written in digits. -/
theorem isDigit_of_mem_numeral {n : Nat} {b : UInt8} (hb : b ∈ bytes (toString n)) :
    Ascii.isDigit b = true := by
  rw [bytes_eq_flatMap, Nat.toString_eq_repr, Nat.repr, String.toList_ofList] at hb
  obtain ⟨c, hc, hb'⟩ := List.mem_flatMap.1 hb
  have hdigit := Nat.isDigit_of_mem_toDigits (by decide) (by decide) hc
  have hall : ∀ n < 128, (Char.ofNat n).isDigit = true →
      (String.utf8EncodeChar (Char.ofNat n)).all Ascii.isDigit = true := by
    decide +kernel
  have hbytes := hall c.toNat (toNat_lt_of_isRest (isRest_of_isDigit hdigit))
  rw [Char.ofNat_toNat] at hbytes
  exact List.all_eq_true.1 (hbytes hdigit) b hb'

namespace Identifier

/-- The parts of a qualified identifier. -/
def parts (s : String) : List String := (s.toList.splitOn '.').map String.ofList

theorem isRest_of_isStart {c : Char} (h : isStart c = true) : isRest c = true := by
  simp only [isStart, isRest, Char.isAlphanum, Bool.or_eq_true] at h ⊢
  rcases h with h | h
  · exact .inl (.inl h)
  · exact .inr h

theorem isRest_of_isPart {cs : List Char} (h : isPart cs = true) :
    cs ≠ [] ∧ ∀ c ∈ cs, isRest c = true := by
  cases cs with
  | nil => cases h
  | cons c cs =>
    simp only [isPart, Bool.and_eq_true, List.all_eq_true] at h
    refine ⟨List.cons_ne_nil c cs, fun a ha => ?_⟩
    rcases List.mem_cons.1 ha with rfl | ha
    · exact isRest_of_isStart h.1.2
    · exact h.2 a ha

theorem isWord_of_isPart {cs : List Char} (h : isPart cs = true) :
    IsWord (bytes (String.ofList cs)) := by
  obtain ⟨hne, hrest⟩ := isRest_of_isPart h
  rw [← String.toList_ofList (l := cs)] at hne hrest
  exact isWord_of_isRest hne hrest

theorem isWord_of_isPlain {s : String} (h : isPlain s = true) : IsWord (bytes s) := by
  have hword := isWord_of_isPart h
  rwa [String.ofList_toList] at hword

theorem isWord_of_mem_parts {s part : String} (h : isQualified s = true) (hpart : part ∈ parts s) :
    IsWord (bytes part) := by
  simp only [isQualified, Bool.and_eq_true, List.all_eq_true] at h
  obtain ⟨cs, hcs, rfl⟩ := List.mem_map.1 hpart
  exact isWord_of_isPart (h.2 cs hcs)

theorem parts_ne_nil (s : String) : parts s ≠ [] := by
  simp [parts, List.splitOn_ne_nil]

/-- An identifier is its parts, joined by points. -/
theorem intercalate_parts (s : String) : ".".intercalate (parts s) = s := by
  rw [← String.toList_inj, String.toList_intercalate, parts, List.map_map]
  have hid : String.toList ∘ String.ofList = id := by
    funext cs
    simp
  rw [hid, List.map_id]
  exact List.intercalate_splitOn '.'

end Identifier

/-- What holds of texts and is kept by joining two with a separator holds of all that are joined. -/
theorem join_induction {P : String → Prop} {separator : String} {ss : List String}
    (hne : ss ≠ []) (one : ∀ s ∈ ss, P s)
    (join : ∀ s t, P s → P t → P (s ++ (separator ++ t))) : P (separator.intercalate ss) := by
  induction ss with
  | nil => exact absurd rfl hne
  | cons s ss ih =>
    cases ss with
    | nil =>
      rw [String.intercalate_singleton]
      exact one s List.mem_cons_self
    | cons s' ss =>
      rw [String.intercalate_cons_cons, String.append_assoc]
      exact join _ _ (one s List.mem_cons_self)
        (ih (List.cons_ne_nil _ _) fun a ha => one a (List.mem_cons_of_mem s ha))

theorem intercalate_induction {P : List UInt8 → Prop} {separator : String} {ss : List String}
    (hne : ss ≠ []) (one : ∀ s ∈ ss, P (bytes s))
    (join : ∀ u v, P u → P v → P (u ++ (bytes separator ++ v))) :
    P (bytes (separator.intercalate ss)) := by
  refine join_induction (P := fun s => P (bytes s)) hne one fun s t hs ht => ?_
  rw [bytes_append, bytes_append]
  exact join _ _ hs ht

/-- A qualified identifier has no characters but those of its parts and points. -/
theorem Identifier.not_mem {s : String} {c : Char} (h : isQualified s = true)
    (hc : isRest c = false ∧ c ≠ '.') : c ∉ s.toList := by
  simp only [isQualified, Bool.and_eq_true, List.all_eq_true] at h
  rw [← intercalate_parts s]
  refine join_induction (P := fun s => c ∉ s.toList) (parts_ne_nil s) ?_ ?_
  · intro part hpart hmem
    obtain ⟨cs, hcs, rfl⟩ := List.mem_map.1 hpart
    rw [String.toList_ofList] at hmem
    have hrest := (isRest_of_isPart (h.2 cs hcs)).2 c hmem
    rw [hc.1] at hrest
    cases hrest
  · intro s t hs ht hmem
    simp only [String.toList_append, List.mem_append] at hmem
    rcases hmem with hmem | hmem | hmem
    · exact hs hmem
    · exact hc.2 (List.mem_singleton.1 hmem)
    · exact ht hmem

/-! ## Plain texts -/

/-- A text that reads as code throughout and opens and closes nothing. -/
def IsPlain (u : List UInt8) : Prop := ∀ b ∈ u, Reader.isPlain b = true

instance (u : List UInt8) : Decidable (IsPlain u) :=
  inferInstanceAs (Decidable (∀ b ∈ u, Reader.isPlain b = true))

theorem IsPlain.append {u v : List UInt8} (hu : IsPlain u) (hv : IsPlain v) : IsPlain (u ++ v) := by
  intro b hb
  rcases List.mem_append.1 hb with hb | hb
  · exact hu b hb
  · exact hv b hb

theorem Identifier.plain_of_isQualified {s : String} (h : isQualified s = true) :
    IsPlain (bytes s) := by
  rw [← intercalate_parts s]
  refine intercalate_induction (parts_ne_nil s)
    (fun part hpart => (isWord_of_mem_parts h hpart).isPlain) fun u v hu hv => ?_
  exact hu.append (IsPlain.append (by decide) hv)

theorem Dialect.plain_placeholder (d : Dialect) (n : Nat) : IsPlain (bytes (d.placeholder n)) := by
  rw [placeholder, bytes_append]
  refine IsPlain.append ?_ (isWord_numeral n).isPlain
  cases d <;> decide

theorem Comparison.plain_sign (c : Comparison) : IsPlain (bytes c.sign) := by
  cases c <;> decide

theorem SortField.plain_render {field : SortField}
    (h : Identifier.isQualified field.column = true) : IsPlain (bytes field.render) := by
  have hdirection : IsPlain (bytes field.direction.keyword) := by
    cases field.direction <;> decide
  have hnulls : IsPlain (bytes (if field.nullsLast then " NULLS LAST" else "")) := by
    split <;> decide
  simp only [render, bytes_append]
  exact (((Identifier.plain_of_isQualified h).append (by decide)).append hdirection).append hnulls

/-- The columns of sort columns. -/
def OrderBy.columns (order : OrderBy) : List String := order.fields.map (·.column)

theorem OrderBy.plain_render {order : OrderBy}
    (h : ∀ c ∈ order.columns, Identifier.isQualified c = true) : IsPlain (bytes order.render) := by
  rw [render]
  by_cases hne : order.fields.map SortField.render = []
  · rw [hne]
    decide
  · refine intercalate_induction hne (fun s hs => ?_) fun u v hu hv =>
      hu.append (IsPlain.append (by decide) hv)
    obtain ⟨field, hfield, rfl⟩ := List.mem_map.1 hs
    exact SortField.plain_render (h field.column (List.mem_map_of_mem hfield))

theorem Limit.bytes_bounded (limit offset : Nat) :
    bytes (" " ++ (Limit.bounded limit offset).render) =
      bytes " LIMIT " ++ (bytes (toString limit) ++
        (bytes " OFFSET " ++ bytes (toString offset))) := by
  simp only [Limit.render, bytes_append, List.append_assoc]
  rfl

theorem Limit.plain_render (limit : Limit) : IsPlain (bytes limit.render) := by
  cases limit with
  | unbounded => decide
  | bounded limit offset =>
    simp only [render, bytes_append]
    exact ((IsPlain.append (by decide) (isWord_numeral limit).isPlain).append (by decide)).append
      (isWord_numeral offset).isPlain

/-! ## Conditions -/

/-- The number of bounds of a value, if it is a list of bounds. -/
def Value.bounds? : Value → Option Nat
  | .array items => some items.length
  | _ => none

/-- The text of a range does not depend on its bounds, only on their number. -/
theorem Condition.render_between (d : Dialect) (n : Nat) (column : String) (value : Value)
    (caseSensitive : Bool) :
    (render d n ⟨column, .between, value, caseSensitive⟩).sql =
        (if value.bounds? = some 2 then
          column ++ " BETWEEN " ++ d.placeholder n ++ " AND " ++ d.placeholder (n + 1)
        else impossible (value.bounds?.getD 1)) ∧
      (render d n ⟨column, .between, value, caseSensitive⟩).params.length =
        if value.bounds? = some 2 then 2 else 0 := by
  cases value with
  | array items =>
    match items with
    | [] => exact ⟨rfl, rfl⟩
    | [_] => exact ⟨rfl, rfl⟩
    | [_, _] => exact ⟨rfl, rfl⟩
    | _ :: _ :: _ :: rest => simp [render, Value.bounds?]
  | _ => exact ⟨rfl, rfl⟩

/-- The text of any other condition does not depend on the value at all. -/
theorem Condition.render_single (d : Dialect) (n : Nat) {c : Condition}
    (h : c.comparison ≠ .between) :
    (c.render d n).sql =
        (if c.comparison.isPattern then
          (d.matcher c.caseSensitive).condition c.column (d.placeholder n)
        else c.column ++ " " ++ c.comparison.sign ++ " " ++ d.placeholder n) ∧
      (c.render d n).params.length = 1 := by
  obtain ⟨column, comparison, value, caseSensitive⟩ := c
  cases comparison <;> first | exact absurd rfl h | exact ⟨rfl, rfl⟩

theorem Matcher.neutral_condition {m : Matcher} {column placeholder : String}
    (hcolumn : IsPlain (bytes column)) (hplaceholder : IsPlain (bytes placeholder)) :
    Reader.Neutral (bytes (m.condition column placeholder)) := by
  -- the escape character is the only quoted text
  have hescape (operator : String) (hoperator : IsPlain (bytes operator)) :
      Reader.Neutral (bytes (column ++ operator ++ placeholder ++ " ESCAPE '\\'")) := by
    simp only [bytes_append]
    refine Reader.Neutral.append (Reader.neutral_of_isPlain
      ((hcolumn.append hoperator).append hplaceholder)) (by decide) ?_
    exact Reader.splits_of_head (by decide)
  cases m with
  | like => exact hescape " LIKE " (by decide)
  | ilike => exact hescape " ILIKE " (by decide)
  | glob =>
    simp only [condition, bytes_append]
    exact Reader.neutral_of_isPlain ((hcolumn.append (by decide)).append hplaceholder)

/-- A word does not leave a block comment. -/
theorem IsWord.read_block {u : List UInt8} (h : ∀ b ∈ u, Lexeme.isWordByte b = true) :
    (⟨.block false, 0⟩ : Reader).after u = ⟨.block false, 0⟩ ∧
      (⟨.block false, 0⟩ : Reader).Nested u := by
  induction u with
  | nil => exact ⟨rfl, trivial⟩
  | cons b u ih =>
    have hb := Lexeme.ne_of_isWordByte (h b List.mem_cons_self) (a := Ascii.asterisk) (by decide)
    have hstep : (⟨.block false, 0⟩ : Reader).step b u.head? = ⟨.block false, 0⟩ := by
      simp [Reader.step, hb]
    obtain ⟨hafter, hnested⟩ := ih fun a ha => h a (List.mem_cons_of_mem b ha)
    rw [Reader.after_cons, Reader.Nested, hstep]
    exact ⟨hafter, (fun hmode => by cases hmode), hnested⟩

theorem Condition.neutral_impossible (bounds : Nat) :
    Reader.Neutral (bytes (impossible bounds)) := by
  obtain ⟨hafter, hnested⟩ := IsWord.read_block (isWord_numeral bounds).all
  have hopen : Reader.Splits (bytes "1=0 /* BETWEEN requires 2 values, got ")
      (bytes (toString bounds) ++ bytes " */") :=
    Reader.splits_of_last (by decide)
  have hclose : Reader.Splits (bytes (toString bounds)) (bytes " */") :=
    Reader.splits_of_head (by decide)
  have hstart : ({} : Reader).after (bytes "1=0 /* BETWEEN requires 2 values, got ") =
      ⟨.block false, 0⟩ := by
    decide +kernel
  have hbytes : bytes (impossible bounds) = bytes "1=0 /* BETWEEN requires 2 values, got " ++
      (bytes (toString bounds) ++ bytes " */") := by
    have hend := bytes_append ("1=0 /* BETWEEN requires 2 values, got " ++ toString bounds) " */"
    have hfront := bytes_append "1=0 /* BETWEEN requires 2 values, got " (toString bounds)
    rw [hfront, List.append_assoc] at hend
    exact hend
  rw [hbytes]
  constructor
  · rw [Reader.nested_append hopen, hstart, Reader.nested_append hclose, hafter]
    exact ⟨by decide +kernel, hnested, by decide +kernel⟩
  · rw [Reader.after_append hopen, hstart, Reader.after_append hclose, hafter]
    decide +kernel

theorem Condition.neutral_render {c : Condition} (d : Dialect) (n : Nat)
    (h : Identifier.isQualified c.column = true) : Reader.Neutral (bytes (c.render d n).sql) := by
  have hcolumn := Identifier.plain_of_isQualified h
  unfold render
  split
  · simp only [bytes_append]
    exact Reader.neutral_of_isPlain
      ((((hcolumn.append (by decide)).append (d.plain_placeholder n)).append (by decide)).append
        (d.plain_placeholder (n + 1)))
  · exact neutral_impossible _
  · exact neutral_impossible 1
  · split
    · exact Matcher.neutral_condition hcolumn (d.plain_placeholder n)
    · simp only [bytes_append]
      exact Reader.neutral_of_isPlain
        (((hcolumn.append (by decide)).append (Comparison.plain_sign _)).append (by decide)
          |>.append (d.plain_placeholder n))

/-! ## Predicates -/

/-- A neutral text that starts with a parenthesis and ends with one. -/
structure Enclosed (u : List UInt8) : Prop where
  neutral : Reader.Neutral u
  head : u.head? = some Ascii.openParen
  last : u.getLast? = some Ascii.closeParen

theorem Enclosed.ne_nil {u : List UInt8} (h : Enclosed u) : u ≠ [] := by
  rintro rfl
  cases h.head

theorem Enclosed.fit {u : List UInt8} (h : Enclosed u) : Reader.Fit u :=
  ⟨h.ne_nil, by rw [h.head]; decide, by rw [h.last]; decide⟩

theorem Enclosed.join {u v w : List UInt8} (hu : Enclosed u) (hv : Reader.Neutral v)
    (hfit : Reader.Fit v) (hw : Enclosed w) : Enclosed (u ++ (v ++ w)) := by
  refine ⟨hu.neutral.append_fit hv hw.neutral hfit, ?_, ?_⟩
  · rw [List.head?_append, hu.head, Option.some_or]
  · rw [List.getLast?_append, List.getLast?_append, hw.last, Option.some_or, Option.some_or]

theorem bytes_parens (s : String) :
    bytes ("(" ++ s ++ ")") = Ascii.openParen :: bytes s ++ [Ascii.closeParen] := by
  rw [bytes_append, bytes_append]
  rfl

theorem enclosed_parens {s : String} (h : Reader.Neutral (bytes s)) :
    Enclosed (bytes ("(" ++ s ++ ")")) := by
  rw [bytes_parens]
  exact ⟨h.parens, rfl, by rw [List.getLast?_append]; rfl⟩

/-- Each of the fragments in a row comes from one of the things rendered. -/
theorem Fragment.mem_sequence {α : Type} {render : Nat → α → Fragment} {start : Nat}
    {as : List α} {f : Fragment} (h : f ∈ sequence render start as) :
    ∃ n, ∃ a ∈ as, f = render n a := by
  induction as generalizing start with
  | nil => cases h
  | cons a as ih =>
    rcases List.mem_cons.1 h with rfl | h
    · exact ⟨start, a, List.mem_cons_self, rfl⟩
    · obtain ⟨n, b, hb, rfl⟩ := ih h
      exact ⟨n, b, List.mem_cons_of_mem a hb, rfl⟩

theorem Fragment.length_sequence {α : Type} (render : Nat → α → Fragment) (start : Nat)
    (as : List α) : (sequence render start as).length = as.length := by
  induction as generalizing start with
  | nil => rfl
  | cons a as ih => rw [sequence, List.length_cons, ih, List.length_cons]

theorem Connective.neutral_join (c : Connective) :
    Reader.Neutral (bytes (" " ++ c.keyword ++ " ")) ∧
      Reader.Fit (bytes (" " ++ c.keyword ++ " ")) := by
  cases c <;> decide

namespace WhereClause

/-- The columns of a clause. -/
def columns (clause : WhereClause) : List String := clause.groups.flatMap (·.map (·.column))

/-- What the conditions of a group have in common and joining two with OR keeps holds of all its
alternatives, if it holds of the empty text. -/
theorem alternatives_induction {P : List UInt8 → Prop} {group : List Condition} (d : Dialect)
    (n : Nat) (empty : P []) (condition : ∀ m, ∀ c ∈ group, P (bytes (c.render d m).sql))
    (join : ∀ u v, P u → P v → P (u ++ (bytes " OR " ++ v))) :
    P (bytes (Fragment.join " OR " (Fragment.sequence (Condition.render d) n group)).sql) := by
  simp only [Fragment.join]
  by_cases hne : (Fragment.sequence (Condition.render d) n group).map (·.sql) = []
  · rw [hne]
    exact empty
  · refine intercalate_induction hne (fun s hs => ?_) join
    obtain ⟨f, hf, rfl⟩ := List.mem_map.1 hs
    obtain ⟨m, c, hc, rfl⟩ := Fragment.mem_sequence hf
    exact condition m c hc

theorem neutral_alternatives {group : List Condition} (d : Dialect) (n : Nat)
    (h : ∀ c ∈ group, Identifier.isQualified c.column = true) :
    Reader.Neutral
      (bytes (Fragment.join " OR " (Fragment.sequence (Condition.render d) n group)).sql) :=
  alternatives_induction d n (by decide) (fun m c hc => Condition.neutral_render d m (h c hc))
    fun u v hu hv => hu.append_fit (by decide) hv (by decide)

theorem enclosed_renderGroup {group : List Condition} (d : Dialect) (n : Nat)
    (h : ∀ c ∈ group, Identifier.isQualified c.column = true) :
    Enclosed (bytes (renderGroup d n group).sql) :=
  enclosed_parens (neutral_alternatives d n h)

/-- What the groups of a clause have in common and joining two with the connective keeps holds of
the whole predicate. -/
theorem render_induction {P : List UInt8 → Prop} {clause : WhereClause} (d : Dialect) (n : Nat)
    (hne : clause.isEmpty = false)
    (group : ∀ m, ∀ group ∈ clause.groups, P (bytes (renderGroup d m group).sql))
    (join : ∀ u v, P u → P v →
      P (u ++ (bytes (" " ++ clause.connective.keyword ++ " ") ++ v))) :
    P (bytes (clause.render d n).sql) := by
  have hgroups : clause.groups ≠ [] := by
    rintro hnil
    rw [isEmpty, hnil] at hne
    cases hne
  rw [render, Fragment.join]
  refine intercalate_induction ?_ (fun s hs => ?_) join
  · rw [ne_eq, List.map_eq_nil_iff, ← List.length_eq_zero_iff, Fragment.length_sequence,
      List.length_eq_zero_iff]
    exact hgroups
  · obtain ⟨f, hf, rfl⟩ := List.mem_map.1 hs
    obtain ⟨m, g, hg, rfl⟩ := Fragment.mem_sequence hf
    exact group m g hg

theorem mem_columns {clause : WhereClause} {group : List Condition} {c : Condition}
    (hgroup : group ∈ clause.groups) (hc : c ∈ group) : c.column ∈ clause.columns :=
  List.mem_flatMap.2 ⟨group, hgroup, List.mem_map_of_mem hc⟩

/-- A predicate stands in parentheses from its start to its end. -/
theorem enclosed_render {clause : WhereClause} (d : Dialect) (n : Nat)
    (hne : clause.isEmpty = false)
    (h : ∀ c ∈ clause.columns, Identifier.isQualified c = true) :
    Enclosed (bytes (clause.render d n).sql) := by
  obtain ⟨hneutral, hfit⟩ := clause.connective.neutral_join
  exact render_induction d n hne
    (fun m group hgroup => enclosed_renderGroup d m fun c hc => h c.column (mem_columns hgroup hc))
    fun u v hu hv => hu.join hneutral hfit hv

end WhereClause

end Listing
