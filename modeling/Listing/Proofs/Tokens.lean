import Listing.Proofs.Composition
import Mathlib.Data.List.SplitBy

/-!
# The tokens of added texts

A text that is added to a statement consists of punctuation, spaces and what stands between them.
Such a token is vetted if it is one of the columns that the caller of the rendering answers for, the
name of the count column, a numeral, a placeholder or one of the fixed words and signs of SQL
(`Vetted`). A text of vetted tokens is clean, and so are two clean texts with a spacer between them
(`Clean.join`); that is how clauses are put together, and what composing adds is clean
(`compose_clean`).

A range without two bounds is rendered with a comment that tells their number. It is not clean, so
that predicates are only clean without one.
-/

namespace Listing

open Text

/-! ## Tokens -/

/-- Whether a byte is a token by itself. -/
def isPunctuation (b : UInt8) : Bool :=
  b == Ascii.openParen || b == Ascii.closeParen || b == Ascii.asterisk || b == 44

/-- Whether a byte may be next to another one in a token. -/
def isInner (b : UInt8) : Bool := b != Ascii.space && !isPunctuation b

/-- The tokens of a text: its punctuation and the longest runs of other bytes without a space. -/
def tokens (u : List UInt8) : List (List UInt8) :=
  (u.splitBy fun a b => isInner a && isInner b).filter (· != [Ascii.space])

theorem tokens_append {u v : List UInt8}
    (h : ∀ a ∈ u.getLast?, ∀ b ∈ v.head?, (isInner a && isInner b) = false) :
    tokens (u ++ v) = tokens u ++ tokens v := by
  rw [tokens, List.splitBy_append h, List.filter_append]
  rfl

theorem tokens_of_isInner {u : List UInt8} (hne : u ≠ []) (h : ∀ b ∈ u, isInner b = true) :
    tokens u = [u] := by
  have hchain : u.IsChain fun a b => (isInner a && isInner b) = true := by
    refine List.Pairwise.isChain (List.pairwise_iff_forall_sublist.2 fun hsub => ?_)
    rw [h _ (hsub.mem (by simp)), h _ (hsub.mem (by simp)), Bool.and_self]
  obtain ⟨b, r, rfl⟩ := List.exists_cons_of_ne_nil hne
  have hspace : (b :: r) ≠ [Ascii.space] := by
    rintro heq
    obtain ⟨rfl, -⟩ := List.cons_eq_cons.1 heq
    exact absurd (h _ List.mem_cons_self) (by decide)
  rw [tokens, List.splitBy_of_isChain hne hchain, List.filter_cons, if_pos (by simpa using hspace),
    List.filter_nil]

example : tokens (bytes "(t.a LIKE $1)") =
    [bytes "(", bytes "t.a", bytes "LIKE", bytes "$1", bytes ")"] := by
  decide +kernel

theorem isInner_of_isWordByte {b : UInt8} (h : Lexeme.isWordByte b = true) : isInner b = true := by
  have hne {a : UInt8} (ha : Lexeme.isWordByte a = false) : b ≠ a := Lexeme.ne_of_isWordByte h ha
  simp [isInner, isPunctuation, hne (a := Ascii.space) (by decide),
    hne (a := Ascii.openParen) (by decide), hne (a := Ascii.closeParen) (by decide),
    hne (a := Ascii.asterisk) (by decide), hne (a := 44) (by decide)]

/-! ## Vetted tokens -/

/-- The words and signs that rendering writes by itself. -/
def fixedTokens : List String :=
  ["count", "OVER", "AS", "WHERE", "AND", "OR", "BETWEEN", "LIKE", "ILIKE", "GLOB", "ESCAPE",
    "ORDER", "BY", "ASC", "DESC", "NULLS", "LAST", "LIMIT", "OFFSET", "=", ">", ">=", "<", "<=",
    "'\\'", "(", ")", "*", ","]

/-- A token that may stand in an added text. -/
inductive Vetted (dialect : Dialect) (columns : List String) (countAlias : String) :
    List UInt8 → Prop
  | column {name : String} (h : name ∈ columns) : Vetted dialect columns countAlias (bytes name)
  | countAlias : Vetted dialect columns countAlias (bytes countAlias)
  | numeral (n : Nat) : Vetted dialect columns countAlias (bytes (toString n))
  | placeholder (n : Nat) : Vetted dialect columns countAlias (bytes (dialect.placeholder n))
  | fixed {name : String} (h : name ∈ fixedTokens) :
      Vetted dialect columns countAlias (bytes name)

/-- A text of vetted tokens. -/
def Clean (dialect : Dialect) (columns : List String) (countAlias : String) (u : List UInt8) :
    Prop :=
  ∀ t ∈ tokens u, Vetted dialect columns countAlias t

/-- Whether rendering writes all tokens of a text by itself. -/
def isFixed (s : List UInt8) : Bool := (tokens s).all fun t => fixedTokens.any (bytes · == t)

/-- Whether a text starts with a space or punctuation. -/
def startsApart (s : List UInt8) : Bool := s.head?.any (!isInner ·)

/-- Whether a text ends with a space or punctuation. -/
def endsApart (s : List UInt8) : Bool := s.getLast?.any (!isInner ·)

theorem exists_head_of_startsApart {s : List UInt8} (h : startsApart s = true) :
    ∃ b, s.head? = some b ∧ isInner b = false := by
  obtain ⟨b, hb, hinner⟩ := (Option.any_eq_true _ _).1 h
  exact ⟨b, hb, by simpa using hinner⟩

namespace Clean

variable {dialect : Dialect} {columns : List String} {countAlias : String} {u v s : List UInt8}

theorem of_isFixed (h : isFixed s = true) : Clean dialect columns countAlias s := by
  intro t ht
  obtain ⟨name, hname, heq⟩ := List.any_eq_true.1 (List.all_eq_true.1 h t ht)
  rw [← eq_of_beq heq]
  exact .fixed hname

theorem append (hu : Clean dialect columns countAlias u) (hv : Clean dialect columns countAlias v)
    (h : ∀ a ∈ u.getLast?, ∀ b ∈ v.head?, (isInner a && isInner b) = false) :
    Clean dialect columns countAlias (u ++ v) := by
  intro t ht
  rw [tokens_append h] at ht
  rcases List.mem_append.1 ht with ht | ht
  · exact hu t ht
  · exact hv t ht

/-- A fixed text in front of a clean one. -/
theorem fixed_append (hs : (isFixed s && endsApart s) = true)
    (hv : Clean dialect columns countAlias v) : Clean dialect columns countAlias (s ++ v) := by
  obtain ⟨hfixed, hlast⟩ := Bool.and_eq_true_iff.1 hs
  refine (of_isFixed hfixed).append hv fun a ha b _ => ?_
  obtain ⟨a', ha', hinner⟩ := (Option.any_eq_true _ _).1 hlast
  obtain rfl : a' = a := Option.some.inj (ha'.symm.trans ha)
  simp_all

/-- A clean text with a fixed one behind it. -/
theorem append_fixed (hu : Clean dialect columns countAlias u)
    (hs : (isFixed s && startsApart s) = true) : Clean dialect columns countAlias (u ++ s) := by
  obtain ⟨hfixed, hhead⟩ := Bool.and_eq_true_iff.1 hs
  obtain ⟨b, hb, hinner⟩ := exists_head_of_startsApart hhead
  refine hu.append (of_isFixed hfixed) fun a _ b' hb' => ?_
  obtain rfl : b = b' := Option.some.inj (hb.symm.trans hb')
  rw [hinner, Bool.and_false]

/-- Two clean texts with a fixed one between them. -/
theorem join (hu : Clean dialect columns countAlias u)
    (hs : (isFixed s && startsApart s && endsApart s) = true)
    (hv : Clean dialect columns countAlias v) :
    Clean dialect columns countAlias (u ++ (s ++ v)) := by
  simp only [Bool.and_eq_true] at hs
  obtain ⟨⟨hfixed, hhead⟩, hlast⟩ := hs
  obtain ⟨b, hb, hinner⟩ := exists_head_of_startsApart hhead
  refine hu.append (fixed_append (by rw [hfixed, hlast]; rfl) hv) fun a _ b' hb' => ?_
  rw [List.head?_append, hb, Option.some_or, Option.mem_some] at hb'
  rw [← hb', hinner, Bool.and_false]

theorem of_isInner (hne : u ≠ []) (h : ∀ b ∈ u, isInner b = true)
    (hu : Vetted dialect columns countAlias u) : Clean dialect columns countAlias u := by
  intro t ht
  rw [tokens_of_isInner hne h, List.mem_singleton] at ht
  rwa [ht]

end Clean

/-! ## Rendered clauses -/

section

variable {dialect : Dialect} {columns : List String} {countAlias : String}

theorem clean_isWord {u : List UInt8} (h : IsWord u) (hu : Vetted dialect columns countAlias u) :
    Clean dialect columns countAlias u :=
  .of_isInner h.ne_nil (fun b hb => isInner_of_isWordByte (h.all b hb)) hu

theorem clean_numeral (n : Nat) : Clean dialect columns countAlias (bytes (toString n)) :=
  clean_isWord (isWord_numeral n) (.numeral n)

theorem clean_column {name : String} (h : Identifier.isQualified name = true)
    (hname : name ∈ columns) : Clean dialect columns countAlias (bytes name) := by
  have hinner : bytes name ≠ [] ∧ ∀ b ∈ bytes name, isInner b = true := by
    rw [← Identifier.intercalate_parts name]
    refine intercalate_induction (P := fun u => u ≠ [] ∧ ∀ b ∈ u, isInner b = true)
      (Identifier.parts_ne_nil name) (fun part hpart => ?_) ?_
    · have hword := Identifier.isWord_of_mem_parts h hpart
      exact ⟨hword.ne_nil, fun b hb => isInner_of_isWordByte (hword.all b hb)⟩
    · rintro u v ⟨hne, hu⟩ ⟨-, hv⟩
      refine ⟨by simp [hne], fun b hb => ?_⟩
      rcases List.mem_append.1 hb with hb | hb
      · exact hu b hb
      rcases List.mem_append.1 hb with hb | hb
      · obtain rfl : b = Ascii.point := List.mem_singleton.1 hb
        decide
      · exact hv b hb
  exact .of_isInner hinner.1 hinner.2 (.column hname)

theorem clean_placeholder (n : Nat) :
    Clean dialect columns countAlias (bytes (dialect.placeholder n)) := by
  have hnumeral := isWord_numeral n
  refine .of_isInner ?_ (fun b hb => ?_) (.placeholder n)
  · rw [Dialect.placeholder, bytes_append]
    exact List.append_ne_nil_of_right_ne_nil _ hnumeral.ne_nil
  · have hmark : ∀ b ∈ bytes dialect.mark, isInner b = true := by
      cases dialect <;> decide
    rw [Dialect.placeholder, bytes_append] at hb
    rcases List.mem_append.1 hb with hb | hb
    · exact hmark b hb
    · exact isInner_of_isWordByte (hnumeral.all b hb)

/-- A condition whose column is vetted, and whose value is one of two bounds if it is a range. -/
structure Condition.IsVetted (columns : List String) (c : Condition) : Prop where
  mem : c.column ∈ columns
  qualified : Identifier.isQualified c.column = true
  range : c.comparison = .between → c.value.bounds? = some 2

theorem Matcher.clean_condition (m : Matcher) {column : String} (n : Nat)
    (h : Clean dialect columns countAlias (bytes column)) :
    Clean dialect columns countAlias (bytes (m.condition column (dialect.placeholder n))) := by
  have hplaceholder : Clean dialect columns countAlias (bytes (dialect.placeholder n)) :=
    clean_placeholder n
  cases m <;> simp only [condition, bytes_append, List.append_assoc]
  · exact h.join (by decide) (hplaceholder.append_fixed (by decide))
  · exact h.join (by decide) (hplaceholder.append_fixed (by decide))
  · exact h.join (by decide) hplaceholder

theorem Condition.clean_render {c : Condition} (n : Nat) (h : c.IsVetted columns) :
    Clean dialect columns countAlias (bytes (c.render dialect n).sql) := by
  have hcolumn : Clean dialect columns countAlias (bytes c.column) :=
    clean_column h.qualified h.mem
  by_cases hbetween : c.comparison = .between
  · obtain ⟨column, comparison, value, caseSensitive⟩ := c
    obtain rfl : comparison = .between := hbetween
    rw [(render_between dialect n column value caseSensitive).1, if_pos (h.range rfl)]
    simp only [bytes_append, List.append_assoc]
    exact hcolumn.join (by decide) ((clean_placeholder n).join (by decide)
      (clean_placeholder (n + 1)))
  · rw [(render_single dialect n hbetween).1]
    split
    · exact Matcher.clean_condition _ n hcolumn
    · have hsign : Clean dialect columns countAlias (bytes c.comparison.sign) := by
        cases c.comparison <;> exact .of_isFixed (by decide)
      simp only [bytes_append, List.append_assoc]
      exact hcolumn.join (by decide) (hsign.join (by decide) (clean_placeholder n))

theorem clean_parens {s : String} (h : Clean dialect columns countAlias (bytes s)) :
    Clean dialect columns countAlias (bytes ("(" ++ s ++ ")")) := by
  simp only [bytes_append, List.append_assoc]
  exact .fixed_append (by decide) (h.append_fixed (by decide))

theorem WhereClause.clean_renderGroup {group : List Condition} (n : Nat)
    (h : ∀ c ∈ group, c.IsVetted columns) :
    Clean dialect columns countAlias (bytes (renderGroup dialect n group).sql) := by
  have hempty : Clean dialect columns countAlias [] := .of_isFixed (by decide)
  exact clean_parens (alternatives_induction dialect n hempty
    (fun m c hc => Condition.clean_render m (h c hc)) fun u v hu hv => hu.join (by decide) hv)

theorem WhereClause.clean_render {clause : WhereClause} (n : Nat) (hne : clause.isEmpty = false)
    (h : ∀ group ∈ clause.groups, ∀ c ∈ group, c.IsVetted columns) :
    Clean dialect columns countAlias (bytes (clause.render dialect n).sql) := by
  refine render_induction dialect n hne (fun m group hgroup => clean_renderGroup m (h group hgroup))
    fun u v hu hv => hu.join ?_ hv
  cases clause.connective <;> decide

theorem OrderBy.clean_render {order : OrderBy}
    (h : ∀ a ∈ order.columns, Identifier.isQualified a = true ∧ a ∈ columns) :
    Clean dialect columns countAlias (bytes order.render) := by
  rw [render]
  by_cases hne : order.fields.map SortField.render = []
  · rw [hne]
    exact .of_isFixed (by decide)
  · refine intercalate_induction hne (fun s hs => ?_) fun u v hu hv => hu.join (by decide) hv
    obtain ⟨field, hfield, rfl⟩ := List.mem_map.1 hs
    obtain ⟨hqualified, hmem⟩ := h field.column (List.mem_map_of_mem hfield)
    have hdirection : Clean dialect columns countAlias (bytes field.direction.keyword) := by
      cases field.direction <;> exact .of_isFixed (by decide)
    simp only [SortField.render, bytes_append, List.append_assoc]
    refine (clean_column hqualified hmem).join (by decide) ?_
    split
    · exact hdirection.append_fixed (by decide)
    · rwa [bytes_empty, List.append_nil]

theorem Limit.clean_render (limit : Limit) :
    Clean dialect columns countAlias (bytes limit.render) := by
  cases limit with
  | unbounded => exact .of_isFixed (by decide)
  | bounded limit offset =>
    simp only [render, bytes_append, List.append_assoc]
    exact .fixed_append (by decide) ((clean_numeral limit).join (by decide) (clean_numeral offset))

/-! ## Added texts -/

theorem Edit.mem_of_added {base : List UInt8} {cursor : Nat} {es : List Edit} {ps : List Piece}
    {t : String} (h : piecesFrom base cursor es = some ps) (ht : .added t ∈ ps) :
    ∃ e ∈ es, e.text = t := by
  induction es generalizing cursor ps with
  | nil =>
    obtain ⟨s, -, rfl⟩ := piecesFrom_nil h
    simp at ht
  | cons e es ih =>
    obtain ⟨-, -, s, ps', -, hps', rfl⟩ := piecesFrom_cons h
    simp only [List.mem_cons, reduceCtorEq, Piece.added.injEq, false_or] at ht
    rcases ht with rfl | ht
    · exact ⟨e, List.mem_cons_self, rfl⟩
    · obtain ⟨a, ha, heq⟩ := ih hps' ht
      exact ⟨a, List.mem_cons_of_mem e ha, heq⟩

namespace Site

variable {site : Site} {clause : WhereClause} {predicate : String} {order : OrderBy}

theorem clean_countEdit (halias : Identifier.isPlain countAlias = true) :
    Clean dialect columns countAlias (bytes (site.countEdit countAlias).text) := by
  have hname : Clean dialect columns countAlias (bytes countAlias) :=
    clean_isWord (Identifier.isWord_of_isPlain halias) .countAlias
  simp only [countEdit, bytes_append, List.append_assoc]
  exact .fixed_append (by decide) (hname.append_fixed (by decide))

theorem clean_predicateEdits
    (h : clause.isEmpty = false → Clean dialect columns countAlias (bytes predicate)) :
    ∀ e ∈ site.predicateEdits clause predicate,
      Clean dialect columns countAlias (bytes e.text) := by
  intro e he
  obtain ⟨hclause, htext | htext | ⟨lead, hlead, htext⟩⟩ := text_of_mem_predicateEdits he
  · rw [htext]
    exact .of_isFixed (by decide)
  · rw [htext, bytes_append]
    exact .fixed_append (by decide) (clean_parens (h hclause))
  · have hfixed : ∀ lead ∈ [" WHERE ", " ", ") AND "],
        (isFixed (bytes lead) && endsApart (bytes lead)) = true := by decide
    rw [htext, bytes_append]
    exact .fixed_append (hfixed lead hlead) (h hclause)

theorem clean_orderEdits
    (h : ∀ a ∈ order.columns, Identifier.isQualified a = true ∧ a ∈ columns) :
    ∀ e ∈ site.orderEdits order, Clean dialect columns countAlias (bytes e.text) := by
  intro e he
  have hrender : Clean dialect columns countAlias (bytes order.render) := OrderBy.clean_render h
  obtain ⟨-, htext | htext⟩ := text_of_mem_orderEdits he
  · rw [htext, bytes_append]
    exact .fixed_append (by decide) hrender
  · simp only [htext, bytes_append, List.append_assoc]
    exact .fixed_append (by decide) (hrender.append_fixed (by decide))

end Site

/-- A composed statement is the code of its base and added texts, and what is added is clean. -/
theorem compose_clean {base : String} {baseParams : List Value} {clause : WhereClause}
    {order : OrderBy} {limit : Limit} {c : Composed}
    (halias : Identifier.isPlain countAlias = true)
    (hclause : ∀ group ∈ clause.groups, ∀ a ∈ group, Condition.IsVetted columns a)
    (horder : ∀ a ∈ order.columns, Identifier.isQualified a = true ∧ a ∈ columns)
    (h : compose dialect countAlias base baseParams clause order limit = .ok c) :
    c.pieces.flatMap Piece.keptBytes = (bytes base).take (Outline.of (bytes base)).codeEnd ∧
      ∀ t, .added t ∈ c.pieces → Clean dialect columns countAlias (bytes t) := by
  obtain ⟨site, pieces, -, -, hsplice, hpieces, -⟩ := compose_ok h
  have htail : limit.tail.flatMap Piece.keptBytes = [] := by
    unfold Limit.tail
    split <;> rfl
  refine ⟨?_, fun t ht => ?_⟩
  · rw [hpieces, List.flatMap_append, Edit.keptBytes_of_piecesFrom hsplice, htail, List.append_nil,
      List.drop_zero]
  · rw [hpieces, List.mem_append] at ht
    rcases ht with ht | ht
    · obtain ⟨e, he, rfl⟩ := Edit.mem_of_added hsplice ht
      rw [Edit.sort, List.mem_mergeSort] at he
      rcases List.mem_append.1 he with he | he
      · rcases List.mem_cons.1 he with rfl | he
        · exact Site.clean_countEdit halias
        · exact Site.clean_predicateEdits
            (fun hne => WhereClause.clean_render _ hne hclause) e he
      · exact Site.clean_orderEdits horder e he
    · unfold Limit.tail at ht
      split at ht
      · rw [List.mem_singleton, Piece.added.injEq] at ht
        rw [ht, bytes_append]
        exact .fixed_append (by decide) limit.clean_render
      · cases ht

end

end Listing
