import Listing.Proofs.ComposedPredicate
import Listing.Proofs.RenderedTokens

/-!
# A predicate restricts that of its base

`compose_restricts`: the predicate of a composed statement holds of a row if and only if that of its
base does, whatever it is, and the added one does, for any truth of their conditions. No operator of
the one takes a condition of the other to itself, since the predicate of the base is in parentheses,
and so are the groups of the other one and, if it has several, all of it.
-/

namespace Listing

open Text List

/-! ## The formula of a clause -/

/-- No part of a column is an operator. -/
def Identifier.FreeOfOperators (column : String) : Prop :=
  ∀ part ∈ parts column, CodeToken.operator? (bytes part) = none

instance (column : String) : Decidable (Identifier.FreeOfOperators column) :=
  inferInstanceAs (Decidable (∀ part ∈ Identifier.parts column,
    CodeToken.operator? (bytes part) = none))

/-- What relates the things in a row to others relates them with their numbers. -/
theorem Fragment.forall₂_starts {α β γ : Type} {render : Nat → α → Fragment} {start : Nat}
    {as : List α} {cs : List γ} {f : Nat × α → β} {R : α → γ → Prop} {S : β → γ → Prop}
    (hf : ∀ p c, R p.2 c → S (f p) c) (h : Forall₂ R as cs) :
    Forall₂ S ((starts render start as).map f) cs := by
  rw [← starts_snd render start as, forall₂_map_left_iff] at h
  rw [forall₂_map_left_iff]
  exact h.imp fun {p} {c} => hf p c

theorem Condition.isPlain_reading {d : Dialect} (n : Nat) {c : Condition}
    (h : Identifier.FreeOfOperators c.column) : (c.reading d n).IsPlain := by
  have hparts : ∀ part ∈ (Identifier.parts c.column).map bytes,
      CodeToken.operator? part = none := by
    intro part hpart
    obtain ⟨p, hp, rfl⟩ := List.mem_map.1 hpart
    exact h p hp
  unfold reading
  split
  · split
    · exact hparts
    · trivial
  · exact hparts

namespace WhereClause

variable {d : Dialect} {clause : WhereClause}

theorem length_groupReading (n : Nat) (group : List Condition) :
    (groupReading d n group).length = group.length := by
  have hsnd := congrArg List.length (Fragment.starts_snd (Condition.render d) n group)
  rw [List.length_map] at hsnd
  rw [groupReading, List.length_map, hsnd]

/-- The readings of a clause are in groups as its conditions are. -/
theorem forall₂_readings (n : Nat) {truth : List (List Bool)}
    (h : Forall₂ (fun group ts => group.length = ts.length) clause.groups truth) :
    Forall₂ (fun group ts => group.length = ts.length) (clause.readings d n) truth :=
  Fragment.forall₂_starts (fun p _ hp => (length_groupReading p.1 p.2).trans hp) h

theorem mem_readings {n : Nat} {group : List Reading} (h : group ∈ clause.readings d n) :
    ∃ m, ∃ conditions ∈ clause.groups, group = groupReading d m conditions := by
  obtain ⟨p, hp, rfl⟩ := List.mem_map.1 h
  exact ⟨p.1, p.2, Fragment.mem_of_mem_starts hp, rfl⟩

theorem readable_readings (n : Nat) (hclause : clause.isEmpty = false)
    (hgroups : ∀ group ∈ clause.groups, group ≠ [])
    (hcolumns : ∀ column ∈ clause.columns, Identifier.FreeOfOperators column) :
    Reading.Readable (clause.readings d n) := by
  refine ⟨fun hnil => ?_, fun group hgroup hnil => ?_, fun group hgroup r hr => ?_,
    fun group hgroup r hr => ?_⟩
  · have hlength := congrArg List.length (Fragment.starts_snd (renderGroup d) n clause.groups)
    rw [readings, List.map_eq_nil_iff] at hnil
    rw [hnil, List.map_nil, List.length_nil, eq_comm, List.length_eq_zero_iff] at hlength
    rw [isEmpty, hlength] at hclause
    cases hclause
  · obtain ⟨m, conditions, hmem, rfl⟩ := mem_readings hgroup
    have hlength := length_groupReading (d := d) m conditions
    rw [hnil, List.length_nil, eq_comm, List.length_eq_zero_iff] at hlength
    exact hgroups conditions hmem hlength
  · obtain ⟨m, conditions, -, rfl⟩ := mem_readings hgroup
    obtain ⟨p, -, rfl⟩ := List.mem_map.1 hr
    exact p.2.isSound_reading p.1
  · obtain ⟨m, conditions, hmem, rfl⟩ := mem_readings hgroup
    obtain ⟨p, hp, rfl⟩ := List.mem_map.1 hr
    exact Condition.isPlain_reading p.1
      (hcolumns _ (mem_columns hmem (Fragment.mem_of_mem_starts hp)))

end WhereClause

/-! ## The formula of a predicate -/

/-- The formula of a predicate that a clause was added to. Its conditions are the predicate of the
base, if there is one, and those of the clause, and it holds if both of them do. -/
structure Restricts (d : Dialect) (start : Nat) (own : List CodeToken) (clause : WhereClause)
    (predicate : List CodeToken) (f : Formula (List CodeToken)) : Prop where
  read : readPredicate own predicate = some f
  leaves : f.leaves = (if own = [] then [] else [own]) ++
    (clause.readings d start).flatten.map Reading.tokens
  holds : ∀ base truth, Forall₂ (fun group ts => group.length = ts.length) clause.groups truth →
    f.holds ((if own = [] then [] else [base]) ++ truth.flatten) =
      ((own.isEmpty || base) && clause.connective.holds (truth.map Connective.or.holds))

section

variable {d : Dialect} {start : Nat} {own : List CodeToken} {clause : WhereClause}
  {u : List UInt8} (hclause : clause.isEmpty = false)
  (hgroups : ∀ group ∈ clause.groups, group ≠ [])
  (hcolumns : ∀ column ∈ clause.columns,
    Identifier.isQualified column = true ∧ Identifier.FreeOfOperators column)

include hclause hgroups hcolumns

/-- What is joined to the predicate of a base is one operand. -/
theorem WhereClause.reads_joined (start : Nat) :
    Formula.Reads
      (codeTokens d (bytes (if 1 < clause.groups.length
        then "(" ++ (clause.render d start).sql ++ ")" else (clause.render d start).sql)))
      (Reading.clauseFormula clause.connective (clause.readings d start)) := by
  have hqualified := fun column hcolumn => (hcolumns column hcolumn).1
  have hreadable := readable_readings (d := d) start hclause hgroups
    fun column hcolumn => (hcolumns column hcolumn).2
  have htokens := codeTokens_render (d := d) start hqualified
  split
  · have henclosed := enclosed_render d start hclause hqualified
    rw [bytes_parens, codeTokens_parens (.of_neutral henclosed.neutral), htokens]
    exact hreadable.reads_parens clause.connective
  · rename_i hnot
    -- the only group brings its own parentheses
    obtain ⟨group, hgroup⟩ : ∃ group, clause.readings d start = [group] := by
      have hlength : (clause.readings d start).length = clause.groups.length := by
        have hsnd := congrArg List.length (Fragment.starts_snd (renderGroup d) start clause.groups)
        rw [List.length_map] at hsnd
        rw [readings, List.length_map, hsnd]
      have hpos := List.length_pos_iff.2 hreadable.ne_nil
      exact List.length_eq_one_iff.1 (by omega)
    have hreads := hreadable.reads_groups group (by simp [hgroup])
    rw [htokens, hgroup, Reading.clauseTokens, List.map_singleton, List.intercalate_singleton]
    exact hreads

theorem Conjoins.exists_restricts (h : Conjoins d own clause (clause.render d start).sql u) :
    ∃ f, Restricts d start own clause (codeTokens d u) f := by
  have hreadable := WhereClause.readable_readings (d := d) start hclause hgroups
    fun column hcolumn => (hcolumns column hcolumn).2
  have hleaves := Reading.leaves_clauseFormula clause.connective hreadable.ne_nil
    hreadable.groups_ne_nil
  have hholds {truth : List (List Bool)}
      (htruth : Forall₂ (fun group ts => group.length = ts.length) clause.groups truth) :=
    Reading.holds_clauseFormula clause.connective hreadable.ne_nil hreadable.groups_ne_nil
      (WhereClause.forall₂_readings start htruth)
  cases h with
  | alone hown =>
    subst hown
    refine ⟨Reading.clauseFormula clause.connective (clause.readings d start), ?_, ?_,
      fun base truth htruth => ?_⟩
    · unfold readPredicate
      rw [if_pos rfl,
        WhereClause.codeTokens_render start fun column hcolumn => (hcolumns column hcolumn).1]
      exact hreadable.readFormula clause.connective
    · rw [if_pos rfl, List.nil_append, hleaves]
    · rw [if_pos rfl, List.nil_append, hholds htruth]
      rfl
  | @joined body hbody hown hne =>
    have hreads := WhereClause.reads_joined (d := d) hclause hgroups hcolumns start
    have hand : codeTokens d (bytes " AND ") = [.word (bytes "AND")] := by
      cases d <;> cbv
    have hsplit := splitGroup_of_nests (hown ▸ nests_codeTokens (d := d) hbody)
      (.word (bytes "AND") :: codeTokens d (bytes (if 1 < clause.groups.length
        then "(" ++ (clause.render d start).sql ++ ")" else (clause.render d start).sql)))
    have hnotEmpty : own.isEmpty = false := by simpa using hne
    refine ⟨.and (.leaf own) (Reading.clauseFormula clause.connective (clause.readings d start)),
      ?_, ?_, fun base truth htruth => ?_⟩
    · have htokens := readPredicate_and hne hsplit hreads
      rw [codeTokens_join (.of_neutral hbody.parens) (by decide),
        codeTokens_parens (.of_neutral hbody), hown, hand]
      simpa using htokens
    · rw [if_neg hne, Formula.leaves, hleaves, Formula.leaves]
    · rw [if_neg hne, hnotEmpty, Bool.false_or, ← hholds htruth]
      simp [Formula.holds, Formula.leaves]

end

/-! ## Composed statements -/

/-- **A composed predicate is that of the base and the added one.** Read with parentheses first and
AND in front of OR, it holds if and only if both do, given that no name is mistaken for the WHERE of
the statement or for its FROM. -/
theorem compose_restricts {dialect : Dialect} {countAlias base : String} {baseParams : List Value}
    {clause : WhereClause} {order : OrderBy} {limit : Limit} {c : Composed} {site : Site}
    (hbalanced : Balanced (bytes base)) (hblanks : PlainBlanks (bytes base))
    (halias : Identifier.isPlain countAlias = true) (hclause : clause.isEmpty = false)
    (hgroups : ∀ group ∈ clause.groups, group ≠ [])
    (hcolumns : ∀ column ∈ clause.columns,
      Identifier.isQualified column = true ∧ Identifier.FreeOfOperators column)
    (horder : ∀ column ∈ order.columns, Identifier.isQualified column = true)
    (h : compose dialect countAlias base baseParams clause order limit = .ok c)
    (hsite : Site.locate countAlias (bytes base) = .ok site)
    (hnames : site.Unmistaken countAlias order) :
    ∃ f, Restricts dialect (baseParams.length + 1) (predicateTokens dialect (bytes base)) clause
      (predicateTokens dialect (bytes c.sql)) f := by
  obtain ⟨blanks, conjunction, hblank, hconjoins, hpredicate⟩ :=
    predicateText?_of_compose hbalanced hblanks halias hclause
      (fun column hcolumn => (hcolumns column hcolumn).1) horder h hsite hnames
  have htokens : predicateTokens dialect (bytes c.sql) = codeTokens dialect conjunction := by
    rw [predicateTokens, hpredicate, Option.map_some, Option.getD_some, codeTokens_blanks hblank]
  rw [htokens]
  exact hconjoins.exists_restricts hclause hgroups hcolumns

/-- Both predicates have an OR, and neither loses a condition to the AND between them. -/
theorem compose_restricts_wrapped :
    ∃ c, compose .sqlite "total" "SELECT a FROM t WHERE b = 'x' OR c LIMIT 5" []
        ⟨.or, [[⟨"t.a", .equal, .int 1, false⟩], [⟨"b", .between, .array [.int 2, .int 3], false⟩]]⟩
        ⟨[⟨"a", .ascending, false⟩]⟩ .unbounded = .ok c ∧
      c.sql = "SELECT count(*) OVER() AS total, a FROM t WHERE (b = 'x' OR c) AND " ++
        "((t.a = ?1) OR (b BETWEEN ?2 AND ?3)) ORDER BY a ASC LIMIT 5" ∧
      ∃ f, Restricts .sqlite 1
        (predicateTokens .sqlite (bytes "SELECT a FROM t WHERE b = 'x' OR c LIMIT 5"))
        ⟨.or, [[⟨"t.a", .equal, .int 1, false⟩], [⟨"b", .between, .array [.int 2, .int 3], false⟩]]⟩
        (predicateTokens .sqlite (bytes c.sql)) f := by
  have h : compose .sqlite "total" "SELECT a FROM t WHERE b = 'x' OR c LIMIT 5" []
      ⟨.or, [[⟨"t.a", .equal, .int 1, false⟩], [⟨"b", .between, .array [.int 2, .int 3], false⟩]]⟩
      ⟨[⟨"a", .ascending, false⟩]⟩ .unbounded =
        .ok ⟨[.kept "SELECT", .added " count(*) OVER() AS total,", .kept " a FROM t WHERE ",
          .added "(", .kept "b = 'x' OR c", .added ") AND ((t.a = ?1) OR (b BETWEEN ?2 AND ?3))",
          .kept "", .added " ORDER BY a ASC", .kept " LIMIT 5"],
          [.int 1, .int 2, .int 3], "total", 7⟩ := by
    cbv
  have hsite : Site.locate "total" (bytes "SELECT a FROM t WHERE b = 'x' OR c LIMIT 5") =
      .ok ⟨bytes "SELECT a FROM t WHERE b = 'x' OR c LIMIT 5",
        Outline.of (bytes "SELECT a FROM t WHERE b = 'x' OR c LIMIT 5"), 6, 13⟩ := by
    cbv
  exact ⟨_, h, by decide +kernel, compose_restricts (by decide +kernel) (by decide +kernel)
    (by decide +kernel) rfl (by decide) (by decide +kernel) (by decide +kernel) h hsite
    (by decide +kernel)⟩

theorem not_restricts {d : Dialect} {start : Nat} {own predicate : List CodeToken}
    {clause : WhereClause} (h : readPredicate own predicate = none) :
    ¬∃ f, Restricts d start own clause predicate f := by
  rintro ⟨f, hf⟩
  have hread := hf.read
  rw [h] at hread
  cases hread

/-- Names are inserted without quotes. A count column is taken for the WHERE of a statement that
selects from nothing, a sort column for that of a predicate behind it, and for the FROM that the
statement has not, as is what else is given for a sort column. -/
theorem compose_mistakes_names :
    (Balanced (bytes "SELECT 1") ∧ PlainBlanks (bytes "SELECT 1") ∧
      Balanced (bytes "SELECT 1 FROM t ORDER BY b WHERE c") ∧
      PlainBlanks (bytes "SELECT 1 FROM t ORDER BY b WHERE c") ∧
      Identifier.isPlain "where" = true ∧ Identifier.isPlain "n" = true ∧
      (∀ column ∈ ["a", "where", "from"],
        Identifier.isQualified column = true ∧ Identifier.FreeOfOperators column)) ∧
    (∃ c, compose .sqlite "where" "SELECT 1" [] ⟨.and, [[⟨"a", .equal, .int 1, false⟩]]⟩ ⟨[]⟩
        .unbounded = .ok c ∧
      c.sql = "SELECT count(*) OVER() AS where, 1 WHERE (a = ?1)" ∧
      ¬∃ f, Restricts .sqlite 1 (predicateTokens .sqlite (bytes "SELECT 1"))
        ⟨.and, [[⟨"a", .equal, .int 1, false⟩]]⟩ (predicateTokens .sqlite (bytes c.sql)) f) ∧
    (∃ c, compose .sqlite "n" "SELECT 1 FROM t ORDER BY b WHERE c" []
        ⟨.and, [[⟨"a", .equal, .int 1, false⟩]]⟩ ⟨[⟨"where", .ascending, false⟩]⟩
        .unbounded = .ok c ∧
      c.sql = "SELECT count(*) OVER() AS n, 1 FROM t ORDER BY where ASC, b " ++
        "WHERE (c) AND (a = ?1)" ∧
      ¬∃ f, Restricts .sqlite 1
        (predicateTokens .sqlite (bytes "SELECT 1 FROM t ORDER BY b WHERE c"))
        ⟨.and, [[⟨"a", .equal, .int 1, false⟩]]⟩ (predicateTokens .sqlite (bytes c.sql)) f) ∧
    (∃ c, compose .sqlite "n" "SELECT 1" [] ⟨.and, [[⟨"a", .equal, .int 1, false⟩]]⟩
        ⟨[⟨"from", .ascending, false⟩]⟩ .unbounded = .ok c ∧
      c.sql = "SELECT count(*) OVER() AS n, 1 WHERE (a = ?1) ORDER BY from ASC" ∧
      ¬∃ f, Restricts .sqlite 1 (predicateTokens .sqlite (bytes "SELECT 1"))
        ⟨.and, [[⟨"a", .equal, .int 1, false⟩]]⟩ (predicateTokens .sqlite (bytes c.sql)) f) ∧
    ∃ c, compose .sqlite "n" "SELECT 1" [] ⟨.and, [[⟨"a", .equal, .int 1, false⟩]]⟩
        ⟨[⟨"b, from", .ascending, false⟩]⟩ .unbounded = .ok c ∧
      c.sql = "SELECT count(*) OVER() AS n, 1 WHERE (a = ?1) ORDER BY b, from ASC" ∧
      ¬∃ f, Restricts .sqlite 1 (predicateTokens .sqlite (bytes "SELECT 1"))
        ⟨.and, [[⟨"a", .equal, .int 1, false⟩]]⟩ (predicateTokens .sqlite (bytes c.sql)) f := by
  have hcolumn : compose .sqlite "where" "SELECT 1" [] ⟨.and, [[⟨"a", .equal, .int 1, false⟩]]⟩ ⟨[]⟩
      .unbounded = .ok ⟨[.kept "SELECT", .added " count(*) OVER() AS where,", .kept " 1",
        .added " WHERE (a = ?1)", .kept ""], [.int 1], "where", 7⟩ := by
    cbv
  have hformer : compose .sqlite "n" "SELECT 1 FROM t ORDER BY b WHERE c" []
      ⟨.and, [[⟨"a", .equal, .int 1, false⟩]]⟩ ⟨[⟨"where", .ascending, false⟩]⟩ .unbounded =
        .ok ⟨[.kept "SELECT", .added " count(*) OVER() AS n,", .kept " 1 FROM t ORDER BY",
          .added " where ASC,", .kept " b WHERE ", .added "(", .kept "c", .added ") AND (a = ?1)",
          .kept ""], [.int 1], "n", 7⟩ := by
    cbv
  have hlatter : compose .sqlite "n" "SELECT 1" [] ⟨.and, [[⟨"a", .equal, .int 1, false⟩]]⟩
      ⟨[⟨"from", .ascending, false⟩]⟩ .unbounded =
        .ok ⟨[.kept "SELECT", .added " count(*) OVER() AS n,", .kept " 1", .added " WHERE (a = ?1)",
          .kept "", .added " ORDER BY from ASC", .kept ""], [.int 1], "n", 7⟩ := by
    cbv
  have htext : compose .sqlite "n" "SELECT 1" [] ⟨.and, [[⟨"a", .equal, .int 1, false⟩]]⟩
      ⟨[⟨"b, from", .ascending, false⟩]⟩ .unbounded =
        .ok ⟨[.kept "SELECT", .added " count(*) OVER() AS n,", .kept " 1", .added " WHERE (a = ?1)",
          .kept "", .added " ORDER BY b, from ASC", .kept ""], [.int 1], "n", 7⟩ := by
    cbv
  refine ⟨by decide +kernel, ⟨_, hcolumn, by decide +kernel, not_restricts ?_⟩,
    ⟨_, hformer, by decide +kernel, not_restricts ?_⟩,
    ⟨_, hlatter, by decide +kernel, not_restricts ?_⟩,
    ⟨_, htext, by decide +kernel, not_restricts ?_⟩⟩
  all_goals decide +kernel

end Listing
