import Listing.CommandLine.Run
import Listing.Proofs.Dialects
import Listing.Proofs.JsonTexts
import Listing.Proofs.Trailers

/-!
# Parameters in comment lines

A statement is printed with a line for each parameter. Such a line is one comment with its line
break, whatever the value is (`CommandLine.isComment_paramLine`), so that the lines together are a
gap behind the statement. All parameters of a statement that a command composes are texts
(`ComposeCommand.Composes.params`): those that the command is given, and those that a request is
compiled to.

`ComposeCommand.output_annotates`: what a command prints is the statement and for each parameter, in
order, a line that tells its placeholder and its text, and that no text can leave.
-/

namespace Listing

open Text

/-! ## Values that are texts -/

/-- Whether a value is a text. -/
def Value.IsText (v : Value) : Prop := ∃ s, v = .text s

namespace Condition

/-- A condition with a text binds texts: the text, or the pattern that is made of it. -/
theorem isText_params {c : Condition} {s : String} (d : Dialect) (n : Nat)
    (h : c.value = .text s) : ∀ v ∈ (c.render d n).params, v.IsText := by
  obtain ⟨column, comparison, value, caseSensitive⟩ := c
  obtain rfl : value = .text s := h
  cases comparison <;> simp [render, Comparison.isPattern, Value.IsText]

end Condition

/-- A filter binds texts. -/
theorem Filter.isText_params {f : Filter} {c : Condition} (d : Dialect) (n : Nat)
    (h : f.compile = .ok c) : ∀ v ∈ (c.render d n).params, v.IsText := by
  by_cases hbetween : f.operator = .between
  · obtain ⟨field, column, operator, value⟩ := f
    obtain rfl : operator = .between := hbetween
    cases value with
    | single raw => cases h
    | range low high =>
      cases h
      simp [Condition.render, FilterOperator.comparison, Value.IsText]
  · rw [compile_of_ne_between hbetween] at h
    cases h
    exact Condition.isText_params d n rfl

/-- So does all that a request asks for. -/
theorem FilterSpec.isText_params {config : Config} {spec : FilterSpec} {clause : WhereClause}
    (d : Dialect) (n : Nat) (h : spec.whereClause config = .ok clause) :
    ∀ v ∈ (clause.render d n).params, v.IsText := by
  obtain ⟨filterGroups, searchGroups, hgroups, hfilters, hsearch⟩ := whereClause_ok h
  rw [clause.params_render]
  intro v hv
  obtain ⟨c, hc, hmem⟩ := List.mem_flatMap.1 hv
  rw [WhereClause.conditions, hgroups] at hc
  obtain ⟨group, hgroup, hc⟩ := List.mem_flatten.1 hc
  rcases List.mem_append.1 hgroup with hgroup | hgroup
  · obtain ⟨f, -, hcompile⟩ := hfilters group hgroup c hc
    exact Filter.isText_params d 0 hcompile v hmem
  · rcases hsearch with rfl | ⟨term, -, rfl⟩
    · cases hgroup
    · obtain rfl := List.mem_singleton.1 hgroup
      obtain ⟨column, -, rfl⟩ := List.mem_map.1 hc
      exact Condition.isText_params d 0 rfl v hmem

/-! ## Composed statements end in code -/

/-- A statement that is composed from a balanced base ends in code. -/
theorem endsInCode_of_compose {dialect : Dialect} {countAlias base : String}
    {baseParams : List Value} {clause : WhereClause} {order : OrderBy} {limit : Limit}
    {c : Composed} (hbalanced : Balanced (bytes base))
    (halias : Identifier.isPlain countAlias = true)
    (hclause : ∀ column ∈ clause.columns, Identifier.isQualified column = true)
    (horder : ∀ column ∈ order.columns, Identifier.isQualified column = true)
    (h : compose dialect countAlias base baseParams clause order limit = .ok c) :
    EndsInCode (bytes c.sql) := by
  obtain ⟨site, pieces, hsite, -, hpieces, hc, -⟩ := compose_ok h
  have hsound := Site.sound_edits hbalanced hsite halias
    (fun hne => WhereClause.enclosed_render dialect (baseParams.length + 1) hne hclause) horder
    limit
  obtain ⟨qs, hqs, hsame⟩ := Edit.piecesFrom_limit hpieces limit
  rw [List.length_take, Nat.min_eq_left (Outline.codeEnd_le _)] at hqs
  have hafter := Edit.after_pieces hsound hqs
  rw [EndsInCode, c.bytes_sql, hc, ← hsame.flatMap rfl, hafter]

/-- What stands in a gap behind a line break adds no token to a text that ends in code. -/
theorem tokenLexemes_append_gap {u v : List UInt8} (hu : EndsInCode u)
    (hv : Gap (Ascii.newline :: v)) : tokenLexemes (u ++ Ascii.newline :: v) = tokenLexemes u := by
  have hseam : Seam u (Ascii.newline :: v) :=
    .of_startsTrailer fun b hb => by rw [← Option.some.inj hb]; rfl
  have hnone := hv.tokenLexemes_append []
  rw [List.append_nil] at hnone
  rw [tokenLexemes, lexemes_append hu hseam.apart, List.filter_append, ← tokenLexemes,
    ← tokenLexemes, hnone, tokenLexemes, tokenLexemes, lexemes_nil]
  exact List.append_nil _

namespace CommandLine

/-! ## Comment lines -/

/-- The line of a parameter without its line break. -/
def paramComment (d : Dialect) (n : Nat) (value : Value) : String :=
  "-- " ++ d.placeholder n ++ " = " ++ value.toJson.compact

theorem paramLine_eq (d : Dialect) (n : Nat) (value : Value) :
    paramLine d n value = paramComment d n value ++ "\n" := rfl

theorem oneLine_paramComment (d : Dialect) (n : Nat) (value : Value) :
    OneLine (paramComment d n value) := by
  have hplaceholder : OneLine (d.placeholder n) := .append (by cases d <;> decide) (.nat n)
  exact .append (.append (.append (by decide) hplaceholder) (by decide)) value.oneLine_compact

/-- The line of a parameter is a comment up to its line break, whatever the value is. -/
theorem isComment_paramLine (d : Dialect) (n : Nat) (value : Value) :
    IsComment (bytes (paramLine d n value)) := by
  have hfront : bytes "-- " = [Ascii.hyphen, Ascii.hyphen, Ascii.space] := rfl
  have hbytes : bytes (paramComment d n value) = Ascii.hyphen :: Ascii.hyphen :: Ascii.space ::
      bytes (d.placeholder n ++ " = " ++ value.toJson.compact) := by
    simp only [paramComment, bytes_append, hfront, List.append_assoc, List.cons_append,
      List.nil_append]
  have hline := (oneLine_paramComment d n value).newline_not_mem
  rw [hbytes] at hline
  have hcomment := IsComment.line fun hmem =>
    hline (List.mem_cons_of_mem _ (List.mem_cons_of_mem _ hmem))
  rw [← List.cons_append, ← List.cons_append, ← hbytes] at hcomment
  rw [paramLine_eq, bytes_append]
  exact hcomment

theorem gap_paramLines (d : Dialect) (n : Nat) (values : List Value) :
    Gap (bytes (paramLines d n values)) := by
  induction values generalizing n with
  | nil => exact .nil
  | cons value values ih =>
    rw [paramLines, bytes_append]
    exact (isComment_paramLine d n value).gap.join (ih (n + 1))

/-- The lines of parameters, the first one numbered `n`, without their line breaks. -/
def paramComments (d : Dialect) (n : Nat) (values : List Value) : List String :=
  values.mapIdx fun i value => paramComment d (n + i) value

theorem paramLines_eq_join (d : Dialect) (n : Nat) (values : List Value) :
    paramLines d n values = String.join ((paramComments d n values).map (· ++ "\n")) := by
  induction values generalizing n with
  | nil => rfl
  | cons value values ih =>
    have hshift : (fun i value => paramComment d (n + (i + 1)) value) =
        fun i value => paramComment d (n + 1 + i) value := by
      funext i value
      rw [Nat.add_assoc, Nat.add_comm 1 i]
    rw [paramLines, ih, paramComments, paramComments, List.mapIdx_cons, hshift, List.map_cons,
      String.join_cons, paramLine_eq]
    rfl

/-- A statement with lines that tell its parameters, all of them texts. -/
structure Annotates (d : Dialect) (query : Composed) (lines : List String) (output : String) :
    Prop where
  /-- The statement and the lines, with a line break behind it and behind each of them. -/
  output : output = query.sql ++ "\n" ++ String.join (lines.map (· ++ "\n"))
  /-- There is a line for each parameter. -/
  length : lines.length = query.params.length
  /-- There is no other line break. -/
  oneLine : ∀ line ∈ lines, OneLine line
  /-- Behind its placeholder a text stands as JSON on one line, which is read as the text. -/
  tells : ∀ i line, lines[i]? = some line → ∃ json s,
    line = "-- " ++ d.placeholder (i + 1) ++ " = " ++ json ∧ OneLine json ∧
      Json.string? json = some s ∧ query.params[i]? = some (.text s)

theorem annotates_annotated (d : Dialect) {query : Composed}
    (h : ∀ v ∈ query.params, v.IsText) :
    Annotates d query (paramComments d 1 query.params) (annotated d query) := by
  refine ⟨?_, List.length_mapIdx, fun line hline => ?_, fun i line hline => ?_⟩
  · rw [annotated, paramLines_eq_join]
  · obtain ⟨i, hi, rfl⟩ := List.mem_mapIdx.1 hline
    exact oneLine_paramComment d _ _
  · rw [paramComments, List.getElem?_mapIdx] at hline
    obtain ⟨value, hvalue, rfl⟩ := Option.map_eq_some_iff.1 hline
    obtain ⟨s, rfl⟩ := h value (List.mem_of_getElem? hvalue)
    refine ⟨Json.quote s, s, ?_, Json.oneLine_quote s, Json.string?_quote s, hvalue⟩
    rw [Nat.add_comm]
    rfl

/-- To a statement that ends in code its lines add no token, so they are nothing to a database. -/
theorem tokenLexemes_annotated (d : Dialect) {query : Composed}
    (h : EndsInCode (bytes query.sql)) :
    tokenLexemes (bytes (annotated d query)) = tokenLexemes (bytes query.sql) := by
  have hgap : Gap (Ascii.newline :: bytes (paramLines d 1 query.params)) :=
    (Gap.blank rfl).join (gap_paramLines d 1 query.params)
  rw [← tokenLexemes_append_gap h hgap, annotated, bytes_append, bytes_append, List.append_assoc]
  rfl

/-! ## Printed commands -/

namespace ComposeCommand

/-- The statement that a command composes from a configuration and a base statement: that of the
page it asks for, or all of it. -/
inductive Composes (c : ComposeCommand) (config : Config) (base : String) : Composed → Prop
  | page {prepared : Prepared} (hpage : c.unbounded = false)
    (h : Model.prepare ⟨c.dialect, config, base, c.params.map .text⟩ c.request = .ok prepared) :
    Composes c config base prepared.query
  | whole {query : Composed} (hwhole : c.unbounded = true)
    (h : composeUnbounded c.dialect config base c.request (c.params.map .text) = .ok query) :
    Composes c config base query

variable {c : ComposeCommand} {config : Config} {base output : String} {query : Composed}

/-- A command prints what it composes, and fails if it composes nothing. -/
theorem output_eq_ok_iff : c.output config base = .ok output ↔
    ∃ query, c.Composes config base query ∧
      output = if c.json then asJson query else annotated c.dialect query := by
  constructor
  · intro h
    unfold ComposeCommand.output at h
    dsimp only at h
    cases hwhole : c.unbounded with
    | true =>
      rw [hwhole, if_pos rfl] at h
      cases hquery : composeUnbounded c.dialect config base c.request (c.params.map .text) with
      | error e =>
        rw [hquery] at h
        cases h
      | ok query =>
        rw [hquery] at h
        exact ⟨query, .whole hwhole hquery, (Except.ok.inj h).symm⟩
    | false =>
      rw [hwhole, if_neg Bool.false_ne_true] at h
      cases hprepare :
        Model.prepare ⟨c.dialect, config, base, c.params.map .text⟩ c.request with
      | error e =>
        rw [hprepare] at h
        cases h
      | ok prepared =>
        rw [hprepare] at h
        exact ⟨prepared.query, .page hwhole hprepare, (Except.ok.inj h).symm⟩
  · rintro ⟨query, hcomposes, rfl⟩
    unfold ComposeCommand.output
    cases hcomposes with
    | page hpage h =>
      simp only [hpage, Bool.false_eq_true, ↓reduceIte, h]
      rfl
    | whole hwhole h => simp only [hwhole, ↓reduceIte, h]

/-- What a command composes is a statement for the clauses of its request. -/
theorem Composes.exists_compose (h : c.Composes config base query) :
    ∃ clause limit,
      (FilterSpec.ofRequest config c.request.filters c.request.search).whereClause config =
        .ok clause ∧
      compose c.dialect config.countAlias base (c.params.map .text) clause
        (SortSpec.ofRequest config c.request.sorts).orderBy limit = .ok query := by
  cases h with
  | page _ h =>
    obtain ⟨hfilters, hsorts, -, clause, hclause, hcompose⟩ := Model.prepare_ok h
    rw [hfilters] at hclause
    rw [hsorts] at hcompose
    exact ⟨clause, _, hclause, hcompose⟩
  | whole _ h =>
    simp only [composeUnbounded, bind, Except.bind] at h
    split at h
    · cases h
    · rename_i clause hclause
      exact ⟨clause, _, hclause, h⟩

/-- The values that a command is given come first among the parameters, and all of these are texts.
-/
theorem Composes.params (h : c.Composes config base query) :
    c.params.map .text <+: query.params ∧ ∀ v ∈ query.params, v.IsText := by
  obtain ⟨clause, limit, hclause, hcompose⟩ := h.exists_compose
  obtain ⟨-, -, -, -, -, -, hparams, -⟩ := compose_ok hcompose
  rw [hparams, List.forall_mem_append]
  refine ⟨List.prefix_append _ _, fun v hv => ?_, FilterSpec.isText_params _ _ hclause⟩
  obtain ⟨s, -, rfl⟩ := List.mem_map.1 hv
  exact ⟨s, rfl⟩

theorem Composes.endsInCode (h : c.Composes config base query) (hbalanced : Balanced (bytes base)) :
    EndsInCode (bytes query.sql) := by
  obtain ⟨clause, limit, hclause, hcompose⟩ := h.exists_compose
  refine endsInCode_of_compose hbalanced config.sound.plain_countAlias (fun column hcolumn => ?_)
    (fun column hcolumn => (SortSpec.vetted_columns hcolumn).1) hcompose
  obtain ⟨group, hgroup, hmem⟩ := List.mem_flatMap.1 hcolumn
  obtain ⟨b, hb, rfl⟩ := List.mem_map.1 hmem
  exact (FilterSpec.clause_sound hclause group hgroup b hb).1

/-- **No value leaves its comment line.** What a command prints, unless in JSON, is the statement
that it composes with a line for each parameter that tells its text; and from a balanced base, the
tokens of all that is printed are those of the statement. -/
theorem output_annotates (hjson : c.json = false) (h : c.output config base = .ok output) :
    ∃ query lines, c.Composes config base query ∧ c.params.map .text <+: query.params ∧
      Annotates c.dialect query lines output ∧
      (Balanced (bytes base) → tokenLexemes (bytes output) = tokenLexemes (bytes query.sql)) := by
  obtain ⟨query, hcomposes, houtput⟩ := output_eq_ok_iff.1 h
  rw [hjson, if_neg Bool.false_ne_true] at houtput
  subst houtput
  obtain ⟨hgiven, htexts⟩ := hcomposes.params
  exact ⟨query, _, hcomposes, hgiven, annotates_annotated c.dialect htexts,
    fun hbalanced => tokenLexemes_annotated c.dialect (hcomposes.endsInCode hbalanced)⟩

/-- A text and a needle that would end their line and go on in SQL. -/
theorem output_annotates_hostile :
    let c : ComposeCommand :=
      { config := none
        base := .text "SELECT a FROM t WHERE b = ?1"
        dialect := .sqlite
        request := { filters := [("a:contains", "x%\r\n; \"\\--")] }
        params := ["\n DROP TABLE t"]
        unbounded := true
        json := false }
    ∃ output, c.output .default "SELECT a FROM t WHERE b = ?1" = .ok output ∧
      output = "SELECT count(*) OVER() AS _zf_count, a FROM t WHERE (b = ?1) AND " ++
        "(a LIKE ?2 ESCAPE '\\')\n-- ?1 = \"\\n DROP TABLE t\"\n" ++
        "-- ?2 = \"%x\\\\%\\r\\n; \\\"\\\\\\\\--%\"\n" ∧
      ∃ query lines, c.Composes .default "SELECT a FROM t WHERE b = ?1" query ∧
        c.params.map .text <+: query.params ∧ Annotates c.dialect query lines output ∧
        tokenLexemes (bytes output) = tokenLexemes (bytes query.sql) := by
  intro c
  have hquery : composeUnbounded .sqlite .default "SELECT a FROM t WHERE b = ?1"
      { filters := [("a:contains", "x%\r\n; \"\\--")] } [.text "\n DROP TABLE t"] = .ok
        ⟨[.kept "SELECT", .added " count(*) OVER() AS _zf_count,", .kept " a FROM t WHERE ",
          .added "(", .kept "b = ?1", .added ") AND (a LIKE ?2 ESCAPE '\\')", .kept ""],
          [.text "\n DROP TABLE t", .text "%x\\%\r\n; \"\\\\--%"], "_zf_count", 7⟩ := by
    cbv
  have h := output_eq_ok_iff.2 ⟨_, Composes.whole (c := c) rfl hquery, rfl⟩
  obtain ⟨query, lines, hcomposes, hgiven, hannotates, htokens⟩ := output_annotates rfl h
  exact ⟨_, h, by decide +kernel, query, lines, hcomposes, hgiven, hannotates,
    htokens (by decide +kernel)⟩

end ComposeCommand

end CommandLine

end Listing
