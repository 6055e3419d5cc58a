import Listing.CommandLine.Run
import Listing.Proofs.Clauses
import Listing.Proofs.Failures
import Mathlib

/-!
# Statements with and without a page

A request is prepared with the page that it asks for, and the command line can also compose it
without (`CommandLine.composeUnbounded`). `CommandLine.composeUnbounded_agrees`: the two go apart in
nothing but the limit at the end of the statement, and in what they say of a base statement that
limits its rows itself (`Paginates`).
-/

namespace Listing

open Text

/-! ## Base statements that limit their rows -/

namespace Outline

variable {text : List UInt8} {A C : List Word} {w : Word}

theorem first?_eq_none_iff {k : Keyword} {a : String} (hparts : k.parts = [a]) {position : Nat} :
    (Outline.of text).first? k position = none ↔
      ∀ w ∈ (Outline.of text).words, position ≤ w.start → w.spells a = false := by
  rw [first?, List.head?_eq_none_iff, List.eq_nil_iff_forall_not_mem]
  constructor
  · intro h w hw hle
    by_contra hspells
    exact h _ (mem_places_of_word hparts hw hle (Bool.not_eq_false _ ▸ hspells))
  · intro h p hp
    obtain ⟨hle, k', hk', hoccurs⟩ := mem_places.1 hp
    obtain rfl := List.mem_singleton.1 hk'
    obtain ⟨w, hw, v, -, rfl, ⟨b, hb, hspells⟩, -⟩ := hoccurs.words
    obtain rfl : a = b := by simpa [hparts] using hb
    rw [h w hw hle] at hspells
    cases hspells

/-- The words that the clauses of a statement are among: those behind its first FROM, or behind
SELECT if there is no FROM. -/
inductive ClauseWords (text : List UInt8) : List Word → Prop
  | behindFrom {A B C : List Word} {select table : Word}
    (h : Clauses text A select B table C) : ClauseWords text C
  | behindSelect {A C : List Word} {select : Word}
    (hwords : (Outline.of text).words = A ++ select :: C)
    (noSelect : ∀ w ∈ A, w.spells "select" = false) (isSelect : select.spells "select" = true)
    (noFrom : ∀ w ∈ C, w.spells "from" = false) : ClauseWords text C

/-- There are such words wherever there is a SELECT. -/
theorem exists_clauseWords {p : Place} (hp : (Outline.of text).first? .select 0 = some p) :
    ∃ C, ClauseWords text C := by
  obtain ⟨A, select, C, hwords, rfl, -, hselect, hA⟩ := exists_of_head?_places rfl hp
  have hnoSelect : ∀ w ∈ A, w.spells "select" = false := fun w hw => hA w hw (Nat.zero_le _)
  cases hfrom : (Outline.of text).first? .from select.stop with
  | some table =>
    have hclauses : (Outline.of text).clauseWords? =
        some ((Outline.of text).words.filter (table.stop ≤ ·.start)) := by
      rw [clauseWords?, hp]
      simp only [Option.bind_eq_bind, Option.bind_some, hfrom]
    obtain ⟨_, _, _, _, h⟩ := exists_clauses hclauses
    exact ⟨_, .behindFrom h⟩
  | none =>
    refine ⟨C, .behindSelect hwords hnoSelect hselect fun w hw => ?_⟩
    rw [← filter_stop_le hwords, List.mem_filter, decide_eq_true_iff] at hw
    exact (first?_eq_none_iff rfl).1 hfrom w hw.1 hw.2

/-- What limits the rows is a word, at or behind a position. -/
theorem exists_paging_iff {position : Nat} :
    ((Outline.of text).earliest? Keyword.paging position).isSome = true ↔
      ∃ w ∈ (Outline.of text).words, position ≤ w.start ∧
        ∃ name ∈ ["limit", "offset", "fetch"], w.spells name = true := by
  have hnames : ∀ k ∈ Keyword.paging, ∃ name ∈ ["limit", "offset", "fetch"], k.parts = [name] := by
    decide +kernel
  have hkeywords : ∀ name ∈ ["limit", "offset", "fetch"], ∃ k ∈ Keyword.paging,
      k.parts = [name] := by
    decide +kernel
  constructor
  · intro h
    obtain ⟨p, hp⟩ := Option.isSome_iff_exists.1 h
    obtain ⟨hle, k, hk, hoccurs⟩ := mem_places.1 (List.mem_of_head? hp)
    obtain ⟨w, hw, v, -, rfl, ⟨a, ha, hspells⟩, -⟩ := hoccurs.words
    obtain ⟨name, hname, hparts⟩ := hnames k hk
    obtain rfl : name = a := by simpa [hparts] using ha
    exact ⟨w, hw, hle, name, hname, hspells⟩
  · rintro ⟨w, hw, hle, name, hname, hspells⟩
    obtain ⟨k, hk, hparts⟩ := hkeywords name hname
    obtain ⟨A, B, hwords⟩ := List.append_of_mem hw
    have hplace : ⟨w.start, w.stop, w.before⟩ ∈
        places Keyword.paging position (Outline.of text).words :=
      mem_places.2 ⟨hle, k, hk, .single hparts hwords hspells⟩
    exact List.isSome_head?.2 (List.ne_nil_of_mem hplace)

end Outline

/-- Whether a statement limits its rows: with a LIMIT, an OFFSET or a FETCH among its clauses. -/
def Paginates (text : List UInt8) : Prop :=
  ∃ C, Outline.ClauseWords text C ∧
    ∃ w ∈ C, ∃ name ∈ ["limit", "offset", "fetch"], w.spells name = true

namespace Site

open Outline

variable {countAlias : String} {text : List UInt8} {site : Site} {C : List Word}

theorem filter_scope_le (h : locate countAlias text = .ok site)
    (hC : Outline.ClauseWords text C) :
    (Outline.of text).words.filter (site.scope ≤ ·.start) = C := by
  obtain ⟨p, hp, -, -, hscope, -⟩ := locate_ok h
  cases hC with
  | @behindFrom A B C select table hclauses =>
    obtain rfl := Option.some.inj (hp.symm.trans hclauses.first_select)
    rw [hclauses.first_from] at hscope
    rw [hscope]
    exact hclauses.behind
  | @behindSelect A C select hwords noSelect isSelect noFrom =>
    have hselect : (Outline.of text).first? .select 0 =
        some ⟨select.start, select.stop, select.before⟩ := by
      rw [first?, hwords]
      exact head?_places_single rfl (fun w hw _ => noSelect w hw) (Nat.zero_le _) isSelect
    obtain rfl := Option.some.inj (hp.symm.trans hselect)
    have hfrom : (Outline.of text).first? .from select.stop = none := by
      refine (first?_eq_none_iff rfl).2 fun w hw hle => noFrom w ?_
      rw [← filter_stop_le hwords, List.mem_filter, decide_eq_true_iff]
      exact ⟨hw, hle⟩
    rw [hfrom] at hscope
    rw [hscope]
    exact filter_stop_le hwords

theorem paging?_isSome_iff (h : locate countAlias text = .ok site) :
    site.paging?.isSome = true ↔ Paginates text := by
  have hmem {C : List Word} (hC : ClauseWords text C) (w : Word) :
      w ∈ C ↔ w ∈ (Outline.of text).words ∧ site.scope ≤ w.start := by
    rw [← filter_scope_le h hC, List.mem_filter, decide_eq_true_iff]
  rw [paging?, outline_eq h, exists_paging_iff]
  constructor
  · rintro ⟨w, hw, hle, hname⟩
    obtain ⟨p, hp, -⟩ := locate_ok h
    obtain ⟨C, hC⟩ := exists_clauseWords hp
    exact ⟨C, hC, w, (hmem hC w).2 ⟨hw, hle⟩, hname⟩
  · rintro ⟨C, hC, w, hw, hname⟩
    obtain ⟨hw, hle⟩ := (hmem hC w).1 hw
    exact ⟨w, hw, hle, hname⟩

end Site

/-! ## What a limit is refused for -/

/-- What a base statement is refused for without a limit, it is refused for with one. -/
theorem refusal?_bounded {countAlias base : String} {e : Error}
    (h : refusal? countAlias base false = some e) : refusal? countAlias base true = some e := by
  unfold refusal? at h ⊢
  cases hsite : Site.locate countAlias (bytes base) with
  | error cause =>
    rw [hsite] at h
    exact h
  | ok site =>
    rw [hsite] at h
    cases h

/-- With a limit, it may only be refused for one of its own besides. -/
theorem refusal?_bounded_iff {countAlias base : String} {e : Error}
    (h : refusal? countAlias base false = none) :
    refusal? countAlias base true = some e ↔
      e = .unsupported .ownPaging ∧ Paginates (bytes base) := by
  unfold refusal? at h ⊢
  cases hsite : Site.locate countAlias (bytes base) with
  | error cause =>
    rw [hsite] at h
    cases h
  | ok site =>
    rw [← Site.paging?_isSome_iff hsite]
    by_cases hpaging : site.paging?.isSome = true
    · simp only [hpaging, Bool.and_self, ↓reduceIte, Option.some.injEq, and_true]
      exact eq_comm
    · simp [hpaging]

/-! ## The two ways to compose a request -/

namespace CommandLine

/-- Without a page a request fails for the same reasons, but for a limit of the base statement. -/
theorem error?_composeUnbounded (dialect : Dialect) (config : Config) (base : String)
    (request : Request) (baseParams : List Value) :
    error? (composeUnbounded dialect config base request baseParams) =
      (request.filters.findSome? (Filter.fault? config)).or
        (refusal? config.countAlias base false) := by
  rw [← FilterSpec.error?_whereClause config request.filters request.search]
  cases hclause : (FilterSpec.ofRequest config request.filters request.search).whereClause
      config with
  | error e =>
    simp only [composeUnbounded, bind, Except.bind, hclause]
    rfl
  | ok clause =>
    simp only [composeUnbounded, bind, Except.bind, hclause]
    rw [error?_compose, error?, Option.none_or]
    rfl

/-- What can be prepared can be composed without its page, and the page is all that is missing. -/
theorem composeUnbounded_of_prepare {dialect : Dialect} {config : Config} {base : String}
    {request : Request} {baseParams : List Value} {prepared : Prepared}
    (h : Model.prepare ⟨dialect, config, base, baseParams⟩ request = .ok prepared) :
    ∃ c, composeUnbounded dialect config base request baseParams = .ok c ∧
      c.params = prepared.query.params ∧ c.countAlias = prepared.query.countAlias ∧
      c.countPosition = prepared.query.countPosition ∧
      prepared.query.sql = c.sql ++ prepared.pagination.bound.suffix := by
  obtain ⟨hfilters, hsorts, -, clause, hclause, hcompose⟩ := Model.prepare_ok h
  obtain ⟨c, hc, hparams, halias, hposition, hsql⟩ := compose_unbounded hcompose
  refine ⟨c, ?_, hparams, halias, hposition, hsql⟩
  rw [hfilters] at hclause
  rw [hsorts] at hc
  simp only [composeUnbounded, bind, Except.bind, hclause]
  exact hc

/-- **A request is composed alike with its page and without.** With the page the statement ends in
its limit and is the same otherwise; what cannot be composed without cannot be prepared, for the
same reason; and what can be composed without is refused for nothing but a limit of the base
statement. -/
theorem composeUnbounded_agrees (dialect : Dialect) (config : Config) (base : String)
    (baseParams : List Value) (request : Request) :
    let model : Model := ⟨dialect, config, base, baseParams⟩
    let page := Pagination.ofRequest config request.page request.limit
    (∀ prepared, model.prepare request = .ok prepared →
      ∃ c, composeUnbounded dialect config base request baseParams = .ok c ∧
        c.params = prepared.query.params ∧ c.countAlias = prepared.query.countAlias ∧
        c.countPosition = prepared.query.countPosition ∧
        prepared.query.sql =
          c.sql ++ (" LIMIT " ++ toString page.limit ++ " OFFSET " ++ toString page.offset)) ∧
    (∀ e, composeUnbounded dialect config base request baseParams = .error e →
      model.prepare request = .error e) ∧
    ∀ c, composeUnbounded dialect config base request baseParams = .ok c →
      ∀ e, model.prepare request = .error e ↔
        e = .unsupported .ownPaging ∧ Paginates (bytes base) := by
  intro model page
  have hprepare := model.error?_prepare request
  have hunbounded := error?_composeUnbounded dialect config base request baseParams
  refine ⟨fun prepared h => ?_, fun e h => ?_, fun c h e => ?_⟩
  · obtain ⟨c, hc, hparams, halias, hposition, hsql⟩ := composeUnbounded_of_prepare h
    rw [(Model.prepare_ok h).2.2.1] at hsql
    exact ⟨c, hc, hparams, halias, hposition, hsql⟩
  · rw [error?_eq_some.2 h] at hunbounded
    rw [← error?_eq_some, hprepare, Option.or_eq_some_iff]
    rcases Option.or_eq_some_iff.1 hunbounded.symm with hfault | ⟨hfault, hrefusal⟩
    · exact .inl hfault
    · exact .inr ⟨hfault, refusal?_bounded hrefusal⟩
  · rw [error?_eq_none.2 ⟨c, h⟩] at hunbounded
    obtain ⟨hfault, hrefusal⟩ := Option.or_eq_none_iff.1 hunbounded.symm
    rw [← error?_eq_some, hprepare, hfault, Option.none_or]
    exact refusal?_bounded_iff hrefusal

/-- A base statement with a limit of its own keeps it without a page, and is refused with one; any
other gets the limit of the page. -/
theorem composeUnbounded_agrees_limited :
    let request : Request :=
      { filters := [("a:equals", "x")], page := some "3", limit := some "10" }
    ∃ c c' prepared,
      composeUnbounded .sqlite .default "SELECT a FROM t LIMIT 5" request [] = .ok c ∧
      c.sql = "SELECT count(*) OVER() AS _zf_count, a FROM t WHERE (a = ?1) LIMIT 5" ∧
      Model.prepare ⟨.sqlite, .default, "SELECT a FROM t LIMIT 5", []⟩ request =
        .error (.unsupported .ownPaging) ∧
      Paginates (bytes "SELECT a FROM t LIMIT 5") ∧
      Model.prepare ⟨.sqlite, .default, "SELECT a FROM t", []⟩ request = .ok prepared ∧
      composeUnbounded .sqlite .default "SELECT a FROM t" request [] = .ok c' ∧
      prepared.query.sql = c'.sql ++ " LIMIT 10 OFFSET 20" := by
  intro request
  obtain ⟨-, -, hlimited⟩ :=
    composeUnbounded_agrees .sqlite .default "SELECT a FROM t LIMIT 5" [] request
  obtain ⟨hpaged, -⟩ := composeUnbounded_agrees .sqlite .default "SELECT a FROM t" [] request
  have hsql : (composeUnbounded .sqlite .default "SELECT a FROM t LIMIT 5" request
      []).toOption.map (·.sql) =
        some "SELECT count(*) OVER() AS _zf_count, a FROM t WHERE (a = ?1) LIMIT 5" := by
    cbv
  have hrefused : Model.prepare ⟨.sqlite, .default, "SELECT a FROM t LIMIT 5", []⟩ request =
      .error (.unsupported .ownPaging) := by
    cbv
  have hprepared : (Model.prepare ⟨.sqlite, .default, "SELECT a FROM t", []⟩
      request).toOption.map (·.pagination.page) = some 3 := by
    cbv
  have hpage :
      " LIMIT " ++ toString (Pagination.ofRequest .default request.page request.limit).limit ++
        " OFFSET " ++ toString (Pagination.ofRequest .default request.page request.limit).offset =
          " LIMIT 10 OFFSET 20" := by
    cbv
  obtain ⟨c, hc, hsql⟩ := exists_ok_of_map hsql
  obtain ⟨prepared, hp, -⟩ := exists_ok_of_map hprepared
  obtain ⟨c', hc', -, -, -, hlimit⟩ := hpaged prepared hp
  rw [hpage] at hlimit
  exact ⟨c, c', prepared, hc, hsql, hrefused, ((hlimited c hc _).1 hrefused).2, hp, hc', hlimit⟩

end CommandLine

end Listing
