import Listing.Model
import Listing.Proofs.RequestPredicate
import Listing.Proofs.Settings
import Listing.Proofs.Settling
import Listing.Proofs.Tokens

/-!
# Only vetted names reach SQL text

Where the columns of a prepared listing come from. A column of a filter or a sort is what a name of
the request means (`Config.Requested`): the name is in the whitelist, or a plain identifier if there
is none, and it is an alias of the column or the column itself. A search looks in the configured
columns, and the default sorts apply to a request without sorts. All of them are qualified
identifiers, because the checks of a configuration cover every name that one of these ways leads to
(`Config.Means.isQualified`).

`Model.prepare_vetted`: these columns, the name of the count column, numerals, placeholders and the
fixed words and signs of SQL are all there is in the texts that are added to a base statement.
-/

namespace Listing

open Text

/-! ## Names of a configuration -/

theorem Identifier.isQualified_of_isPlain {s : String} (h : isPlain s = true) :
    isQualified s = true := by
  have hpoint : '.' ∉ s.toList := by
    intro hmem
    rw [isPlain] at h
    cases hs : s.toList with
    | nil =>
      rw [hs] at hmem
      cases hmem
    | cons c cs =>
      rw [hs] at h hmem
      simp only [isPart, Bool.and_eq_true, List.all_eq_true] at h
      rcases List.mem_cons.1 hmem with rfl | hmem
      · exact absurd h.1.2 (by decide)
      · exact absurd (h.2 _ hmem) (by decide)
  rw [isQualified, List.splitOn_eq_singleton hpoint]
  simpa [maxParts, isPlain] using h

namespace Config

variable {config : Config} {field column : String}

/-- Requests may name what is in the whitelist, or any plain identifier if there is no whitelist. -/
def Admits (config : Config) (field : String) : Prop :=
  (∃ columns, config.whitelist = some columns ∧ field ∈ columns.names) ∨
    config.whitelist = none ∧ Identifier.isPlain field = true

/-- A name means the column that it is an alias of, or itself if it is no alias. -/
def Means (config : Config) (field column : String) : Prop :=
  (field, column) ∈ config.aliases.entries ∨ field ∉ config.aliases.keys ∧ column = field

/-- A column that one of some names means, if requests may name it. -/
def Requested (config : Config) (names : List String) (column : String) : Prop :=
  ∃ field ∈ names, config.Admits field ∧ config.Means field column

theorem isAllowed_iff : config.isAllowed field = true ↔ config.Admits field := by
  unfold isAllowed Admits
  cases config.whitelist with
  | none => simp
  | some columns => simp [NameSet.contains_iff]

theorem resolve_eq_iff : config.resolve field = column ↔ config.Means field column := by
  unfold resolve Means
  rw [← NameMap.get?_eq_some_iff, ← NameMap.get?_eq_none_iff]
  cases config.aliases.get? field with
  | none => simp [eq_comm]
  | some target => simp

theorem Admits.isQualified (h : config.Admits field) : Identifier.isQualified field = true := by
  rcases h with ⟨columns, hwhitelist, hmem⟩ | ⟨-, hplain⟩
  · refine config.sound.qualified (.whitelist, field) ?_
    simp [Options.qualifiedNames, hwhitelist, hmem]
  · exact Identifier.isQualified_of_isPlain hplain

/-- What a qualified name means is qualified too. -/
theorem Means.isQualified (h : config.Means field column)
    (hfield : Identifier.isQualified field = true) : Identifier.isQualified column = true := by
  rcases h with hentry | ⟨-, rfl⟩
  · refine config.sound.qualified (.aliases, column) ?_
    have hvalue : column ∈ config.aliases.values := List.mem_map_of_mem hentry
    simp [Options.qualifiedNames, hvalue]
  · exact hfield

theorem Requested.isQualified {names : List String} (h : config.Requested names column) :
    Identifier.isQualified column = true := by
  obtain ⟨field, -, hadmits, hmeans⟩ := h
  exact hmeans.isQualified hadmits.isQualified

theorem isQualified_of_mem_searchable (h : column ∈ config.searchable) :
    Identifier.isQualified column = true :=
  config.sound.qualified (.searchable, column) (by simp [Options.qualifiedNames, h])

theorem isQualified_of_mem_defaultSorts {sort : DefaultSort} (h : sort ∈ config.defaultSorts) :
    Identifier.isQualified sort.column = true :=
  config.sound.qualified (.defaultSorts, sort.column) (by
    simp only [Options.qualifiedNames, List.mem_append, List.mem_map]
    exact .inr ⟨sort, h, rfl⟩)

end Config

/-! ## Filters and searches of a request -/

/-- The groups of a request compare columns that it names, and those configured for a search. -/
theorem FilterSpec.vetted_groups {config : Config} {entries : List (String × String)}
    {search : Option String} {clause : WhereClause}
    (h : (ofRequest config entries search).whereClause config = .ok clause) :
    ∃ filterGroups searchGroups, clause.groups = filterGroups ++ searchGroups ∧
      (∀ group ∈ filterGroups, ∀ c ∈ group,
        config.Requested (entries.map fun entry => (Filter.splitKey entry.1).1) c.column ∧
          (c.comparison = .between → c.value.bounds? = some 2)) ∧
      (searchGroups = [] ∨
        ∃ term, searchTerm config search = some term ∧ searchGroups = [config.search term]) ∧
      ∀ group ∈ searchGroups, ∀ c ∈ group,
        c.column ∈ config.searchable ∧ (c.comparison = .between → c.value.bounds? = some 2) := by
  obtain ⟨filterGroups, searchGroups, hgroups, hfilters, hsearch⟩ := whereClause_ok h
  refine ⟨filterGroups, searchGroups, hgroups, fun group hgroup c hc => ?_, hsearch,
    fun group hgroup c hc => ?_⟩
  · obtain ⟨f, hf, hcompile⟩ := hfilters group hgroup c hc
    obtain ⟨entry, hentry, hfilter⟩ := List.mem_filterMap.1 hf
    obtain ⟨field, name, operator, hkey, -, hallowed, -, rfl⟩ :=
      Filter.parse?_eq_some_iff.1 hfilter
    obtain ⟨hsame, hrange⟩ := Filter.compile_ok hcompile
    have hnamed : field ∈ entries.map fun entry => (Filter.splitKey entry.1).1 :=
      List.mem_map.2 ⟨entry, hentry, by rw [hkey]⟩
    have hmeans := Config.resolve_eq_iff.1 hsame.symm
    exact ⟨⟨field, hnamed, Config.isAllowed_iff.1 hallowed, hmeans⟩, hrange⟩
  · rcases hsearch with rfl | ⟨term, -, rfl⟩
    · cases hgroup
    · obtain rfl := List.mem_singleton.1 hgroup
      obtain ⟨column, hcolumn, rfl⟩ := List.mem_map.1 hc
      exact ⟨hcolumn, fun hbetween => by cases hbetween⟩

/-! ## Sorts of a request -/

namespace SortSpec

variable {config : Config} {raw : List (String × String)}

/-- A sort column is requested, or a default one if the request has no sorts. -/
theorem vetted_columns {a : String} (h : a ∈ (ofRequest config raw).orderBy.columns) :
    Identifier.isQualified a = true ∧ (config.Requested (raw.map (·.1)) a ∨
      raw = [] ∧ ∃ sort ∈ config.defaultSorts, config.Means sort.column a) := by
  obtain ⟨field, hfield, rfl⟩ := List.mem_map.1 h
  obtain ⟨e, he, rfl⟩ := List.mem_map.1 hfield
  unfold columns at he
  split at he
  · rename_i hraw
    obtain ⟨sort, hsort, rfl⟩ := List.mem_map.1 he
    have hmeans := Config.resolve_eq_iff.1 (rfl : config.resolve sort.column = _)
    exact ⟨hmeans.isQualified (Config.isQualified_of_mem_defaultSorts hsort),
      .inr ⟨List.isEmpty_iff.1 hraw, sort, hsort, hmeans⟩⟩
  · obtain ⟨entry, hentry, d, hdirects⟩ :=
      ((settles_settle config raw).mem_iff e.1).1 (List.mem_map_of_mem he)
    have hrequested : config.Requested (raw.map (·.1)) (config.resolve e.1) := by
      refine ⟨e.1, ?_, Config.isAllowed_iff.1 hdirects.allowed, Config.resolve_eq_iff.1 rfl⟩
      rw [← hdirects.names]
      exact List.mem_map_of_mem hentry
    exact ⟨hrequested.isQualified, .inl hrequested⟩

end SortSpec

/-! ## Prepared listings -/

/-- What a prepared listing puts into SQL text, and where it comes from. -/
structure Prepared.Vets (model : Model) (request : Request) (prepared : Prepared)
    (clause : WhereClause) (filterGroups searchGroups : List (List Condition)) : Prop where
  compiled : (FilterSpec.ofRequest model.config request.filters request.search).whereClause
    model.config = .ok clause
  composed : compose model.dialect model.config.countAlias model.base model.baseParams clause
    prepared.sorts.orderBy prepared.pagination.bound = .ok prepared.query
  groups : clause.groups = filterGroups ++ searchGroups
  filterColumns : ∀ group ∈ filterGroups, ∀ c ∈ group, Identifier.isQualified c.column = true ∧
    model.config.Requested (request.filters.map fun entry => (Filter.splitKey entry.1).1) c.column
  /-- There is at most one group of a search. -/
  search : searchGroups = [] ∨ ∃ term,
    FilterSpec.searchTerm model.config request.search = some term ∧
      searchGroups = [model.config.search term]
  searchColumns : ∀ group ∈ searchGroups, ∀ c ∈ group, Identifier.isQualified c.column = true ∧
    c.column ∈ model.config.searchable
  sortColumns : ∀ a ∈ prepared.sorts.orderBy.columns, Identifier.isQualified a = true ∧
    (model.config.Requested (request.sorts.map (·.1)) a ∨
      request.sorts = [] ∧ ∃ sort ∈ model.config.defaultSorts, model.config.Means sort.column a)
  countAlias : Identifier.isPlain model.config.countAlias = true
  /-- All that is not added is the code of the base statement. -/
  kept : prepared.query.pieces.flatMap Piece.keptBytes =
    (bytes model.base).take (Outline.of (bytes model.base)).codeEnd
  added : ∀ t, .added t ∈ prepared.query.pieces → ∀ token ∈ tokens (bytes t),
    Vetted model.dialect (clause.columns ++ prepared.sorts.orderBy.columns) model.config.countAlias
      token

/-- What a prepared listing consists of. -/
theorem Model.prepare_ok {model : Model} {request : Request} {prepared : Prepared}
    (h : model.prepare request = .ok prepared) :
    prepared.filters = FilterSpec.ofRequest model.config request.filters request.search ∧
      prepared.sorts = SortSpec.ofRequest model.config request.sorts ∧
      prepared.pagination = Pagination.ofRequest model.config request.page request.limit ∧
      ∃ clause, prepared.filters.whereClause model.config = .ok clause ∧
        compose model.dialect model.config.countAlias model.base model.baseParams clause
          prepared.sorts.orderBy prepared.pagination.bound = .ok prepared.query := by
  simp only [prepare, query, bind, Except.bind] at h
  cases hclause : (FilterSpec.ofRequest model.config request.filters request.search).whereClause
      model.config with
  | error e =>
    rw [hclause] at h
    cases h
  | ok clause =>
    rw [hclause] at h
    dsimp only at h
    split at h
    · cases h
    · rename_i composed hcompose
      cases h
      exact ⟨rfl, rfl, rfl, clause, hclause, hcompose⟩

/-- **All names that reach the SQL text of a prepared listing are vetted**, and nothing else of a
request does. -/
theorem Model.prepare_vetted {model : Model} {request : Request} {prepared : Prepared}
    (h : model.prepare request = .ok prepared) :
    ∃ clause filterGroups searchGroups,
      prepared.Vets model request clause filterGroups searchGroups := by
  obtain ⟨hfilters, hsorts, -, clause, hclause, hcompose⟩ := prepare_ok h
  rw [hfilters] at hclause
  obtain ⟨filterGroups, searchGroups, hgroups, hfilterColumns, hsearch, hsearchColumns⟩ :=
    FilterSpec.vetted_groups hclause
  have hsortColumns := fun a (ha : a ∈ prepared.sorts.orderBy.columns) =>
    SortSpec.vetted_columns (hsorts ▸ ha)
  have hvetted : ∀ group ∈ clause.groups, ∀ c ∈ group,
      c.IsVetted (clause.columns ++ prepared.sorts.orderBy.columns) := by
    intro group hgroup c hc
    have hmem := List.mem_append_left prepared.sorts.orderBy.columns
      (WhereClause.mem_columns hgroup hc)
    rw [hgroups] at hgroup
    rcases List.mem_append.1 hgroup with hgroup | hgroup
    · obtain ⟨hrequested, hrange⟩ := hfilterColumns group hgroup c hc
      exact ⟨hmem, hrequested.isQualified, hrange⟩
    · obtain ⟨hsearchable, hrange⟩ := hsearchColumns group hgroup c hc
      exact ⟨hmem, Config.isQualified_of_mem_searchable hsearchable, hrange⟩
  have hplain := model.config.sound.plain_countAlias
  obtain ⟨hkept, hadded⟩ := compose_clean hplain hvetted
    (fun a ha => ⟨(hsortColumns a ha).1, List.mem_append_right _ ha⟩) hcompose
  refine ⟨clause, filterGroups, searchGroups, hclause, hcompose, hgroups,
    fun group hgroup c hc => ?_, hsearch, fun group hgroup c hc => ?_, hsortColumns, hplain, hkept,
    hadded⟩
  · have hrequested := (hfilterColumns group hgroup c hc).1
    exact ⟨hrequested.isQualified, hrequested⟩
  · have hsearchable := (hsearchColumns group hgroup c hc).1
    exact ⟨Config.isQualified_of_mem_searchable hsearchable, hsearchable⟩

/-- A value is bound, and an entry with an operator or a direction that there is not is dropped. -/
theorem Model.prepare_vetted_hostile :
    let model : Model := ⟨.sqlite, .default, "SELECT 1", []⟩
    let request : Request :=
      { filters := [("a:equals", "x; --"), ("a:= 1 OR", "y")]
        sorts := [("b", "; DROP"), ("c", "desc")] }
    ∃ prepared, model.prepare request = .ok prepared ∧
      prepared.query.sql =
        "SELECT count(*) OVER() AS _zf_count, 1 WHERE (a = ?1) ORDER BY c DESC LIMIT 25 OFFSET 0" ∧
      ∃ clause filterGroups searchGroups,
        prepared.Vets model request clause filterGroups searchGroups := by
  intro model request
  have hsql : (model.prepare request).toOption.map (·.query.sql) = some
      "SELECT count(*) OVER() AS _zf_count, 1 WHERE (a = ?1) ORDER BY c DESC LIMIT 25 OFFSET 0" :=
    by cbv
  cases hprepare : model.prepare request with
  | error e =>
    rw [hprepare] at hsql
    cases hsql
  | ok prepared =>
    rw [hprepare] at hsql
    exact ⟨prepared, rfl, Option.some.inj hsql, Model.prepare_vetted hprepare⟩

end Listing
