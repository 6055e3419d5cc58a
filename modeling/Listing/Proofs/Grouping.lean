import Listing.Proofs.Formulas
import Listing.Proofs.RequestPredicate

/-!
# The groups of a request

The conditions of a request are gathered one after the other, each into the group of its column.
What has been gathered at any time is the conditions so far, cut by their columns, the columns in
the order in which they first came (`FilterSpec.gather_groupsOf`, `FilterSpec.foldl_gather`).

`FilterSpec.whereClause_groups`: so no condition is lost, doubled or put into the group of another
column, and the order of the entries in a request makes no difference to what the clause means.
-/

namespace Listing

/-! ## Association lists over a list of keys -/

theorem nodup_eraseDups {α : Type} [DecidableEq α] : (as : List α) → as.eraseDups.Nodup
  | [] => by simp
  | a :: as => by
    rw [List.eraseDups_cons, List.nodup_cons]
    exact ⟨by simp, nodup_eraseDups _⟩
termination_by as => as.length
decreasing_by
  have := List.length_filter_le (fun b => !b == a) as
  rw [List.length_cons]
  omega

/-- Altering the value of a key among others that are given by a function of the key. -/
theorem Assoc.alter_map {α β : Type} [DecidableEq α] {k : α} {f : Option β → β} {g : α → β}
    {keys : List α} (hkeys : keys.Nodup) :
    alter k f (keys.map fun a => (a, g a)) =
      if k ∈ keys then keys.map fun a => (a, if a = k then f (some (g a)) else g a)
      else keys.map (fun a => (a, g a)) ++ [(k, f none)] := by
  induction keys with
  | nil => rfl
  | cons a keys ih =>
    obtain ⟨hnot, hkeys⟩ := List.nodup_cons.1 hkeys
    rw [List.map_cons, alter, ih hkeys]
    by_cases ha : a = k
    · subst ha
      have hrest : keys.map (fun b => (b, if b = a then f (some (g b)) else g b)) =
          keys.map fun b => (b, g b) := by
        refine List.map_congr_left fun b hb => ?_
        have hne : b ≠ a := by
          rintro rfl
          exact hnot hb
        rw [if_neg hne]
      simp [hrest]
    · by_cases hk : k ∈ keys
      · simp [ha, hk]
      · simp [ha, hk, Ne.symm ha]

/-! ## Conditions by their columns -/

namespace FilterSpec

/-- Conditions in groups: one for each column, in the order of the columns' first conditions. -/
def groupsOf (cs : List Condition) : List (String × List Condition) :=
  (cs.map (·.column)).eraseDups.map fun column => (column, cs.filter (·.column == column))

/-- A further condition goes to the end of the group of its column, or of all groups. -/
theorem gather_groupsOf (cs : List Condition) (c : Condition) :
    gather (groupsOf cs) c = groupsOf (cs ++ [c]) := by
  have hfilter (column : String) : (cs ++ [c]).filter (·.column == column) =
      if column = c.column then cs.filter (·.column == column) ++ [c]
      else cs.filter (·.column == column) := by
    by_cases hcolumn : column = c.column
    · simp [List.filter_append, hcolumn]
    · simp [List.filter_append, hcolumn, Ne.symm hcolumn]
  rw [gather, groupsOf, Assoc.alter_map (nodup_eraseDups _), groupsOf, List.map_append,
    List.map_singleton, List.eraseDups_append]
  simp only [List.mem_eraseDups, hfilter]
  by_cases hmem : c.column ∈ cs.map (·.column)
  · have hnone : [c.column].removeAll (cs.map (·.column)) = [] := by
      simp [List.removeAll, List.mem_map.1 hmem]
    rw [if_pos hmem, hnone, List.eraseDups_nil, List.append_nil]
    rfl
  · have hone : [c.column].removeAll (cs.map (·.column)) = [c.column] := by
      have hnot : ¬∃ a ∈ cs, a.column = c.column := fun h => hmem (List.mem_map.2 h)
      simpa [List.removeAll] using hnot
    have hempty : cs.filter (·.column == c.column) = [] := by
      refine List.filter_eq_nil_iff.2 fun a ha hcolumn => hmem ?_
      rw [← eq_of_beq hcolumn]
      exact List.mem_map_of_mem ha
    have hsingle : [c.column].eraseDups = [c.column] := rfl
    rw [if_neg hmem, hone, hsingle, List.map_append, List.map_singleton, if_pos rfl, hempty]
    congr 1
    refine List.map_congr_left fun column hcolumn => ?_
    have hne : column ≠ c.column := by
      rintro rfl
      exact hmem (List.mem_eraseDups.1 hcolumn)
    rw [if_neg hne]

/-- Gathering conditions one by one cuts them by their columns. -/
theorem foldl_gather (cs : List Condition) : cs.foldl gather [] = groupsOf cs := by
  have hrun (passed rest : List Condition) :
      rest.foldl gather (groupsOf passed) = groupsOf (passed ++ rest) := by
    induction rest generalizing passed with
    | nil => rw [List.append_nil, List.foldl_nil]
    | cons c rest ih =>
      rw [List.foldl_cons, gather_groupsOf, ih, List.append_assoc, List.singleton_append]
  exact hrun [] cs

theorem ne_nil_of_mem_groupsOf {cs : List Condition} {g : String × List Condition}
    (h : g ∈ groupsOf cs) : g.2 ≠ [] := by
  obtain ⟨column, hcolumn, rfl⟩ := List.mem_map.1 h
  obtain ⟨c, hc, rfl⟩ := List.mem_map.1 (List.mem_eraseDups.1 hcolumn)
  exact List.ne_nil_of_mem (List.mem_filter.2 ⟨hc, beq_self_eq_true c.column⟩)

end FilterSpec

/-! ## Clauses -/

/-- Whether the value of a filter is what its operator takes: two bounds for a range. -/
def Filter.WellFormed (f : Filter) : Prop :=
  f.operator = .between → ∃ low high, f.value = .range low high

/-- What a well-formed filter compiles to. -/
def Filter.condition (f : Filter) : Condition where
  column := f.column
  comparison := f.operator.comparison
  value :=
    match f.operator, f.value with
    | .between, .range low high => .array [.text low, .text high]
    | _, value => .text value.raw
  caseSensitive := f.operator.isCaseSensitive

theorem Filter.compile_eq {f : Filter} (h : f.WellFormed) : f.compile = .ok f.condition := by
  obtain ⟨field, column, operator, value⟩ := f
  by_cases hbetween : operator = .between
  · obtain ⟨low, high, rfl⟩ := h hbetween
    subst hbetween
    rfl
  · rw [compile_of_ne_between hbetween]
    cases operator <;> first | exact absurd rfl hbetween | rfl

theorem mapM_compile {fs : List Filter} (h : ∀ f ∈ fs, f.WellFormed) :
    fs.mapM Filter.compile = .ok (fs.map Filter.condition) := by
  induction fs with
  | nil => rfl
  | cons f fs ih =>
    rw [List.mapM_cons, Filter.compile_eq (h f List.mem_cons_self),
      ih fun g hg => h g (List.mem_cons_of_mem f hg)]
    rfl

/-- Whether a clause holds, given which of its conditions do. -/
def WhereClause.holds (truth : Condition → Bool) (clause : WhereClause) : Bool :=
  clause.connective.holds (clause.groups.map fun group => group.any truth)

/-- It makes no difference how often and in which order a connective joins the same things. -/
theorem Connective.holds_congr (c : Connective) {bs bs' : List Bool} (h : ∀ b, b ∈ bs ↔ b ∈ bs') :
    c.holds bs = c.holds bs' := by
  rw [Bool.eq_iff_iff]
  cases c with
  | and => simp only [holds, List.all_eq_true, h]
  | or => simp only [holds, List.any_eq_true, h]

theorem WhereClause.connective_ofGroups (connective : Connective)
    (groups : List (List Condition)) : (ofGroups connective groups).connective = connective := by
  have hpush (clause : WhereClause) :
      (groups.foldl push clause).connective = clause.connective := by
    induction groups generalizing clause with
    | nil => rfl
    | cons group groups ih =>
      rw [List.foldl_cons, ih, push]
      split <;> rfl
  exact hpush (empty connective)

theorem WhereClause.ofGroups_eq (connective : Connective) (groups : List (List Condition)) :
    ofGroups connective groups = ⟨connective, groups.filter (!·.isEmpty)⟩ := by
  rw [← groups_ofGroups connective groups]
  conv => rhs; arg 1; rw [← connective_ofGroups connective groups]

namespace FilterSpec

variable {config : Config} {spec spec' : FilterSpec}

/-- The group of the search term, if there is a term and a column to look for it in. -/
def searchGroups (config : Config) (spec : FilterSpec) : List (List Condition) :=
  match spec.search with
  | some term => if config.searchable = [] then [] else [config.search term]
  | none => []

/-- What grouping makes of a request. -/
structure Grouped (config : Config) (spec : FilterSpec) (clause : WhereClause) : Prop where
  connective : clause.connective = config.connective
  /-- For each column, the conditions of the filters on it in their order, and no others. -/
  groups : ∃ filterGroups, clause.groups = filterGroups ++ spec.searchGroups config ∧
    List.Forall₂
      (fun column group =>
        (spec.filters.filter (·.column == column)).mapM Filter.compile = .ok group)
      (spec.filters.map (·.column)).eraseDups filterGroups
  ne_nil : ∀ group ∈ clause.groups, group ≠ []

theorem whereClause_eq (h : ∀ f ∈ spec.filters, f.WellFormed) :
    spec.whereClause config = .ok ⟨config.connective,
      (groupsOf (spec.filters.map Filter.condition)).map (·.2) ++ spec.searchGroups config⟩ := by
  have hsearch : (spec.search.map config.search).toList.filter (!·.isEmpty) =
      spec.searchGroups config := by
    unfold searchGroups
    cases spec.search with
    | none => rfl
    | some term =>
      cases hcolumns : config.searchable <;> simp [Config.search, hcolumns]
  have hfilters : ((groupsOf (spec.filters.map Filter.condition)).map (·.2)).filter
      (!·.isEmpty) = (groupsOf (spec.filters.map Filter.condition)).map (·.2) := by
    refine List.filter_eq_self.2 fun group hgroup => ?_
    obtain ⟨g, hg, rfl⟩ := List.mem_map.1 hgroup
    simpa using ne_nil_of_mem_groupsOf hg
  rw [whereClause, mapM_compile h]
  change Except.ok (WhereClause.ofGroups _ _) = _
  rw [WhereClause.ofGroups_eq, List.filter_append, foldl_gather, hfilters, hsearch]

/-- The filters of a column compile to the conditions of the column. -/
theorem grouped_of_wellFormed (h : ∀ f ∈ spec.filters, f.WellFormed) :
    Grouped config spec ⟨config.connective,
      (groupsOf (spec.filters.map Filter.condition)).map (·.2) ++ spec.searchGroups config⟩ where
  connective := rfl
  groups := by
    refine ⟨_, rfl, ?_⟩
    have hcolumns : (spec.filters.map Filter.condition).map (·.column) =
        spec.filters.map (·.column) := by
      rw [List.map_map]
      rfl
    rw [groupsOf, hcolumns, List.map_map, List.forall₂_map_right_iff, List.forall₂_same]
    intro column _
    rw [mapM_compile fun f hf => h f (List.mem_of_mem_filter hf), Function.comp_apply,
      List.filter_map]
    rfl
  ne_nil := by
    intro group hgroup
    rcases List.mem_append.1 hgroup with hgroup | hgroup
    · obtain ⟨g, hg, rfl⟩ := List.mem_map.1 hgroup
      exact ne_nil_of_mem_groupsOf hg
    · unfold searchGroups at hgroup
      split at hgroup
      · split at hgroup
        · cases hgroup
        · rename_i term hsearchable
          rw [List.mem_singleton] at hgroup
          simpa [hgroup, Config.search] using hsearchable
      · cases hgroup

/-- The order of the conditions makes no difference to what their groups mean. -/
theorem any_groupsOf_of_perm {cs cs' : List Condition} (h : cs'.Perm cs)
    (truth : Condition → Bool) (b : Bool) :
    b ∈ (groupsOf cs').map (fun g => g.2.any truth) ↔
      b ∈ (groupsOf cs).map (fun g => g.2.any truth) := by
  have hcolumns (column : String) : column ∈ (cs'.map (·.column)).eraseDups ↔
      column ∈ (cs.map (·.column)).eraseDups := by
    rw [List.mem_eraseDups, List.mem_eraseDups, (h.map _).mem_iff]
  have hany (column : String) : (cs'.filter (·.column == column)).any truth =
      (cs.filter (·.column == column)).any truth := (h.filter _).any_eq
  simp only [groupsOf, List.map_map, List.mem_map, Function.comp_apply, hcolumns, hany]

/-- Filters in another order make a clause that means the same. -/
theorem exists_clause_of_perm (config : Config) (h : ∀ f ∈ spec.filters, f.WellFormed)
    (hperm : spec'.filters.Perm spec.filters) (hsearch : spec'.search = spec.search) :
    ∃ clause', spec'.whereClause config = .ok clause' ∧ ∀ clause,
      spec.whereClause config = .ok clause → ∀ truth, clause'.holds truth = clause.holds truth := by
  have h' : ∀ f ∈ spec'.filters, f.WellFormed := fun f hf => h f (hperm.mem_iff.1 hf)
  have hgroups : spec'.searchGroups config = spec.searchGroups config := by
    rw [searchGroups, hsearch, searchGroups]
  refine ⟨_, whereClause_eq h', fun clause hclause truth => ?_⟩
  rw [whereClause_eq h] at hclause
  obtain rfl := Except.ok.inj hclause
  refine Connective.holds_congr config.connective fun b => ?_
  have hfilters := any_groupsOf_of_perm (hperm.map Filter.condition) truth b
  simp only [List.map_append, List.mem_append, List.map_map, hgroups]
  exact or_congr hfilters Iff.rfl

/-- **Grouping loses, doubles and misplaces nothing.** Where every range has its two bounds, the
clause has one group for each column that the filters resolve to, in the order in which the columns
first come, and the group of the search term behind them. The order of the filters, and that of the
entries of a request that they come from, makes no difference to what the clause means. -/
theorem whereClause_groups (config : Config) (spec : FilterSpec)
    (h : ∀ f ∈ spec.filters, f.WellFormed) :
    ∃ clause, spec.whereClause config = .ok clause ∧ Grouped config spec clause ∧
      (∀ spec' : FilterSpec, spec'.filters.Perm spec.filters → spec'.search = spec.search →
        ∃ clause', spec'.whereClause config = .ok clause' ∧
          ∀ truth, clause'.holds truth = clause.holds truth) ∧
      ∀ entries entries' search, spec = ofRequest config entries search → entries'.Perm entries →
        ∃ clause', (ofRequest config entries' search).whereClause config = .ok clause' ∧
          ∀ truth, clause'.holds truth = clause.holds truth := by
  have hclause : spec.whereClause config = .ok _ := whereClause_eq h
  refine ⟨_, hclause, grouped_of_wellFormed h, fun spec' hperm hsearch => ?_, ?_⟩
  · obtain ⟨clause', hclause', hholds⟩ := exists_clause_of_perm config h hperm hsearch
    exact ⟨clause', hclause', hholds _ hclause⟩
  · rintro entries entries' search rfl hperm
    have hfilters : (ofRequest config entries' search).filters.Perm
        (ofRequest config entries search).filters := hperm.filterMap _
    obtain ⟨clause', hclause', hholds⟩ := exists_clause_of_perm config h hfilters rfl
    exact ⟨clause', hclause', hholds _ hclause⟩

/-- Two names of one column with another column between them, and a term to search for. -/
theorem whereClause_groups_shared :
    ∃ (config : Config) (spec : FilterSpec) (clause : WhereClause),
      (∀ f ∈ spec.filters, f.WellFormed) ∧ spec.whereClause config = .ok clause ∧
        Grouped config spec clause ∧
        clause.groups.map (·.map (·.column)) = [["t.a", "t.a"], ["t.b"], ["t.c"]] := by
  let config : Config :=
    ⟨{ searchable := ["t.c"], connective := .or }, Options.sound_of_fault? (by decide +kernel)⟩
  let spec : FilterSpec :=
    ⟨[⟨"x", "t.a", .equals, .single "1"⟩, ⟨"y", "t.b", .between, .range "1" "2"⟩,
      ⟨"z", "t.a", .less, .single "3"⟩], some "q"⟩
  have hwellFormed : ∀ f ∈ spec.filters, f.WellFormed := by
    simp [spec, Filter.WellFormed]
  obtain ⟨clause, hclause, hgrouped, -⟩ := whereClause_groups config spec hwellFormed
  have hcolumns : (spec.whereClause config).toOption.map (·.groups.map (·.map (·.column))) =
      some [["t.a", "t.a"], ["t.b"], ["t.c"]] := by
    decide +kernel
  rw [hclause] at hcolumns
  exact ⟨config, spec, clause, hwellFormed, hclause, hgrouped, Option.some.inj hcolumns⟩

end FilterSpec

end Listing
