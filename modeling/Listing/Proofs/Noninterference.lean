import Listing.Model
import Listing.Proofs.RequestPredicate
import Mathlib

/-!
# The values of a request do not reach SQL text

Two requests of one shape (`Request.SameShape`) name the same columns, operators, directions and
pages and differ in the texts they filter and search for, as long as both or neither of two texts
are empty and ranges stay ranges. `prepare_sameShape`: either both fail in the same way or both make
the same statement, byte for byte, with the same number of parameters.

The relation is carried from one step to the next: from entries to filters (`Filter.SameShape`),
from filters to conditions and their groups (`Condition.SameShape`), from these to fragments of SQL
with the same text (`Fragment.Alike`) and from fragments to statements (`compose_alike`).
-/

namespace Listing

open Text

open List (Forall₂)

/-! ## Outcomes of two runs -/

/-- Whether two errors tell the same, the refused value apart. -/
def Error.SameKind : Error → Error → Prop
  | .malformedRange field _, .malformedRange field' _ => field = field'
  | e, e' => e = e'

/-- Two runs both succeed, with related results, or both fail in the same way. -/
def SameOutcome {α β : Type} (R : α → β → Prop) : Except Error α → Except Error β → Prop
  | .ok a, .ok b => R a b
  | .error e, .error e' => e.SameKind e'
  | _, _ => False

namespace SameOutcome

variable {α β γ δ : Type} {R : α → β → Prop} {S : γ → δ → Prop}

theorem refl_error (e : Error) : e.SameKind e := by
  cases e <;> rfl

theorem bind {x : Except Error α} {y : Except Error β} {f : α → Except Error γ}
    {g : β → Except Error δ} (h : SameOutcome R x y)
    (hfg : ∀ a b, R a b → SameOutcome S (f a) (g b)) : SameOutcome S (x >>= f) (y >>= g) := by
  cases x with
  | error e =>
    cases y with
    | error e' => exact h
    | ok b => exact h.elim
  | ok a =>
    cases y with
    | error e' => exact h.elim
    | ok b => exact hfg a b h

theorem mapM {P : α → β → Prop} {f : α → Except Error γ} {g : β → Except Error δ} {as : List α}
    {bs : List β} (h : Forall₂ P as bs) (hfg : ∀ a b, P a b → SameOutcome S (f a) (g b)) :
    SameOutcome (Forall₂ S) (as.mapM f) (bs.mapM g) := by
  induction h with
  | nil => exact .nil
  | cons hab _ ih =>
    rw [List.mapM_cons, List.mapM_cons]
    exact (hfg _ _ hab).bind fun c d hcd => ih.bind fun cs ds hcds => .cons hcd hcds

end SameOutcome

/-! ## Conditions and clauses -/

/-- Fragments with the same text and the same number of values. -/
structure Fragment.Alike (f f' : Fragment) : Prop where
  sql : f.sql = f'.sql
  params : f.params.length = f'.params.length

/-- Conditions that differ in their values only, and not in how many bounds those have. -/
structure Condition.SameShape (c c' : Condition) : Prop where
  column : c.column = c'.column
  comparison : c.comparison = c'.comparison
  caseSensitive : c.caseSensitive = c'.caseSensitive
  bounds : c.value.bounds? = c'.value.bounds?

theorem Condition.SameShape.render {c c' : Condition} (h : c.SameShape c') (d : Dialect) (n : Nat) :
    (c.render d n).Alike (c'.render d n) := by
  by_cases hbetween : c.comparison = .between
  · obtain ⟨column, comparison, value, caseSensitive⟩ := c
    obtain ⟨column', comparison', value', caseSensitive'⟩ := c'
    obtain ⟨rfl, rfl, rfl, hbounds⟩ := h
    obtain rfl : comparison = .between := hbetween
    obtain ⟨hsql, hparams⟩ := render_between d n column value caseSensitive
    obtain ⟨hsql', hparams'⟩ := render_between d n column value' caseSensitive
    dsimp only at hbounds
    exact ⟨by rw [hsql, hsql', hbounds], by rw [hparams, hparams', hbounds]⟩
  · have hbetween' : c'.comparison ≠ .between := h.comparison ▸ hbetween
    obtain ⟨hsql, hparams⟩ := render_single d n hbetween
    obtain ⟨hsql', hparams'⟩ := render_single d n hbetween'
    exact ⟨by rw [hsql, hsql', h.column, h.comparison, h.caseSensitive], by rw [hparams, hparams']⟩

namespace Fragment

theorem alike_sequence {α β : Type} {R : α → β → Prop} {f : Nat → α → Fragment}
    {g : Nat → β → Fragment} {as : List α} {bs : List β} (h : Forall₂ R as bs)
    (hfg : ∀ n a b, R a b → (f n a).Alike (g n b)) (n : Nat) :
    Forall₂ Alike (sequence f n as) (sequence g n bs) := by
  induction h generalizing n with
  | nil => exact .nil
  | cons hab _ ih =>
    have hhead := hfg n _ _ hab
    rw [sequence, sequence, hhead.params]
    exact .cons hhead (ih _)

theorem alike_join {fs gs : List Fragment} (h : Forall₂ Alike fs gs) (separator : String) :
    (join separator fs).Alike (join separator gs) := by
  have hsql : fs.map (·.sql) = gs.map (·.sql) := by
    induction h with
    | nil => rfl
    | cons hab _ ih => rw [List.map_cons, List.map_cons, hab.sql, ih]
  have hparams : (fs.flatMap (·.params)).length = (gs.flatMap (·.params)).length := by
    induction h with
    | nil => rfl
    | cons hab _ ih =>
      rw [List.flatMap_cons, List.flatMap_cons, List.length_append, List.length_append, hab.params]
      rw [List.map_cons, List.map_cons] at hsql
      rw [ih (List.cons.inj hsql).2]
  exact ⟨by rw [join, join, hsql], hparams⟩

end Fragment

/-- Clauses whose conditions differ in their values only. -/
structure WhereClause.SameShape (clause clause' : WhereClause) : Prop where
  connective : clause.connective = clause'.connective
  groups : Forall₂ (Forall₂ Condition.SameShape) clause.groups clause'.groups

namespace WhereClause.SameShape

variable {clause clause' : WhereClause} {group group' : List Condition}

theorem isEmpty_eq {α β : Type} {R : α → β → Prop} {as : List α} {bs : List β}
    (h : Forall₂ R as bs) : as.isEmpty = bs.isEmpty := by
  cases h <;> rfl

theorem push (h : clause.SameShape clause') (hgroup : Forall₂ Condition.SameShape group group') :
    (clause.push group).SameShape (clause'.push group') := by
  unfold WhereClause.push
  rw [isEmpty_eq hgroup]
  split
  · exact h
  · exact ⟨h.connective, List.rel_append h.groups (.cons hgroup .nil)⟩

theorem ofGroups {groups groups' : List (List Condition)}
    (h : Forall₂ (Forall₂ Condition.SameShape) groups groups') (connective : Connective) :
    (WhereClause.ofGroups connective groups).SameShape
      (WhereClause.ofGroups connective groups') :=
  List.rel_foldl (R := Forall₂ Condition.SameShape) (fun _ _ hclause _ _ => hclause.push)
    ⟨rfl, .nil⟩ h

theorem render (h : clause.SameShape clause') (d : Dialect) (n : Nat) :
    (clause.render d n).Alike (clause'.render d n) := by
  unfold WhereClause.render
  rw [h.connective]
  refine Fragment.alike_join
    (Fragment.alike_sequence h.groups (fun m group group' hgroup => ?_) n) _
  have hbody := Fragment.alike_join
    (Fragment.alike_sequence hgroup (fun k _ _ hc => hc.render d k) m) " OR "
  exact ⟨by rw [renderGroup, renderGroup, hbody.sql], hbody.params⟩

end WhereClause.SameShape

/-! ## Composed statements -/

/-- Statements with the same text and the same number of parameters. -/
structure Composed.Alike (c c' : Composed) : Prop where
  sql : c.sql = c'.sql
  params : c.params.length = c'.params.length
  countAlias : c.countAlias = c'.countAlias
  countPosition : c.countPosition = c'.countPosition

/-- Of a clause a statement takes up its text, whether it is empty, and whether it has more groups
than one. -/
theorem compose_alike {clause clause' : WhereClause} (h : clause.SameShape clause')
    (dialect : Dialect) (countAlias base : String) (baseParams : List Value) (order : OrderBy)
    (limit : Limit) :
    SameOutcome Composed.Alike (compose dialect countAlias base baseParams clause order limit)
      (compose dialect countAlias base baseParams clause' order limit) := by
  have hpredicate := h.render dialect (baseParams.length + 1)
  have hedits (site : Site) (predicate : String) :
      site.predicateEdits clause predicate = site.predicateEdits clause' predicate := by
    have hempty : clause.isEmpty = clause'.isEmpty := WhereClause.SameShape.isEmpty_eq h.groups
    rw [Site.predicateEdits, Site.predicateEdits, hempty, h.groups.length_eq]
  unfold compose
  cases Site.locate countAlias (bytes base) with
  | error e => exact SameOutcome.refl_error e
  | ok site =>
    simp only [bind, Except.bind]
    split
    · exact SameOutcome.refl_error (.unsupported .ownPaging)
    · rw [hedits, hpredicate.sql]
      split
      · exact SameOutcome.refl_error .misplacedEdit
      · refine ⟨rfl, ?_, rfl, rfl⟩
        simp only [List.length_append, hpredicate.params]

/-! ## Filters -/

/-- Whether the value of a filter is a range. -/
def FilterValue.isRange : FilterValue → Bool
  | range _ _ => true
  | single _ => false

/-- Filters that differ in the texts of their values only. -/
structure Filter.SameShape (f f' : Filter) : Prop where
  field : f.field = f'.field
  column : f.column = f'.column
  operator : f.operator = f'.operator
  range : f.value.isRange = f'.value.isRange

theorem Filter.SameShape.compile {f f' : Filter} (h : f.SameShape f') :
    SameOutcome Condition.SameShape f.compile f'.compile := by
  obtain ⟨field, column, operator, value⟩ := f
  obtain ⟨field', column', operator', value'⟩ := f'
  obtain ⟨rfl, rfl, rfl, hrange⟩ := h
  by_cases hbetween : operator = .between
  · subst hbetween
    match value, value', hrange with
    | .single _, .single _, _ => exact rfl
    | .range _ _, .range _ _, _ => exact ⟨rfl, rfl, rfl, rfl⟩
  · rw [compile_of_ne_between hbetween, compile_of_ne_between hbetween]
    exact ⟨rfl, rfl, rfl, rfl⟩

namespace Assoc

/-- Lists with the same keys and related values keep them when altered alike. -/
theorem forall₂_alter {α β γ : Type} [DecidableEq α] {R : β → γ → Prop} (k : α)
    {f : Option β → β} {g : Option γ → γ} {es : List (α × β)} {es' : List (α × γ)}
    (h : Forall₂ (fun e e' => e.1 = e'.1 ∧ R e.2 e'.2) es es')
    (hfg : ∀ o o', Option.Rel R o o' → R (f o) (g o')) :
    Forall₂ (fun e e' => e.1 = e'.1 ∧ R e.2 e'.2) (alter k f es) (alter k g es') := by
  induction h with
  | nil => exact .cons ⟨rfl, hfg _ _ .none⟩ .nil
  | @cons e e' es es' he hes ih =>
    obtain ⟨key, value⟩ := e
    obtain ⟨key', value'⟩ := e'
    obtain ⟨rfl, hvalue⟩ := he
    rw [alter, alter]
    split
    · exact .cons ⟨rfl, hfg _ _ (.some hvalue)⟩ hes
    · exact .cons ⟨rfl, hvalue⟩ ih

end Assoc

/-- Filters and search terms that differ in texts only. -/
structure FilterSpec.SameShape (spec spec' : FilterSpec) : Prop where
  filters : Forall₂ Filter.SameShape spec.filters spec'.filters
  search : spec.search.isSome = spec'.search.isSome

namespace FilterSpec

theorem forall₂_gather {cs cs' : List Condition} (h : Forall₂ Condition.SameShape cs cs') :
    Forall₂ (fun g g' : String × List Condition =>
        g.1 = g'.1 ∧ Forall₂ Condition.SameShape g.2 g'.2)
      (cs.foldl gather []) (cs'.foldl gather []) := by
  refine List.rel_foldl (fun groups groups' hgroups c c' hc => ?_) .nil h
  unfold gather
  rw [hc.column]
  refine Assoc.forall₂_alter _ hgroups fun present present' hpresent => ?_
  refine List.rel_append ?_ (.cons hc .nil)
  cases hpresent with
  | some h => exact h
  | none => exact .nil

theorem SameShape.whereClause {spec spec' : FilterSpec} (h : spec.SameShape spec')
    (config : Config) :
    SameOutcome WhereClause.SameShape (spec.whereClause config) (spec'.whereClause config) := by
  have hconditions := SameOutcome.mapM h.filters fun f f' hf => hf.compile
  refine hconditions.bind fun cs cs' hcs => ?_
  have hgroups : Forall₂ (Forall₂ Condition.SameShape) ((cs.foldl gather []).map (·.2))
      ((cs'.foldl gather []).map (·.2)) :=
    List.rel_map (fun _ _ hg => hg.2) (forall₂_gather hcs)
  have hsearch : Forall₂ (Forall₂ Condition.SameShape) (spec.search.map config.search).toList
      (spec'.search.map config.search).toList := by
    have hterms (term term' : String) :
        Forall₂ Condition.SameShape (config.search term) (config.search term') :=
      List.rel_map (R := fun column column' => column = column')
        (fun column _ hcolumn => hcolumn ▸ ⟨rfl, rfl, rfl, rfl⟩) (List.forall₂_refl _)
    match spec.search, spec'.search, h.search with
    | none, none, _ => exact .nil
    | some term, some term', _ => exact .cons (hterms term term') .nil
  exact WhereClause.SameShape.ofGroups (List.rel_append hgroups hsearch) config.connective

end FilterSpec

/-! ## Requests -/

/-- A text has two parts around a separator if it holds that exactly once. -/
theorem Text.isSome_splitTwo (sep : Char) (s : String) :
    (splitTwo sep s).isSome = true ↔ s.toList.count sep = 1 := by
  have hcount : s.toList.count sep = (s.toList.dropWhile (· != sep)).count sep := by
    have hfront : (s.toList.takeWhile (· != sep)).count sep = 0 := by
      refine List.count_eq_zero.2 fun hmem => ?_
      simpa using List.all_eq_true.1 List.all_takeWhile sep hmem
    conv => lhs; rw [← List.takeWhile_append_dropWhile (p := (· != sep)) (l := s.toList)]
    rw [List.count_append, hfront, Nat.zero_add]
  rw [hcount]
  unfold splitTwo splitOnce
  cases hdrop : s.toList.dropWhile (· != sep) with
  | nil => simp
  | cons c after =>
    obtain rfl : c = sep := by
      have hhead := List.head?_dropWhile_not (· != sep) s.toList
      simp only [hdrop] at hhead
      simpa using hhead
    simp [List.count_eq_zero]

/-- Nothing is left of a text if it holds nothing but blanks. -/
theorem Text.isEmpty_trim (s : String) :
    (trim s).isEmpty = true ↔ ∀ c ∈ s.toList, isBlank c = true := by
  have hall : (∀ c ∈ s.toList.dropWhile isBlank, isBlank c = true) ↔
      s.toList.dropWhile isBlank = [] := by
    constructor
    · intro h
      by_cases hne : s.toList.dropWhile isBlank = []
      · exact hne
      · have hhead := List.head_dropWhile_not isBlank (l := s.toList) hne
        rw [h _ (List.head_mem hne)] at hhead
        cases hhead
    · intro hnil
      simp [hnil]
  rw [trim, String.isEmpty_iff, ← String.toList_eq_nil_iff, String.toList_ofList,
    List.reverse_eq_nil_iff, List.dropWhile_eq_nil_iff]
  simp only [List.mem_reverse]
  rw [hall, List.dropWhile_eq_nil_iff]

/-- Entries with the same key whose values are both empty or not, and both a range or not where the
operator wants one. -/
structure Request.SameEntry (e e' : String × String) : Prop where
  key : e.1 = e'.1
  empty : e.2 = "" ↔ e'.2 = ""
  range : FilterOperator.ofName? (Filter.splitKey e.1).2 = some .between →
    (e.2.toList.count rangeMark = 1 ↔ e'.2.toList.count rangeMark = 1)

/-- Whether nothing is searched for. -/
def Request.IsBlank (search : Option String) : Prop :=
  ∀ term ∈ search, ∀ c ∈ term.toList, isBlank c = true

/-- Requests that differ only in the texts they filter and search for. -/
structure Request.SameShape (r r' : Request) : Prop where
  filters : Forall₂ SameEntry r.filters r'.filters
  search : IsBlank r.search ↔ IsBlank r'.search
  sorts : r.sorts = r'.sorts
  page : r.page = r'.page
  limit : r.limit = r'.limit

theorem FilterValue.isRange_ofRange (raw : String) :
    (ofRange raw).isRange = true ↔ raw.toList.count rangeMark = 1 := by
  rw [← Text.isSome_splitTwo, ofRange]
  cases Text.splitTwo rangeMark raw with
  | none => exact ⟨fun h => h, fun h => h⟩
  | some parts => exact ⟨fun _ => rfl, fun _ => rfl⟩

theorem Request.SameEntry.filter {e e' : String × String} (h : SameEntry e e') (config : Config) :
    Option.Rel Filter.SameShape (Filter.parse? config e) (Filter.parse? config e') := by
  obtain ⟨key, value⟩ := e
  obtain ⟨key', value'⟩ := e'
  obtain ⟨rfl, hempty, hrange⟩ := h
  have hempty' : value.isEmpty = value'.isEmpty := by
    rw [Bool.eq_iff_iff, String.isEmpty_iff, String.isEmpty_iff]
    exact hempty
  unfold Filter.parse?
  simp only [hempty']
  cases hoperator : FilterOperator.ofName? (Filter.splitKey key).2 with
  | none => exact .none
  | some operator =>
    dsimp only
    split
    · refine .some ⟨rfl, rfl, rfl, ?_⟩
      dsimp only
      split
      · rename_i hbetween
        rw [hbetween] at hoperator
        rw [Bool.eq_iff_iff, FilterValue.isRange_ofRange, FilterValue.isRange_ofRange]
        exact hrange hoperator
      · rfl
    · exact .none

theorem FilterSpec.isSome_searchTerm (config : Config) (search : Option String) :
    (searchTerm config search).isSome = true ↔
      config.searchEnabled = true ∧ ¬Request.IsBlank search := by
  unfold searchTerm
  cases config.searchEnabled with
  | false => simp
  | true =>
    cases search with
    | none => simp [Request.IsBlank]
    | some term => simp [Request.IsBlank, Option.filter, ← Text.isEmpty_trim]

theorem Request.SameShape.filterSpec {r r' : Request} (h : r.SameShape r') (config : Config) :
    (FilterSpec.ofRequest config r.filters r.search).SameShape
      (FilterSpec.ofRequest config r'.filters r'.search) := by
  refine ⟨List.rel_filterMap (fun _ _ he => he.filter config) h.filters, ?_⟩
  rw [Bool.eq_iff_iff, FilterSpec.ofRequest, FilterSpec.ofRequest, FilterSpec.isSome_searchTerm,
    FilterSpec.isSome_searchTerm, h.search]

/-! ## Prepared listings -/

/-- **Requests of one shape either fail in the same way or make the same statement**, with the same
number of parameters. The texts they filter and search for are nowhere in it. -/
theorem Model.prepare_sameShape (model : Model) {r r' : Request} (h : r.SameShape r') :
    SameOutcome (fun p p' : Prepared => p.query.Alike p'.query) (model.prepare r)
      (model.prepare r') := by
  have hclause := (h.filterSpec model.config).whereClause model.config
  have hquery : SameOutcome Composed.Alike
      (model.query r (Pagination.ofRequest model.config r.page r.limit).bound)
      (model.query r' (Pagination.ofRequest model.config r'.page r'.limit).bound) := by
    unfold Model.query
    rw [h.sorts, h.page, h.limit]
    exact hclause.bind fun clause clause' hsame => compose_alike hsame _ _ _ _ _ _
  exact hquery.bind fun c c' hc => hc

/-- A value that would end a literal and the statement makes the same statement as a harmless
one. -/
theorem Model.prepare_hostile :
    let model : Model := ⟨.postgres, .default, "SELECT * FROM t", []⟩
    let request (value term : String) : Request :=
      { filters := [("name:equals", value), ("age:between", "1~2")], search := some term }
    SameOutcome (fun p p' : Prepared => p.query.Alike p'.query)
        (model.prepare (request "x" "y")) (model.prepare (request "'; DROP TABLE t; --" " $1 ")) ∧
      ((model.prepare (request "x" "y")).map (·.query.sql)).toOption =
        some ("SELECT count(*) OVER() AS _zf_count, * FROM t " ++
          "WHERE (name = $1) AND (age BETWEEN $2 AND $3) LIMIT 25 OFFSET 0") := by
  refine ⟨Model.prepare_sameShape _ ⟨?_, ?_, rfl, rfl, rfl⟩, by cbv⟩
  · exact .cons ⟨rfl, by decide, by decide +kernel⟩
      (.cons ⟨rfl, by decide, fun _ => Iff.rfl⟩ .nil)
  · exact ⟨fun h => absurd (h "y" rfl 'y' (by decide)) (by decide),
      fun h => absurd (h " $1 " rfl '$' (by decide)) (by decide)⟩

end Listing
