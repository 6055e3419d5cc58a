import Listing.Proofs.Failures
import Mathlib

/-!
# Entries that count for nothing

An entry of a request is inert if it names no operator or direction there is, if it names a column
that is not allowed, or if it is a filter without a value (`Request.InertFilter`,
`Request.InertSort`). Such entries are just those that are dropped (`Filter.parse?_eq_none_iff`,
`SortSpec.directive?_eq_none_iff`). `Model.prepare_padded`: a request may have any number of them in
any places, and its listing is the same, an error included. Only a sort list without entries is not
the same as one with inert entries alone, since the default sorts stand in for it.
-/

namespace Listing

open Text

/-! ## Lists with more items -/

/-- A list with items of a kind put in, anywhere and any number of them. -/
inductive Padded {α : Type} (P : α → Prop) : List α → List α → Prop
  | nil : Padded P [] []
  | keep {a : α} {as more : List α} : Padded P as more → Padded P (a :: as) (a :: more)
  | insert {a : α} {as more : List α} : P a → Padded P as more → Padded P as (a :: more)

namespace Padded

variable {α β : Type} {P : α → Prop} {as more : List α}

/-- What is put in leaves no trace if it is left out again. -/
theorem filterMap_eq (h : Padded P as more) {f : α → Option β} (hf : ∀ a, P a → f a = none) :
    more.filterMap f = as.filterMap f := by
  induction h with
  | nil => rfl
  | keep _ ih => rw [List.filterMap_cons, List.filterMap_cons, ih]
  | insert ha _ ih => rw [List.filterMap_cons_none (hf _ ha), ih]

theorem ne_nil (h : Padded P as more) (hne : as ≠ []) : more ≠ [] := by
  cases h with
  | nil => exact hne
  | keep h => exact List.cons_ne_nil _ _
  | insert ha h => exact List.cons_ne_nil _ _

end Padded

/-! ## Inert filters -/

namespace Text

variable {sep : Char} {s : String}

theorem splitOnce_eq_none : splitOnce sep s = none ↔ sep ∉ s.toList := by
  have hdrop : s.toList.dropWhile (· != sep) = [] ↔ sep ∉ s.toList := by
    rw [List.dropWhile_eq_nil_iff]
    constructor
    · intro h hmem
      simpa using h sep hmem
    · intro h c hc
      rw [bne_iff_ne]
      rintro rfl
      exact h hc
  rw [← hdrop]
  unfold splitOnce
  cases s.toList.dropWhile (· != sep) <;> simp

theorem not_mem_of_splitOnce {a b : String} (h : splitOnce sep s = some (a, b)) :
    sep ∉ a.toList := by
  unfold splitOnce at h
  split at h
  · cases h
  · obtain ⟨rfl, -⟩ := Prod.mk.inj (Option.some.inj h)
    rw [String.toList_ofList]
    intro hmem
    simpa using List.all_eq_true.1 List.all_takeWhile sep hmem

end Text

namespace Request

/-- What the key of a filter entry names: a column and an operator behind the first colon, or a
column alone, which is to contain the value. -/
inductive Names (key : String) : String → String → Prop
  | operator {field name : String} (hkey : key = field ++ ":" ++ name)
      (hcolon : ':' ∉ field.toList) : Names key field name
  | column (hcolon : ':' ∉ key.toList) : Names key key "contains"

/-- Whether a filter entry has an operator that there is not, a column that is not allowed, or no
value. -/
def InertFilter (config : Config) (entry : String × String) : Prop :=
  ∃ field name, Names entry.1 field name ∧
    ((∀ operator : FilterOperator, operator.name ≠ name) ∨ config.isAllowed field = false ∨
      entry.2 = "")

/-- A key names what it is split into. -/
theorem names_iff {key field name : String} :
    Names key field name ↔ Filter.splitKey key = (field, name) := by
  have hmark : ":" = String.singleton ':' := rfl
  constructor
  · intro h
    cases h with
    | operator hkey hcolon =>
      have hsplit : splitOnce ':' key = some (field, name) := by
        rw [hkey, hmark]
        exact splitOnce_append hcolon
      rw [Filter.splitKey, hsplit]
      rfl
    | column hcolon =>
      rw [Filter.splitKey, splitOnce_eq_none.2 hcolon]
      rfl
  · intro h
    unfold Filter.splitKey at h
    cases hsplit : splitOnce ':' key with
    | none =>
      rw [hsplit] at h
      cases h
      exact .column (splitOnce_eq_none.1 hsplit)
    | some parts =>
      rw [hsplit] at h
      obtain rfl : parts = (field, name) := h
      have hkey : key = field ++ ":" ++ name := by
        rw [hmark]
        exact eq_of_splitOnce hsplit
      exact .operator hkey (not_mem_of_splitOnce hsplit)

end Request

theorem FilterOperator.ofName?_eq_none_iff {name : String} :
    ofName? name = none ↔ ∀ operator : FilterOperator, operator.name ≠ name := by
  have hall (operator : FilterOperator) : operator ∈ all := by
    cases operator <;> decide
  rw [ofName?, List.find?_eq_none]
  constructor
  · intro h operator heq
    exact h operator (hall operator) (beq_iff_eq.2 heq)
  · intro h operator _ heq
    exact h operator (beq_iff_eq.1 heq)

/-- The filter entries that are dropped are the inert ones. -/
theorem Filter.parse?_eq_none_iff {config : Config} {entry : String × String} :
    parse? config entry = none ↔ Request.InertFilter config entry := by
  rcases hkey : splitKey entry.1 with ⟨field, name⟩
  have hinert : Request.InertFilter config entry ↔
      (FilterOperator.ofName? name = none ∨ config.isAllowed field = false ∨ entry.2 = "") := by
    rw [FilterOperator.ofName?_eq_none_iff]
    constructor
    · rintro ⟨field', name', hnames, h⟩
      obtain ⟨rfl, rfl⟩ := Prod.mk.inj (hkey.symm.trans (Request.names_iff.1 hnames))
      exact h
    · intro h
      exact ⟨field, name, Request.names_iff.2 hkey, h⟩
  rw [hinert]
  constructor
  · intro hnone
    by_contra hnot
    obtain ⟨hname, hallowed, hgiven⟩ : FilterOperator.ofName? name ≠ none ∧
        config.isAllowed field = true ∧ entry.2 ≠ "" := by simpa using hnot
    obtain ⟨operator, hoperator⟩ := Option.ne_none_iff_exists'.1 hname
    have hsome := parse?_eq_some_iff.2
      ⟨field, name, operator, hkey, hoperator, hallowed, hgiven, rfl⟩
    rw [hnone] at hsome
    cases hsome
  · intro h
    refine Option.eq_none_iff_forall_ne_some.2 fun f hf => ?_
    obtain ⟨field', name', operator, hkey', hname, hallowed, hgiven, -⟩ := parse?_eq_some_iff.1 hf
    obtain ⟨rfl, rfl⟩ := Prod.mk.inj (hkey.symm.trans hkey')
    rcases h with hunknown | hbarred | hempty
    · rw [hunknown] at hname
      cases hname
    · rw [hbarred] at hallowed
      cases hallowed
    · exact hgiven hempty

/-! ## Inert sorts -/

/-- Whether a sort entry has neither of the two exact words as its direction, or a column that is
not allowed. -/
def Request.InertSort (config : Config) (entry : String × String) : Prop :=
  (entry.2 ≠ "asc" ∧ entry.2 ≠ "desc") ∨ config.isAllowed entry.1 = false

/-- The sort entries that are dropped are the inert ones. -/
theorem SortSpec.directive?_eq_none_iff {config : Config} {entry : String × String} :
    directive? config entry = none ↔ Request.InertSort config entry := by
  have hwords : Direction.ofName? entry.2 = none ↔ entry.2 ≠ "asc" ∧ entry.2 ≠ "desc" := by
    rw [Option.eq_none_iff_forall_not_mem]
    simp only [Option.mem_def, Direction.ofName?_eq_some_iff]
    constructor
    · intro h
      exact ⟨h .ascending, h .descending⟩
    · rintro ⟨hasc, hdesc⟩ direction
      cases direction with
      | ascending => exact hasc
      | descending => exact hdesc
  unfold Request.InertSort directive?
  rw [← hwords]
  cases Direction.ofName? entry.2 with
  | none => simp
  | some direction => simp

/-! ## Requests with inert entries -/

/-- A request with inert entries put into its filters and, if it has any, into its sorts. -/
structure Request.Padded (config : Config) (request more : Request) : Prop where
  filters : Listing.Padded (InertFilter config) request.filters more.filters
  sorts : Listing.Padded (InertSort config) request.sorts more.sorts
  /-- No sort is put into a list without any. -/
  unsorted : request.sorts = [] → more.sorts = []
  search : more.search = request.search
  page : more.page = request.page
  limit : more.limit = request.limit

namespace Request.Padded

variable {config : Config} {request more : Request}

theorem filterSpec (h : request.Padded config more) :
    FilterSpec.ofRequest config more.filters more.search =
      FilterSpec.ofRequest config request.filters request.search := by
  have hfilters := h.filters.filterMap_eq (f := Filter.parse? config)
    fun _ hentry => Filter.parse?_eq_none_iff.2 hentry
  rw [FilterSpec.ofRequest, FilterSpec.ofRequest, hfilters, h.search]

theorem sortSpec (h : request.Padded config more) :
    SortSpec.ofRequest config more.sorts = SortSpec.ofRequest config request.sorts := by
  have hdirectives := h.sorts.filterMap_eq (f := SortSpec.directive? config)
    fun _ hentry => SortSpec.directive?_eq_none_iff.2 hentry
  have hcolumns : SortSpec.columns config more.sorts = SortSpec.columns config request.sorts := by
    by_cases hnone : request.sorts = []
    · rw [hnone, h.unsorted hnone]
    · rw [SortSpec.columns, SortSpec.columns, List.isEmpty_eq_false_iff.2 hnone,
        List.isEmpty_eq_false_iff.2 (h.sorts.ne_nil hnone), hdirectives]
  rw [SortSpec.ofRequest, SortSpec.ofRequest, hcolumns]

end Request.Padded

/-- **Inert entries are as good as none.** Whatever is put into a request besides them, the listing
is prepared as without, down to the text of the statement, or fails with the same error. -/
theorem Model.prepare_padded (model : Model) {request more : Request}
    (h : request.Padded model.config more) : model.prepare more = model.prepare request := by
  have hquery (limit : Limit) : model.query more limit = model.query request limit := by
    rw [query, query, h.filterSpec, h.sortSpec]
  rw [prepare, prepare, h.page, h.limit, hquery, h.filterSpec, h.sortSpec]

/-- An operator with a colon of its own, an empty one, a column with a point, one in another script,
an empty value, and a direction in capitals. -/
theorem Model.prepare_padded_hostile :
    let model : Model := ⟨.postgres, .default, "SELECT * FROM t", []⟩
    let request : Request :=
      { filters := [("a:equals", "x"), ("b:less", "y")], sorts := [("c", "desc")] }
    let more : Request :=
      { filters := [("a:equals:", "1"), ("a:equals", "x"), ("b:", "2"), ("t.b", "3"), ("b", ""),
          ("a) OR (1=1:less", "4"), ("b:less", "y"), ("é", "5")]
        sorts := [("c", "ASC"), ("c", "desc"), ("c d", "asc")] }
    request.Padded model.config more ∧ model.prepare more = model.prepare request ∧
      ((model.prepare more).map (·.query.sql)).toOption =
        some ("SELECT count(*) OVER() AS _zf_count, * FROM t " ++
          "WHERE (a = $1) AND (b < $2) ORDER BY c DESC LIMIT 25 OFFSET 0") := by
  intro model request more
  have hfilter {entry : String × String} (h : Filter.parse? .default entry = none) :
      Request.InertFilter .default entry :=
    Filter.parse?_eq_none_iff.1 h
  have hfilters : Padded (Request.InertFilter .default) request.filters more.filters := by
    refine .insert (hfilter ?_) (.keep (.insert (hfilter ?_) (.insert (hfilter ?_) (.insert
      (hfilter ?_) (.insert (hfilter ?_) (.keep (.insert (hfilter ?_) .nil))))))) <;>
      decide +kernel
  have hsorts : Padded (Request.InertSort .default) request.sorts more.sorts :=
    .insert (.inl (by decide)) (.keep (.insert (.inr (by decide +kernel)) .nil))
  have hpadded : request.Padded model.config more :=
    ⟨hfilters, hsorts, fun hnone => absurd hnone (List.cons_ne_nil _ _), rfl, rfl, rfl⟩
  have hsame := Model.prepare_padded model hpadded
  refine ⟨hpadded, hsame, ?_⟩
  rw [hsame]
  cbv

end Listing
