import Listing.Proofs.Noninterference
import Listing.Proofs.Splicing
import Listing.Proofs.Vetting
import Mathlib

/-!
# Requests that cannot be prepared

All of a request that is wrong is dropped or replaced, except the value of a range filter that
counts (`Request.Malformed`). So what a request can fail with is the fault of its first such entry,
and after that what its listing would fail with for any request (`Model.error?_prepare`): the name
of a column, a search term, a sort, a page or a page size is never an error.

`Model.prepare_failure` tells what that means for a request compared with the empty one.
-/

namespace Listing

open Text

/-! ## First errors -/

/-- What a run failed with, if it did. -/
def error? {α : Type} : Except Error α → Option Error
  | .ok _ => none
  | .error e => some e

theorem error?_eq_some {α : Type} {x : Except Error α} {e : Error} :
    error? x = some e ↔ x = .error e := by
  cases x <;> simp [error?]

theorem error?_eq_none {α : Type} {x : Except Error α} : error? x = none ↔ ∃ a, x = .ok a := by
  cases x <;> simp [error?]

/-- What is told of the result of a run is told of one that succeeded. -/
theorem exists_ok_of_map {α β : Type} {x : Except Error α} {f : α → β} {b : β}
    (h : x.toOption.map f = some b) : ∃ a, x = .ok a ∧ f a = b := by
  cases x with
  | error e => cases h
  | ok a => exact ⟨a, rfl, Option.some.inj h⟩

/-- A run over a list fails with the first error in it. -/
theorem error?_mapM {α β : Type} (f : α → Except Error β) (as : List α) :
    error? (as.mapM f) = as.findSome? fun a => error? (f a) := by
  induction as with
  | nil => rfl
  | cons a as ih =>
    rw [List.mapM_cons, List.findSome?_cons]
    cases hhead : f a with
    | error e => rfl
    | ok b =>
      rw [error?, ← ih]
      cases as.mapM f <;> rfl

/-- The first find among the results of a filter is the first one that leads to a find. -/
theorem findSome?_filterMap {α β γ : Type} (f : α → Option β) (g : β → Option γ) (as : List α) :
    (as.filterMap f).findSome? g = as.findSome? fun a => (f a).bind g := by
  induction as with
  | nil => rfl
  | cons a as ih =>
    rw [List.filterMap_cons, List.findSome?_cons, ← ih]
    cases hhead : f a with
    | none => rfl
    | some b =>
      rw [Option.bind_some, List.findSome?_cons]

theorem error?_bind {α β : Type} (x : Except Error α) (f : α → Except Error β) :
    error? (x >>= f) = (error? x).or (x.toOption.bind fun a => error? (f a)) := by
  cases x <;> rfl

/-! ## Entries with an operator -/

namespace Text

theorem splitOnce_append {sep : Char} {s t : String} (h : sep ∉ s.toList) :
    splitOnce sep (s ++ String.singleton sep ++ t) = some (s, t) := by
  have hne : ∀ c ∈ s.toList, (c != sep) = true := by
    intro c hc
    rw [bne_iff_ne]
    rintro rfl
    exact h hc
  have hstop : ((sep :: t.toList).takeWhile (· != sep)) = [] ∧
      (sep :: t.toList).dropWhile (· != sep) = sep :: t.toList := by simp
  have hlist : (s ++ String.singleton sep ++ t).toList = s.toList ++ sep :: t.toList := by simp
  unfold splitOnce
  rw [hlist, List.dropWhile_append_of_pos hne, List.takeWhile_append_of_pos hne, hstop.1, hstop.2]
  simp

end Text

theorem FilterOperator.ofName?_eq_between {name : String} :
    ofName? name = some .between ↔ name = "between" := by
  constructor
  · intro h
    have hname := List.find?_some (show all.find? (·.name == name) = some .between from h)
    exact (eq_of_beq hname).symm
  · rintro rfl
    decide +kernel

/-- An entry that asks for a range names its column and the operator, with a colon between them. -/
theorem Filter.splitKey_eq_between {key field : String} (hfield : ':' ∉ field.toList) :
    splitKey key = (field, "between") ↔ key = field ++ ":between" := by
  have hcolon : field ++ ":between" = field ++ String.singleton ':' ++ "between" := by
    rw [String.append_assoc]
    rfl
  constructor
  · intro h
    unfold splitKey at h
    cases hsplit : Text.splitOnce ':' key with
    | none =>
      rw [hsplit] at h
      exact absurd (Prod.mk.inj h).2 (by decide +kernel)
    | some parts =>
      obtain rfl : parts = (field, "between") := by rwa [hsplit] at h
      rw [Text.eq_of_splitOnce hsplit, hcolon]
  · rintro rfl
    rw [splitKey, hcolon, Text.splitOnce_append hfield]
    rfl

/-! ## Entries that fail -/

/-- Whether an entry of a request asks for a range in an allowed column and gives a value that is
none. -/
structure Request.Malformed (config : Config) (entry : String × String) (field : String) :
    Prop where
  key : entry.1 = field ++ ":between"
  allowed : config.isAllowed field = true
  given : entry.2 ≠ ""
  /-- A range has one mark. -/
  marks : entry.2.toList.count '~' ≠ 1

/-- A value that is no range is kept as it is. -/
theorem FilterValue.ofRange_eq_single {raw s : String} :
    ofRange raw = .single s ↔ raw.toList.count '~' ≠ 1 ∧ s = raw := by
  have hrange := isRange_ofRange raw
  unfold ofRange at *
  cases hsplit : Text.splitTwo rangeMark raw with
  | some parts =>
    rw [hsplit] at hrange
    have hcount : raw.toList.count '~' = 1 := hrange.1 rfl
    simp [hcount]
  | none =>
    rw [hsplit] at hrange
    have hcount : raw.toList.count '~' ≠ 1 := fun hcount => by cases hrange.2 hcount
    simp [hcount, eq_comm]

namespace Filter

variable {config : Config} {entry : String × String} {f : Filter} {e : Error}

theorem compile_error_iff :
    f.compile = .error e ↔
      f.operator = .between ∧ ∃ raw, f.value = .single raw ∧ e = .malformedRange f.field raw := by
  obtain ⟨field, column, operator, value⟩ := f
  by_cases hbetween : operator = .between
  · subst hbetween
    cases value with
    | single raw => simp [compile, eq_comm]
    | range low high => simp [compile]
  · rw [compile_of_ne_between hbetween]
    simp [hbetween]

/-- What an entry fails with, if it counts and does not compile. -/
def fault? (config : Config) (entry : String × String) : Option Error :=
  (parse? config entry).bind fun f => error? f.compile

/-- An entry fails if it is malformed, and tells its field and its value as they were given. -/
theorem fault?_eq_some :
    fault? config entry = some e ↔
      ∃ field, Request.Malformed config entry field ∧ e = .malformedRange field entry.2 := by
  rw [fault?, Option.bind_eq_some_iff]
  simp only [parse?_eq_some_iff, error?_eq_some, compile_error_iff]
  constructor
  · rintro ⟨f, ⟨field, name, operator, hkey, hname, hallowed, hgiven, rfl⟩, hbetween, raw, hvalue,
      rfl⟩
    dsimp only at hbetween hvalue
    subst hbetween
    obtain rfl := FilterOperator.ofName?_eq_between.1 hname
    obtain ⟨hmarks, rfl⟩ := FilterValue.ofRange_eq_single.1 hvalue
    -- the key is cut behind the whole of the field
    have hcolon : ':' ∉ field.toList :=
      Identifier.not_mem (Config.isAllowed_iff.1 hallowed).isQualified (by decide)
    exact ⟨field, ⟨(splitKey_eq_between hcolon).1 hkey, hallowed, hgiven, hmarks⟩, rfl⟩
  · rintro ⟨field, h, rfl⟩
    have hcolon : ':' ∉ field.toList :=
      Identifier.not_mem (Config.isAllowed_iff.1 h.allowed).isQualified (by decide)
    exact ⟨_, ⟨field, "between", .between, (splitKey_eq_between hcolon).2 h.key,
      FilterOperator.ofName?_eq_between.2 rfl, h.allowed, h.given, rfl⟩, rfl, entry.2,
      FilterValue.ofRange_eq_single.2 ⟨h.marks, rfl⟩, rfl⟩

theorem fault?_eq_none :
    fault? config entry = none ↔ ∀ field, ¬Request.Malformed config entry field := by
  constructor
  · intro h field hmalformed
    rw [fault?_eq_some.2 ⟨field, hmalformed, rfl⟩] at h
    cases h
  · intro h
    refine Option.eq_none_iff_forall_not_mem.2 fun e he => ?_
    obtain ⟨field, hmalformed, -⟩ := fault?_eq_some.1 he
    exact h field hmalformed

end Filter

/-! ## Requests that fail -/

/-- The WHERE clause of a request fails with the fault of its first malformed entry. -/
theorem FilterSpec.error?_whereClause (config : Config) (entries : List (String × String))
    (search : Option String) :
    error? ((ofRequest config entries search).whereClause config) =
      entries.findSome? (Filter.fault? config) := by
  have hmapM : error? ((ofRequest config entries search).whereClause config) =
      error? ((ofRequest config entries search).filters.mapM Filter.compile) := by
    rw [whereClause, error?_bind]
    cases (ofRequest config entries search).filters.mapM Filter.compile <;> rfl
  rw [hmapM, error?_mapM]
  exact findSome?_filterMap (Filter.parse? config) (fun f => error? f.compile) entries

theorem error?_compose (dialect : Dialect) (countAlias base : String) (baseParams : List Value)
    (clause : WhereClause) (order : OrderBy) (limit : Limit) :
    error? (compose dialect countAlias base baseParams clause order limit) =
      refusal? countAlias base limit.isBounded := by
  refine Option.ext fun e => ?_
  rw [error?_eq_some, compose_error_iff]

namespace Model

/-- What a request fails with: the first of its malformed entries, or else what its base statement
is refused for. -/
theorem error?_prepare (model : Model) (request : Request) :
    error? (model.prepare request) =
      (request.filters.findSome? (Filter.fault? model.config)).or
        (refusal? model.config.countAlias model.base true) := by
  rw [← FilterSpec.error?_whereClause model.config request.filters request.search]
  cases hclause : (FilterSpec.ofRequest model.config request.filters request.search).whereClause
      model.config with
  | error e =>
    simp only [prepare, query, bind, Except.bind, hclause]
    rfl
  | ok clause =>
    have hrefusal := error?_compose model.dialect model.config.countAlias model.base
      model.baseParams clause (SortSpec.ofRequest model.config request.sorts).orderBy
      (Pagination.ofRequest model.config request.page request.limit).bound
    simp only [prepare, query, bind, Except.bind, hclause]
    rw [error?, Option.none_or]
    refine Eq.trans ?_ hrefusal
    cases compose model.dialect model.config.countAlias model.base model.baseParams clause
      (SortSpec.ofRequest model.config request.sorts).orderBy
      (Pagination.ofRequest model.config request.page request.limit).bound <;> rfl

/-- A request is malformed where its first malformed entry is. -/
theorem prepare_malformedRange_iff (model : Model) (request : Request) (field value : String) :
    model.prepare request = .error (.malformedRange field value) ↔
      ∃ before key after, request.filters = before ++ (key, value) :: after ∧
        Request.Malformed model.config (key, value) field ∧
        ∀ entry ∈ before, ∀ field, ¬Request.Malformed model.config entry field := by
  rw [← error?_eq_some, error?_prepare, Option.or_eq_some_iff]
  constructor
  · rintro (hfault | ⟨-, hrefusal⟩)
    · obtain ⟨before, ⟨key, raw⟩, after, hsplit, hentry, hbefore⟩ :=
        List.findSome?_eq_some_iff.1 hfault
      obtain ⟨field, hmalformed, heq⟩ := Filter.fault?_eq_some.1 hentry
      cases heq
      exact ⟨before, key, after, hsplit, hmalformed, fun entry he =>
        Filter.fault?_eq_none.1 (hbefore entry he)⟩
    · rcases refusal?_eq_some hrefusal with heq | ⟨why, heq⟩ <;> cases heq
  · rintro ⟨before, key, after, hsplit, hmalformed, hbefore⟩
    exact .inl (List.findSome?_eq_some_iff.2 ⟨before, (key, value), after, hsplit,
      Filter.fault?_eq_some.2 ⟨field, hmalformed, rfl⟩,
      fun entry he => Filter.fault?_eq_none.2 (hbefore entry he)⟩)

/-- A malformed entry is told, be it the first one or another. -/
theorem exists_malformedRange {model : Model} {request : Request} {entry : String × String}
    {field : String} (hentry : entry ∈ request.filters)
    (hmalformed : Request.Malformed model.config entry field) :
    ∃ field value, model.prepare request = .error (.malformedRange field value) := by
  have hfault := Filter.fault?_eq_some.2 ⟨field, hmalformed, rfl⟩
  obtain ⟨e, he⟩ := Option.isSome_iff_exists.1
    (List.findSome?_isSome_iff.2 ⟨entry, hentry, Option.isSome_of_eq_some hfault⟩)
  obtain ⟨first, -, hfirst⟩ := List.exists_of_findSome?_eq_some he
  obtain ⟨field', -, rfl⟩ := Filter.fault?_eq_some.1 hfirst
  exact ⟨field', first.2, by rw [← error?_eq_some, error?_prepare, he, Option.some_or]⟩

/-- A request without a malformed entry fails as the empty one does. -/
theorem error?_prepare_of_wellFormed {model : Model} {request : Request}
    (h : ∀ entry ∈ request.filters, ∀ field, ¬Request.Malformed model.config entry field) :
    error? (model.prepare request) = refusal? model.config.countAlias model.base true ∧
      error? (model.prepare {}) = refusal? model.config.countAlias model.base true := by
  have hfault : request.filters.findSome? (Filter.fault? model.config) = none :=
    List.findSome?_eq_none_iff.2 fun entry he => Filter.fault?_eq_none.2 (h entry he)
  constructor
  · rw [error?_prepare, hfault, Option.none_or]
  · rw [error?_prepare]
    rfl

/-- **Nothing in a request is an error except a range that is none.** The first malformed entry of
a request is told, with its field and its value. Any other request succeeds if the empty one does,
and fails as that one does, which is only for what its base statement is. -/
theorem prepare_failure (model : Model) (request : Request) :
    ((∃ field value, model.prepare request = .error (.malformedRange field value)) ↔
      ∃ entry ∈ request.filters, ∃ field, Request.Malformed model.config entry field) ∧
    (∀ field value, model.prepare request = .error (.malformedRange field value) ↔
      ∃ before key after, request.filters = before ++ (key, value) :: after ∧
        Request.Malformed model.config (key, value) field ∧
        ∀ entry ∈ before, ∀ field, ¬Request.Malformed model.config entry field) ∧
    ((∀ entry ∈ request.filters, ∀ field, ¬Request.Malformed model.config entry field) →
      ((∃ prepared, model.prepare request = .ok prepared) ↔
        ∃ prepared, model.prepare {} = .ok prepared) ∧
      ∀ e, model.prepare request = .error e →
        model.prepare {} = .error e ∧ (e = .alreadyComposed ∨ ∃ why, e = .unsupported why)) := by
  refine ⟨⟨?_, ?_⟩, prepare_malformedRange_iff model request, fun hnone => ?_⟩
  · rintro ⟨field, value, h⟩
    obtain ⟨before, key, after, hsplit, hmalformed, -⟩ :=
      (prepare_malformedRange_iff model request field value).1 h
    exact ⟨(key, value), by simp [hsplit], field, hmalformed⟩
  · rintro ⟨entry, hentry, field, hmalformed⟩
    exact exists_malformedRange hentry hmalformed
  · obtain ⟨hrequest, hempty⟩ := error?_prepare_of_wellFormed hnone
    refine ⟨by rw [← error?_eq_none, ← error?_eq_none, hrequest, hempty], fun e he => ?_⟩
    have hrefusal := error?_eq_some.2 he
    rw [hrequest] at hrefusal
    exact ⟨error?_eq_some.1 (hempty.trans hrefusal), refusal?_eq_some hrefusal⟩

/-- An empty value, a column that is not allowed and a range are no faults, and the first of two
faults is told. Without any, the base statement is what is refused. -/
theorem prepare_failure_first :
    let model : Model := ⟨.postgres, .default, "SELECT DISTINCT a FROM t", []⟩
    let request (value : String) : Request :=
      { filters := [("age:between", ""), ("a b:between", "1"), ("age:between", value), ("b", "~")]
        search := some "x", sorts := [("age", "up")], page := some "-1", limit := some "all" }
    (∃ before key after, (request "1~2~3").filters = before ++ (key, "1~2~3") :: after ∧
      Request.Malformed model.config (key, "1~2~3") "age" ∧
      ∀ entry ∈ before, ∀ field, ¬Request.Malformed model.config entry field) ∧
    model.prepare (request "1~2") = .error (.unsupported .distinct) ∧
    model.prepare {} = .error (.unsupported .distinct) := by
  intro model request
  have hfaulty : model.prepare (request "1~2~3") = .error (.malformedRange "age" "1~2~3") := by
    cbv
  have hrefused : model.prepare (request "1~2") = .error (.unsupported .distinct) := by
    cbv
  obtain ⟨hany, -, hsame⟩ := prepare_failure model (request "1~2")
  have hnone : ∀ entry ∈ (request "1~2").filters, ∀ field,
      ¬Request.Malformed model.config entry field := by
    intro entry hentry field hmalformed
    obtain ⟨field', value, h⟩ := hany.2 ⟨entry, hentry, field, hmalformed⟩
    rw [hrefused] at h
    cases h
  exact ⟨((prepare_failure model (request "1~2~3")).2.1 "age" "1~2~3").1 hfaulty, hrefused,
    ((hsame hnone).2 _ hrefused).1⟩

end Model

end Listing
