import Listing.Proofs.Rendering
import Listing.Request.Predicate

/-!
# The conditions of a request

What the compiled groups of a request consist of: each condition of a filter group is a compiled
filter, and the search term has at most one group of its own (`FilterSpec.whereClause_ok`). A filter
comes from an entry that counts (`Filter.parse?_eq_some_iff`), and one that compiles is no range, or
a range with two bounds (`Filter.compile_ok`).
-/

namespace Listing

open Text

/-- All that an entry counts for. -/
theorem Filter.parse?_eq_some_iff {config : Config} {entry : String × String} {f : Filter} :
    parse? config entry = some f ↔ ∃ field name operator, splitKey entry.1 = (field, name) ∧
      FilterOperator.ofName? name = some operator ∧ config.isAllowed field = true ∧ entry.2 ≠ "" ∧
      f = ⟨field, config.resolve field, operator,
        if operator = .between then .ofRange entry.2 else .single entry.2⟩ := by
  rcases hkey : splitKey entry.1 with ⟨field, name⟩
  simp only [parse?, hkey, Prod.mk.injEq]
  constructor
  · intro h
    split at h
    · cases h
    · rename_i operator hname
      split at h
      · rename_i hcounts
        obtain ⟨hallowed, hgiven⟩ := Bool.and_eq_true_iff.1 hcounts
        cases h
        exact ⟨field, name, operator, ⟨rfl, rfl⟩, hname, hallowed, by simpa using hgiven, rfl⟩
      · cases h
  · rintro ⟨field, name, operator, ⟨rfl, rfl⟩, hname, hallowed, hgiven, rfl⟩
    simp [hname, hallowed, hgiven]

/-- All filters but ranges compile, whatever their value. -/
theorem Filter.compile_of_ne_between {f : Filter} (h : f.operator ≠ .between) :
    f.compile =
      .ok ⟨f.column, f.operator.comparison, .text f.value.raw, f.operator.isCaseSensitive⟩ := by
  obtain ⟨field, column, operator, value⟩ := f
  cases operator <;> first | exact absurd rfl h | rfl

/-- A filter that compiles compares its column, with two bounds if it is a range. -/
theorem Filter.compile_ok {f : Filter} {c : Condition} (h : f.compile = .ok c) :
    c.column = f.column ∧ (c.comparison = .between → c.value.bounds? = some 2) := by
  obtain ⟨field, column, operator, value⟩ := f
  by_cases hbetween : operator = .between
  · subst hbetween
    match value, h with
    | .range low high, h =>
      cases h
      exact ⟨rfl, fun _ => rfl⟩
  · rw [compile_of_ne_between hbetween] at h
    cases h
    refine ⟨rfl, fun hcomparison => ?_⟩
    cases operator <;> first | exact absurd rfl hbetween | cases hcomparison

namespace Assoc

variable {α β : Type} [DecidableEq α] {P : β → Prop} {k : α} {f : Option β → β}
  {es : List (α × β)}

theorem forall_alter (h : ∀ e ∈ es, P e.2) (hf : ∀ o, (∀ v ∈ o, P v) → P (f o)) :
    ∀ e ∈ alter k f es, P e.2 := by
  induction es with
  | nil =>
    intro e he
    rw [alter, List.mem_singleton] at he
    subst he
    exact hf none (by simp)
  | cons a es ih =>
    obtain ⟨key, value⟩ := a
    have hvalue := h (key, value) List.mem_cons_self
    have hrest : ∀ e ∈ es, P e.2 := fun e he => h e (List.mem_cons_of_mem _ he)
    intro e he
    rw [alter] at he
    split at he
    · rcases List.mem_cons.1 he with rfl | he
      · refine hf (some value) fun v hv => ?_
        rw [← Option.some.inj hv]
        exact hvalue
      · exact hrest e he
    · rcases List.mem_cons.1 he with rfl | he
      · exact hvalue
      · exact ih hrest e he

end Assoc

namespace FilterSpec

variable {config : Config} {spec : FilterSpec} {clause : WhereClause}

theorem forall_gather {P : Condition → Prop} {cs : List Condition}
    {groups : List (String × List Condition)} (hgroups : ∀ g ∈ groups, ∀ c ∈ g.2, P c)
    (hcs : ∀ c ∈ cs, P c) : ∀ g ∈ cs.foldl gather groups, ∀ c ∈ g.2, P c := by
  induction cs generalizing groups with
  | nil => exact hgroups
  | cons c cs ih =>
    refine ih ?_ fun a ha => hcs a (List.mem_cons_of_mem c ha)
    refine Assoc.forall_alter (P := fun group => ∀ c ∈ group, P c) hgroups ?_
    intro present hpresent a ha
    rcases List.mem_append.1 ha with ha | ha
    · cases present with
      | none => cases ha
      | some group => exact hpresent group rfl a ha
    · rw [List.mem_singleton.1 ha]
      exact hcs c List.mem_cons_self

theorem exists_of_mapM {α β : Type} {f : α → Except Error β} {as : List α} {bs : List β}
    (h : as.mapM f = .ok bs) : ∀ b ∈ bs, ∃ a ∈ as, f a = .ok b := by
  induction as generalizing bs with
  | nil =>
    cases h
    simp
  | cons a as ih =>
    rw [List.mapM_cons] at h
    cases hhead : f a with
    | error e =>
      rw [hhead] at h
      cases h
    | ok b =>
      rw [hhead] at h
      cases htail : as.mapM f with
      | error e =>
        rw [htail] at h
        cases h
      | ok bs' =>
        rw [htail] at h
        cases h
        intro b' hb'
        rcases List.mem_cons.1 hb' with rfl | hb'
        · exact ⟨a, List.mem_cons_self, hhead⟩
        · obtain ⟨a', ha', heq⟩ := ih htail b' hb'
          exact ⟨a', List.mem_cons_of_mem a ha', heq⟩

end FilterSpec

/-- A clause has the groups that have alternatives. -/
theorem WhereClause.groups_ofGroups (connective : Connective) (groups : List (List Condition)) :
    (ofGroups connective groups).groups = groups.filter (!·.isEmpty) := by
  have hpush (clause : WhereClause) :
      (groups.foldl push clause).groups = clause.groups ++ groups.filter (!·.isEmpty) := by
    induction groups generalizing clause with
    | nil => simp
    | cons group groups ih =>
      rw [List.foldl_cons, ih, push]
      cases group <;> simp
  rw [ofGroups, hpush]
  rfl

/-- The groups of a request: those of its filters, and one for its search term. -/
theorem FilterSpec.whereClause_ok {config : Config} {spec : FilterSpec} {clause : WhereClause}
    (h : spec.whereClause config = .ok clause) :
    ∃ filterGroups searchGroups, clause.groups = filterGroups ++ searchGroups ∧
      (∀ group ∈ filterGroups, ∀ c ∈ group, ∃ f ∈ spec.filters, f.compile = .ok c) ∧
      (searchGroups = [] ∨
        ∃ term, spec.search = some term ∧ searchGroups = [config.search term]) := by
  unfold whereClause at h
  cases hconditions : spec.filters.mapM Filter.compile with
  | error e =>
    rw [hconditions] at h
    cases h
  | ok conditions =>
    rw [hconditions] at h
    cases h
    refine ⟨_, _, (WhereClause.groups_ofGroups _ _).trans (List.filter_append _ _), ?_, ?_⟩
    · intro group hgroup
      obtain ⟨g, hg, rfl⟩ := List.mem_map.1 (List.mem_filter.1 hgroup).1
      exact forall_gather (P := fun c => ∃ f ∈ spec.filters, f.compile = .ok c) (by simp)
        (exists_of_mapM hconditions) g hg
    · cases spec.search with
      | none => exact .inl rfl
      | some term =>
        cases hempty : (config.search term).isEmpty with
        | true => exact .inl (by simp [hempty])
        | false => exact .inr ⟨term, rfl, by simp [hempty]⟩

end Listing
