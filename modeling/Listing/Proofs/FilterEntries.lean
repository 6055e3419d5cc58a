import Listing.Proofs.Failures
import Mathlib

/-!
# Filters as entries

A filter that counts is written as an entry of a request again (`Filter.entry`): its field and the
name of its operator with a colon between them, and the text of its value, the bounds of a range
around a mark. `FilterSpec.ofRequest_entries`: such entries give back the filters that they were
written from, since the field of a filter holds no colon (`Filter.splitKey_entry`), and since a
value that was cut in two is cut at the same place again (`FilterValue.ofRange_eq_range`).
-/

namespace Listing

open Text

/-! ## Texts -/

/-- What is left of a text without the blanks at its ends has none to lose. -/
theorem Text.trim_trim (s : String) : trim (trim s) = trim s := by
  have hlist : (trim s).toList = (s.toList.dropWhile isBlank).rdropWhile isBlank :=
    String.toList_ofList
  have hfront : (trim s).toList.dropWhile isBlank = (trim s).toList := by
    rw [hlist, List.dropWhile_eq_self_iff]
    intro hpos
    -- a character that is left stood in front before the other end was trimmed
    have hinitial := List.rdropWhile_prefix isBlank (s.toList.dropWhile isBlank)
    have hhead := List.dropWhile_get_zero_not isBlank s.toList
      (Nat.lt_of_lt_of_le hpos hinitial.length_le)
    simpa [hinitial.getElem hpos] using hhead
  have hback : (trim s).toList.rdropWhile isBlank = (trim s).toList := by
    rw [hlist]
    exact List.rdropWhile_idempotent isBlank _
  apply String.toList_inj.1
  calc (trim (trim s)).toList
      = ((trim s).toList.dropWhile isBlank).rdropWhile isBlank := String.toList_ofList
    _ = (trim s).toList := by rw [hfront, hback]

theorem Text.splitTwo_append {sep : Char} {s t : String} (hs : sep ∉ s.toList)
    (ht : sep ∉ t.toList) : splitTwo sep (s ++ String.singleton sep ++ t) = some (s, t) := by
  rw [splitTwo, splitOnce_append hs]
  simp [ht]

/-! ## Values -/

namespace FilterValue

/-- A value that may be a range is kept whole. -/
theorem raw_ofRange (s : String) : (ofRange s).raw = s := by
  unfold ofRange
  split
  · rename_i low high hsplit
    exact (eq_of_splitTwo hsplit).symm
  · rfl

/-- A value is a range if it holds one mark, and has the bounds around it. -/
theorem ofRange_eq_range {s low high : String} :
    ofRange s = .range low high ↔ s.toList.count '~' = 1 ∧ s = low ++ "~" ++ high := by
  constructor
  · intro h
    refine ⟨(isRange_ofRange s).1 (by rw [h]; rfl), ?_⟩
    have hraw := raw_ofRange s
    rw [h] at hraw
    exact hraw.symm
  · rintro ⟨hcount, rfl⟩
    have hsum : low.toList.count '~' + (high.toList.count '~' + 1) = 1 := by
      simpa [String.toList_append, List.count_append] using hcount
    have hlow : '~' ∉ low.toList := List.count_eq_zero.1 (by omega)
    have hhigh : '~' ∉ high.toList := List.count_eq_zero.1 (by omega)
    have hsplit : splitTwo rangeMark (low ++ "~" ++ high) = some (low, high) :=
      splitTwo_append hlow hhigh
    rw [ofRange, hsplit]

end FilterValue

/-! ## Filters -/

theorem FilterOperator.ofName?_name (operator : FilterOperator) :
    ofName? operator.name = some operator := by
  cases operator <;> rfl

/-- A filter as an entry of a request that names its operator. -/
def Filter.entry (f : Filter) : String × String :=
  (f.field ++ ":" ++ f.operator.name, f.value.raw)

namespace Filter

variable {config : Config} {f : Filter}

/-- What makes a filter one that an entry of a request can give. -/
structure Accepted (config : Config) (f : Filter) : Prop where
  allowed : config.isAllowed f.field = true
  resolved : f.column = config.resolve f.field
  given : f.value.raw ≠ ""
  /-- The value is what its text makes of it. -/
  stored : f.value = if f.operator = .between then .ofRange f.value.raw else .single f.value.raw

/-- A filter keeps the text of its value, as a range if it is one and the operator asks for one. -/
structure Stores (f : Filter) (text : String) : Prop where
  raw : f.value.raw = text
  range_iff : ∀ low high, f.value = .range low high ↔
    f.operator = .between ∧ text.toList.count '~' = 1 ∧ text = low ++ "~" ++ high
  isRange_iff : (∃ low high, f.value = .range low high) ↔
    f.operator = .between ∧ text.toList.count '~' = 1

theorem accepted_of_parse? {e : String × String} (h : parse? config e = some f) :
    Accepted config f ∧ f.value.raw = e.2 := by
  obtain ⟨field, name, operator, -, -, hallowed, hgiven, rfl⟩ := parse?_eq_some_iff.1 h
  have hraw : (if operator = .between then FilterValue.ofRange e.2 else .single e.2).raw = e.2 := by
    split
    · exact FilterValue.raw_ofRange e.2
    · rfl
  refine ⟨⟨hallowed, rfl, ?_, ?_⟩, hraw⟩
  · rw [hraw]
    exact hgiven
  · rw [hraw]

theorem Accepted.stores (h : Accepted config f) : f.Stores f.value.raw := by
  have hrange (low high : String) : f.value = .range low high ↔
      f.operator = .between ∧ f.value.raw.toList.count '~' = 1 ∧
        f.value.raw = low ++ "~" ++ high := by
    by_cases hbetween : f.operator = .between
    · have hstored : f.value = .ofRange f.value.raw := h.stored.trans (if_pos hbetween)
      rw [← FilterValue.ofRange_eq_range, ← hstored]
      simp [hbetween]
    · have hstored : f.value = .single f.value.raw := h.stored.trans (if_neg hbetween)
      rw [hstored]
      simp [hbetween]
  refine ⟨rfl, hrange, ?_, ?_⟩
  · rintro ⟨low, high, hvalue⟩
    obtain ⟨hbetween, hcount, -⟩ := (hrange low high).1 hvalue
    exact ⟨hbetween, hcount⟩
  · rintro ⟨hbetween, hcount⟩
    obtain ⟨⟨low, high⟩, hsplit⟩ := Option.isSome_iff_exists.1 ((isSome_splitTwo '~' _).2 hcount)
    have hmark : "~" = String.singleton '~' := rfl
    have htext : f.value.raw = low ++ "~" ++ high := by
      rw [hmark]
      exact eq_of_splitTwo hsplit
    exact ⟨low, high, (hrange low high).2 ⟨hbetween, hcount, htext⟩⟩

/-- No colon is in an allowed name, so that a key is cut where it was put together. -/
theorem splitKey_entry (h : config.isAllowed f.field = true) :
    splitKey f.entry.1 = (f.field, f.operator.name) := by
  have hcolon : ':' ∉ f.field.toList :=
    Identifier.not_mem (Config.isAllowed_iff.1 h).isQualified (by decide)
  have hsplit : splitOnce ':' f.entry.1 = some (f.field, f.operator.name) :=
    splitOnce_append hcolon
  rw [splitKey, hsplit]
  rfl

/-- A filter that counts is read from the entry that it is written as. -/
theorem Accepted.parse?_entry (h : Accepted config f) : parse? config f.entry = some f := by
  refine parse?_eq_some_iff.2 ⟨f.field, f.operator.name, f.operator, splitKey_entry h.allowed,
    FilterOperator.ofName?_name f.operator, h.allowed, h.given, ?_⟩
  change f = ⟨f.field, config.resolve f.field, f.operator,
    if f.operator = .between then .ofRange f.value.raw else .single f.value.raw⟩
  rw [← h.resolved, ← h.stored]

end Filter

/-! ## Filter specs -/

namespace FilterSpec

variable {config : Config} {spec : FilterSpec}

/-- A term that is searched for is looked for again as it is. -/
theorem searchTerm_searchTerm (config : Config) (search : Option String) :
    searchTerm config (searchTerm config search) = searchTerm config search := by
  unfold searchTerm
  split
  · cases search with
    | none => rfl
    | some term =>
      by_cases hempty : (trim term).isEmpty = true
      · simp [Option.filter, hempty]
      · simp [Option.filter, hempty, trim_trim]
  · rfl

theorem filterMap_entry {filters : List Filter} (h : ∀ f ∈ filters, f.Accepted config) :
    (filters.map Filter.entry).filterMap (Filter.parse? config) = filters := by
  induction filters with
  | nil => rfl
  | cons f filters ih =>
    have hhead := (h f List.mem_cons_self).parse?_entry
    have htail := ih fun a ha => h a (List.mem_cons_of_mem f ha)
    rw [List.map_cons, List.filterMap_cons_some hhead, htail]

/-- **The filters of a request are read again from the entries that they are written as**, all of
them in their order and with the search term; and a filter has the text of its entry as its value,
cut in two if the operator asks for a range and there is one mark to cut it at. -/
theorem ofRequest_entries (config : Config) (entries : List (String × String))
    (search : Option String) :
    let spec := ofRequest config entries search
    ofRequest config (spec.filters.map Filter.entry) spec.search = spec ∧
      ∀ entry ∈ entries, ∀ f, Filter.parse? config entry = some f →
        f ∈ spec.filters ∧ f.Stores entry.2 := by
  intro spec
  have haccepted : ∀ f ∈ spec.filters, f.Accepted config := by
    intro f hf
    obtain ⟨entry, -, hentry⟩ := List.mem_filterMap.1 hf
    exact (Filter.accepted_of_parse? hentry).1
  constructor
  · calc ofRequest config (spec.filters.map Filter.entry) spec.search
        = ⟨(spec.filters.map Filter.entry).filterMap (Filter.parse? config),
            searchTerm config (searchTerm config search)⟩ := rfl
      _ = ⟨spec.filters, searchTerm config search⟩ := by
          rw [filterMap_entry haccepted, searchTerm_searchTerm]
      _ = spec := rfl
  · intro entry hentry f hf
    obtain ⟨hf', hraw⟩ := Filter.accepted_of_parse? hf
    have hstores := hf'.stores
    rw [hraw] at hstores
    exact ⟨List.mem_filterMap.2 ⟨entry, hentry, hf⟩, hstores⟩

/-- A range with both bounds empty, next to a text with two marks, an operator that goes without
saying and blanks outside ASCII around the term. -/
theorem ofRequest_entries_empty_bounds :
    let entries := [("age:between", "~"), ("age:between", "1~2~3"), ("name", "x:y"), ("a b", "z")]
    let spec := ofRequest .default entries (some "\u3000é \u0085")
    spec = ⟨[⟨"age", "age", .between, .range "" ""⟩, ⟨"age", "age", .between, .single "1~2~3"⟩,
        ⟨"name", "name", .contains, .single "x:y"⟩], some "é"⟩ ∧
      ofRequest .default [("age:between", "~"), ("age:between", "1~2~3"), ("name:contains", "x:y")]
        (some "é") = spec ∧
      Filter.Stores ⟨"age", "age", .between, .range "" ""⟩ "~" := by
  intro entries spec
  have hspec : spec = ⟨[⟨"age", "age", .between, .range "" ""⟩,
      ⟨"age", "age", .between, .single "1~2~3"⟩, ⟨"name", "name", .contains, .single "x:y"⟩],
      some "é"⟩ := by
    cbv
  have hfilter : Filter.parse? .default ("age:between", "~") =
      some ⟨"age", "age", .between, .range "" ""⟩ := by
    cbv
  obtain ⟨hagain, hstores⟩ := ofRequest_entries .default entries (some "\u3000é \u0085")
  have hprinted : spec.filters.map Filter.entry =
      [("age:between", "~"), ("age:between", "1~2~3"), ("name:contains", "x:y")] := by
    rw [hspec]
    rfl
  have hterm : spec.search = some "é" := by
    rw [hspec]
  rw [hprinted, hterm] at hagain
  exact ⟨hspec, hagain, (hstores _ List.mem_cons_self _ hfilter).2⟩

end FilterSpec

end Listing
