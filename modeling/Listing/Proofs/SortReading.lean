import Listing.Proofs.Vetting

/-!
# Sort columns read back

`OrderBy.read?` reads the text of sort columns: the items between the commas, and the words of an
item between the blanks. There is no comma or blank in a qualified identifier, so that rendered sort
columns read back as what they were (`OrderBy.read?_render`), and no two lists of them have the same
text.

`SortSpec.ofRequest_settles` tells from the entries of a request which columns these are.
-/

namespace Listing

open Text

/-! ## Reading -/

/-- The direction of an SQL word. -/
def Direction.ofKeyword? (word : List Char) : Option Direction :=
  if word = "ASC".toList then some .ascending
  else if word = "DESC".toList then some .descending
  else none

/-- The sort column that some words say. -/
def SortField.ofWords? : List (List Char) → Option SortField
  | [column, keyword] =>
    (Direction.ofKeyword? keyword).map fun direction => ⟨String.ofList column, direction, false⟩
  | [column, keyword, nulls, last] =>
    if nulls = "NULLS".toList ∧ last = "LAST".toList then
      (Direction.ofKeyword? keyword).map fun direction => ⟨String.ofList column, direction, true⟩
    else none
  | _ => none

namespace OrderBy

/-- The words between the blanks of a text. -/
def words (cs : List Char) : List (List Char) := (cs.splitOn ' ').filter (!·.isEmpty)

/-- The items between the commas of a text, each as its words. -/
def items (cs : List Char) : List (List (List Char)) := (cs.splitOn ',').map words

/-- The sort columns that a text says, if it says nothing else. -/
def read? (s : String) : Option (List SortField) :=
  if s.isEmpty then some [] else (items s.toList).mapM SortField.ofWords?

theorem words_append (cs cs' : List Char) : words (cs ++ ' ' :: cs') = words cs ++ words cs' := by
  rw [words, List.splitOn_append_cons_self, List.filter_append]
  rfl

theorem words_singleton {cs : List Char} (hne : cs ≠ []) (h : ' ' ∉ cs) : words cs = [cs] := by
  rw [words, List.splitOn_eq_singleton h]
  simp [hne]

theorem items_append (cs cs' : List Char) : items (cs ++ ',' :: cs') = items cs ++ items cs' := by
  rw [items, List.splitOn_append_cons_self, List.map_append]
  rfl

theorem items_singleton {cs : List Char} (h : ',' ∉ cs) : items cs = [words cs] := by
  rw [items, List.splitOn_eq_singleton h, List.map_singleton]

/-- A blank in front is no part of the first item. -/
theorem items_blank (cs : List Char) : items (' ' :: cs) = items cs := by
  have hwords (item : List Char) : words (' ' :: item) = words item := words_append [] item
  have hsplit : (' ' :: cs).splitOn ',' = (cs.splitOn ',').modifyHead (' ' :: ·) := by
    rw [List.splitOn, List.splitOnP_cons_eq_if_modifyHead]
    rfl
  rw [items, items, hsplit]
  cases hitems : cs.splitOn ',' with
  | nil => rfl
  | cons item rest => rw [List.modifyHead_cons, List.map_cons, hwords, List.map_cons]

end OrderBy

/-! ## Sort columns -/

namespace SortField

/-- The words of a sort column. -/
def words (field : SortField) : List (List Char) :=
  [field.column.toList, field.direction.keyword.toList] ++
    if field.nullsLast then ["NULLS".toList, "LAST".toList] else []

theorem ofWords?_words (field : SortField) : ofWords? field.words = some field := by
  obtain ⟨column, direction, nullsLast⟩ := field
  have hkeyword : Direction.ofKeyword? direction.keyword.toList = some direction := by
    cases direction <;> decide
  cases nullsLast with
  | false => simp [words, ofWords?, hkeyword]
  | true => simp [words, ofWords?, hkeyword]

/-- What is written behind the column. -/
def ending (field : SortField) : String :=
  field.direction.keyword ++ if field.nullsLast then " NULLS LAST" else ""

theorem toList_render (field : SortField) :
    field.render.toList = field.column.toList ++ ' ' :: field.ending.toList := by
  simp [render, ending]

variable {field : SortField}

theorem words_render (h : Identifier.isQualified field.column = true) :
    OrderBy.words field.render.toList = field.words := by
  have hcolumn : OrderBy.words field.column.toList = [field.column.toList] := by
    refine OrderBy.words_singleton ?_ (Identifier.not_mem h (by decide))
    intro hnil
    rw [String.toList_eq_nil_iff.1 hnil] at h
    cases h
  have hending : OrderBy.words field.ending.toList = field.direction.keyword.toList ::
      if field.nullsLast then ["NULLS".toList, "LAST".toList] else [] := by
    unfold ending
    cases field.direction <;> cases field.nullsLast <;> decide
  rw [toList_render, OrderBy.words_append, hcolumn, hending]
  rfl

theorem comma_not_mem_render (h : Identifier.isQualified field.column = true) :
    ',' ∉ field.render.toList := by
  have hending : ',' ∉ ' ' :: field.ending.toList := by
    unfold ending
    cases field.direction <;> cases field.nullsLast <;> decide
  rw [toList_render, List.mem_append]
  rintro (hmem | hmem)
  · exact Identifier.not_mem h (by decide) hmem
  · exact hending hmem

end SortField

namespace OrderBy

theorem items_render {fields : List SortField} (hne : fields ≠ [])
    (h : ∀ field ∈ fields, Identifier.isQualified field.column = true) :
    items (", ".intercalate (fields.map SortField.render)).toList = fields.map SortField.words := by
  induction fields with
  | nil => exact absurd rfl hne
  | cons field fields ih =>
    have hfield := h field List.mem_cons_self
    have hitem : items field.render.toList = [field.words] := by
      rw [items_singleton (SortField.comma_not_mem_render hfield), SortField.words_render hfield]
    cases fields with
    | nil => simpa using hitem
    | cons field' fields =>
      have hrest := ih (List.cons_ne_nil _ _) fun a ha => h a (List.mem_cons_of_mem _ ha)
      have htext : (", ".intercalate ((field :: field' :: fields).map SortField.render)).toList =
          field.render.toList ++ ',' :: ' ' ::
            (", ".intercalate ((field' :: fields).map SortField.render)).toList := by
        rw [List.map_cons, List.map_cons, String.intercalate_cons_cons]
        simp
      rw [htext, items_append, hitem, items_blank, hrest]
      rfl

/-- Rendered sort columns read back as what they were. -/
theorem read?_render {order : OrderBy}
    (h : ∀ column ∈ order.columns, Identifier.isQualified column = true) :
    read? order.render = some order.fields := by
  obtain ⟨fields⟩ := order
  have hcolumns : ∀ field ∈ fields, Identifier.isQualified field.column = true :=
    fun field hfield => h field.column (List.mem_map_of_mem hfield)
  by_cases hne : fields = []
  · subst hne
    rfl
  · have hitems := items_render hne hcolumns
    have hread : (fields.map SortField.words).mapM SortField.ofWords? = some fields := by
      have hwords : SortField.ofWords? ∘ SortField.words = fun field => pure field :=
        funext SortField.ofWords?_words
      rw [List.mapM_map, hwords, List.mapM_pure, List.map_id']
      rfl
    have hfull : (render ⟨fields⟩).isEmpty = false := by
      rw [Bool.eq_false_iff]
      intro hempty
      rw [← render, String.isEmpty_iff.1 hempty] at hitems
      cases fields with
      | nil => exact hne rfl
      | cons field fields => cases hitems
    unfold read?
    rw [hfull, if_neg Bool.false_ne_true]
    unfold render
    rw [hitems, hread]

end OrderBy

/-! ## Sort columns of a request -/

namespace SortSpec

/-- **First position, last direction.** The columns of a request are those of the fields for which
an entry counts, each where an entry first counted for it and in the direction of the last that did;
the default sorts apply only if there is no entry at all. The last direction decides where rows
without a value go, and the rendered sort columns are these and no others. -/
theorem ofRequest_settles (config : Config) (raw : List (String × String)) :
    ∃ fields, (∀ other, Sorts config raw other ↔ other = fields) ∧
      (ofRequest config raw).fields = fields.map (fun (field, direction) =>
        ⟨config.resolve field, direction,
          match direction with
          | .ascending => config.ascNullsLast
          | .descending => config.descNullsLast⟩) ∧
      OrderBy.read? (ofRequest config raw).orderBy.render = some (ofRequest config raw).fields := by
  refine ⟨columns config raw, fun other => sorts_iff, ?_, ?_⟩
  · rw [ofRequest]
    refine List.map_congr_left ?_
    rintro ⟨field, direction⟩ -
    cases direction <;> rfl
  · exact OrderBy.read?_render fun column hcolumn => (vetted_columns hcolumn).1

/-- A direction that is no word leaves the last one that is. -/
example :
    (ofRequest .default
      [("a", "asc"), ("b", "up"), ("c", "asc"), ("a", "desc"), ("a", "ASC")]).orderBy.render =
        "a DESC, c ASC" := by
  decide +kernel

end SortSpec

end Listing
