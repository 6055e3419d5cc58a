import Listing.Request.Sort
import Mathlib.Data.List.Induction

/-!
# Sorts settle

An entry of a sort list counts for the field that it names if the field is allowed and the
direction is one of the two exact words (`SortSpec.Directs`). A field stands where an entry first
counted for it, with the direction of the entry that last did (`SortSpec.Settles`): an entry that
does not count leaves the fields as they are (`Settles.pass`), and one that counts keeps that
order and sets the direction (`Settles.put`).

`SortSpec.settles_iff`: these conditions determine the fields, and `SortSpec.settle` finds them.
`SortSpec.sorts_iff` is the same for the columns of a request, where the default sorts take their
place if there is no entry at all.
-/

namespace Listing

/-! ## Entries and fields -/

theorem Direction.ofName?_eq_some_iff {s : String} {d : Direction} :
    ofName? s = some d ↔ s = d.name := by
  constructor
  · intro h
    have hname := List.find?_some (show [ascending, descending].find? (·.name == s) = some d from h)
    exact (eq_of_beq hname).symm
  · rintro rfl
    cases d <;> decide

namespace SortSpec

variable {config : Config} {raw : List (String × String)} {entry : String × String}
  {field : String} {d : Direction} {fields : List (String × Direction)}

/-- An entry gives a field a direction. -/
structure Directs (config : Config) (entry : String × String) (field : String) (d : Direction) :
    Prop where
  names : entry.1 = field
  word : entry.2 = d.name
  allowed : config.isAllowed field = true

/-- An entry counts for a field. -/
def Counts (config : Config) (entry : String × String) (field : String) : Prop :=
  ∃ d, Directs config entry field d

theorem directs_iff : Directs config entry field d ↔ directive? config entry = some (field, d) := by
  constructor
  · rintro ⟨rfl, hword, hallowed⟩
    rw [directive?, Direction.ofName?_eq_some_iff.2 hword]
    exact if_pos hallowed
  · intro h
    unfold directive? at h
    split at h
    · rename_i hword
      split at h
      · rename_i hallowed
        obtain ⟨rfl, rfl⟩ := Prod.mk.inj (Option.some.inj h)
        exact ⟨rfl, Direction.ofName?_eq_some_iff.1 hword, hallowed⟩
      · cases h
    · cases h

/-- Entries started to count for `a` before they did for `b`. -/
def Precedes (config : Config) (raw : List (String × String)) (a b : String) : Prop :=
  ∃ front, front <+: raw ∧ (∃ entry ∈ front, Counts config entry a) ∧
    ∀ entry ∈ front, ¬Counts config entry b

/-- The last entry that counts for a field gives it a direction. -/
def DirectsLast (config : Config) (raw : List (String × String)) (field : String) (d : Direction) :
    Prop :=
  ∃ front entry back, raw = front ++ entry :: back ∧ Directs config entry field d ∧
    ∀ e ∈ back, ¬Counts config e field

/-- How the fields of a sort list settle. -/
structure Settles (config : Config) (raw : List (String × String))
    (fields : List (String × Direction)) : Prop where
  /-- The fields are those for which an entry counts. -/
  mem_iff : ∀ field, field ∈ fields.map (·.1) ↔ ∃ entry ∈ raw, Counts config entry field
  nodup : (fields.map (·.1)).Nodup
  first : (fields.map (·.1)).Pairwise (Precedes config raw)
  last : ∀ f ∈ fields, DirectsLast config raw f.1 f.2

theorem Precedes.append {a b : String} (h : Precedes config raw a b)
    (more : List (String × String)) : Precedes config (raw ++ more) a b := by
  obtain ⟨front, hfront, hseen, hnot⟩ := h
  exact ⟨front, hfront.trans (List.prefix_append raw more), hseen, hnot⟩

theorem Precedes.asymm {a b : String} (h : Precedes config raw a b) :
    ¬Precedes config raw b a := by
  rintro ⟨front', hfront', ⟨e', he', hb⟩, hnota⟩
  obtain ⟨front, hfront, ⟨e, he, ha⟩, hnotb⟩ := h
  rcases List.prefix_or_prefix_of_prefix hfront hfront' with hle | hle
  · exact hnota e (hle.subset he) ha
  · exact hnotb e' (hle.subset he') hb

/-- An entry that does not count for a field leaves its direction. -/
theorem DirectsLast.append (h : DirectsLast config raw field d)
    (hentry : ¬Counts config entry field) : DirectsLast config (raw ++ [entry]) field d := by
  obtain ⟨front, e, back, rfl, hdirects, hback⟩ := h
  refine ⟨front, e, back ++ [entry], by simp, hdirects, ?_⟩
  intro a ha
  rcases List.mem_append.1 ha with ha | ha
  · exact hback a ha
  · rw [List.mem_singleton.1 ha]
    exact hentry

theorem Directs.unique {d' : Direction} (h : Directs config entry field d)
    (h' : Directs config entry field d') : d = d' := by
  have heq := directs_iff.1 h
  rw [directs_iff.1 h'] at heq
  exact (Prod.mk.inj (Option.some.inj heq)).2.symm

/-- From the last entry that counts for a field on, the field is given no other direction. -/
theorem Directs.eq_of_last {e e' : String × String} {d' : Direction}
    {between back back' : List (String × String)} (h : Directs config e field d)
    (hback : ∀ a ∈ back, ¬Counts config a field) (hrest : e :: back = between ++ e' :: back')
    (h' : Directs config e' field d') : d = d' := by
  cases between with
  | nil =>
    obtain ⟨rfl, -⟩ := List.cons.inj hrest
    exact h.unique h'
  | cons a between =>
    have hmem : e' ∈ back := by simp [(List.cons.inj hrest).2]
    exact absurd ⟨d', h'⟩ (hback e' hmem)

theorem DirectsLast.unique {d' : Direction} (h : DirectsLast config raw field d)
    (h' : DirectsLast config raw field d') : d = d' := by
  obtain ⟨front, e, back, rfl, hdirects, hback⟩ := h
  obtain ⟨front', e', back', heq, hdirects', hback'⟩ := h'
  rcases List.append_eq_append_iff.1 heq with ⟨between, -, hrest⟩ | ⟨between, -, hrest⟩
  · exact hdirects.eq_of_last hback hrest hdirects'
  · exact (hdirects'.eq_of_last hback' hrest hdirects).symm

namespace Settles

theorem nil (config : Config) : Settles config [] [] where
  mem_iff field := by simp
  nodup := List.nodup_nil
  first := .nil
  last f hf := by cases hf

/-- An entry that does not count changes nothing. -/
theorem pass (h : Settles config raw fields) (hentry : ∀ field, ¬Counts config entry field) :
    Settles config (raw ++ [entry]) fields where
  mem_iff field := by
    rw [h.mem_iff]
    constructor
    · rintro ⟨e, he, hcounts⟩
      exact ⟨e, List.mem_append_left _ he, hcounts⟩
    · rintro ⟨e, he, hcounts⟩
      rcases List.mem_append.1 he with he | he
      · exact ⟨e, he, hcounts⟩
      · rw [List.mem_singleton.1 he] at hcounts
        exact absurd hcounts (hentry field)
  nodup := h.nodup
  first := h.first.imp fun hprecedes => hprecedes.append [entry]
  last f hf := (h.last f hf).append (hentry f.1)

/-- An entry that counts sets the direction of its field, which goes behind the others if it is
new. -/
theorem put (h : Settles config raw fields) (hentry : Directs config entry field d) :
    Settles config (raw ++ [entry]) (Assoc.alter field (fun _ => d) fields) := by
  have hcounts (other : String) : Counts config entry other ↔ other = field := by
    constructor
    · rintro ⟨d', hother⟩
      exact hother.names.symm.trans hentry.names
    · rintro rfl
      exact ⟨d, hentry⟩
  constructor
  case mem_iff =>
    intro other
    rw [Assoc.mem_keys_alter, h.mem_iff]
    simp only [List.mem_append, List.mem_singleton, or_and_right, exists_or, exists_eq_left,
      hcounts]
  case nodup => exact Assoc.nodup_keys_alter h.nodup
  case first =>
    have hfirst := h.first.imp fun hprecedes => hprecedes.append [entry]
    rw [Assoc.keys_alter]
    split
    · exact hfirst
    · rename_i hfield
      -- the entries so far tell all fields from the new one
      refine List.pairwise_append.2 ⟨hfirst, List.pairwise_singleton _ _, ?_⟩
      intro a ha b hb
      rw [List.mem_singleton.1 hb]
      refine ⟨raw, List.prefix_append _ _, (h.mem_iff a).1 ha, ?_⟩
      intro e he hcounts
      exact hfield ((h.mem_iff field).2 ⟨e, he, hcounts⟩)
  case last =>
    intro f hf
    rcases Assoc.mem_alter_const h.nodup hf with rfl | ⟨hf, hne⟩
    · refine ⟨raw, entry, [], rfl, hentry, ?_⟩
      intro e he
      cases he
    · exact (h.last f hf).append fun hf => hne ((hcounts f.1).1 hf)

/-- The fields settle in one way only. -/
theorem unique {fields' : List (String × Direction)} (h : Settles config raw fields)
    (h' : Settles config raw fields') : fields = fields' := by
  have hkeys : fields.map (·.1) = fields'.map (·.1) := by
    refine List.Perm.eq_of_pairwise ?_ h.first h'.first ?_
    · intro a b _ _ hab hba
      exact absurd hba hab.asymm
    · exact (List.perm_ext_iff_of_nodup h.nodup h'.nodup).2 fun field =>
        (h.mem_iff field).trans (h'.mem_iff field).symm
  have hlength : fields.length = fields'.length := by
    simpa using congrArg List.length hkeys
  refine List.ext_getElem hlength ?_
  intro i hi hi'
  have hname : fields[i].1 = fields'[i].1 := by
    have hget := congrArg (·[i]?) hkeys
    simpa [hi, hi'] using hget
  have hdirection := h.last _ (List.getElem_mem hi)
  rw [hname] at hdirection
  exact Prod.ext hname (hdirection.unique (h'.last _ (List.getElem_mem hi')))

end Settles

/-- The entries of a sort list settle one after the other. -/
theorem settles_settle (config : Config) (raw : List (String × String)) :
    Settles config raw (settle (raw.filterMap (directive? config))) := by
  induction raw using List.reverseRecOn with
  | nil => exact .nil config
  | append_singleton raw entry ih =>
    rw [List.filterMap_append, settle, List.foldl_append]
    cases hdirective : directive? config entry with
    | none =>
      have hentry : ∀ field, ¬Counts config entry field := by
        rintro field ⟨d, hd⟩
        rw [directs_iff.1 hd] at hdirective
        cases hdirective
      rw [List.filterMap_cons_none hdirective]
      exact ih.pass hentry
    | some e =>
      rw [List.filterMap_cons_some hdirective]
      exact ih.put (directs_iff.2 hdirective)

/-- The fields of a sort list are determined by where entries first count for them and what the last
ones say. -/
theorem settles_iff : Settles config raw fields ↔
    settle (raw.filterMap (directive? config)) = fields := by
  constructor
  · exact (settles_settle config raw).unique
  · rintro rfl
    exact settles_settle config raw

/-- The fields to sort by: those that the entries settle, or the default ones without any entry. -/
def Sorts (config : Config) (raw : List (String × String)) (fields : List (String × Direction)) :
    Prop :=
  if raw = [] then fields = config.defaultSorts.map fun sort => (sort.column, sort.direction)
  else Settles config raw fields

theorem sorts_iff : Sorts config raw fields ↔ fields = columns config raw := by
  unfold Sorts columns
  cases raw with
  | nil => simp
  | cons entry raw =>
    rw [if_neg (List.cons_ne_nil _ _), settles_iff]
    exact eq_comm

end SortSpec

end Listing
