import Listing.Config.Options
import Mathlib

/-!
# What settings amount to

`Options.collects_iff`: after some settings, an option is what the last of those about it says, and
at its default if there is none; only that the aliases are kept name by name, and the default sorts
all together in the order in which they came. There is one set of options with these properties,
because sets and maps of names are determined by what is in them (`NameSet.eq_of_contains`,
`NameMap.eq_of_get?`).
-/

namespace Listing

/-! ## Sets of names -/

namespace NameSet

theorem contains_iff {s : NameSet} {name : String} : s.contains name = true ↔ name ∈ s.names := by
  rw [contains, List.contains_iff_mem]

theorem mem_foldl_insert {names : List String} {name : String} {s : NameSet} :
    name ∈ (names.foldl insert s).names ↔ name ∈ names ∨ name ∈ s.names := by
  induction names generalizing s with
  | nil => simp
  | cons n names ih =>
    rw [List.foldl_cons, ih, insert, mem_place, List.mem_cons]
    tauto

/-- The names of a set are those in a list, in whatever order. -/
def Holds (s : NameSet) (names : List String) : Prop :=
  ∀ name, s.contains name = true ↔ name ∈ names

theorem holds_ofList (names : List String) : (ofList names).Holds names := by
  intro name
  rw [contains_iff, ofList, mem_foldl_insert, empty, List.mem_nil_iff, or_false]

/-- A set is determined by its names. -/
theorem eq_of_contains {s t : NameSet}
    (h : ∀ name, s.contains name = true ↔ t.contains name = true) : s = t := by
  obtain ⟨names, hnames⟩ := s
  obtain ⟨names', hnames'⟩ := t
  have hsame : names = names' := by
    apply hnames.eq_of_mem_iff hnames'
    intro name
    rw [← contains_iff (s := ⟨names, hnames⟩), h, contains_iff]
  subst hsame
  rfl

theorem eq_of_rel {s? t? : Option NameSet} {names? : Option (List String)}
    (h : Option.Rel Holds s? names?) (h' : Option.Rel Holds t? names?) : s? = t? := by
  cases h with
  | none =>
    cases h'
    rfl
  | some hs =>
    cases h' with
    | some ht => exact congrArg some (eq_of_contains fun name => (hs name).trans (ht name).symm)

end NameSet

/-! ## Maps between names -/

namespace NameMap

theorem lookup_cons {e : String × String} {es : List (String × String)} {name : String} :
    (e :: es).lookup name = if name = e.1 then some e.2 else es.lookup name := by
  rw [List.lookup_cons]
  by_cases hname : name = e.1
  · rw [if_pos hname, hname, beq_self_eq_true]
  · rw [if_neg hname, beq_false_of_ne hname]

theorem lookup_place {k v name : String} {es : List (String × String)} :
    (place k v es).lookup name = if name = k then some v else es.lookup name := by
  induction es with
  | nil => exact lookup_cons
  | cons e es ih =>
    unfold place
    split
    · exact lookup_cons
    split
    · rename_i hkey
      subst hkey
      rw [lookup_cons, lookup_cons]
      split <;> rfl
    · rename_i hkey
      rw [lookup_cons, lookup_cons, ih]
      by_cases hname : name = e.1
      · rw [if_pos hname, if_neg (fun hk => hkey (hk.symm.trans hname)), if_pos hname]
      · rw [if_neg hname, if_neg hname]

/-- A name that is mapped again forgets what it was mapped to before. -/
theorem get?_insert {m : NameMap} {k v name : String} :
    (m.insert k v).get? name = if name = k then some v else m.get? name := lookup_place

theorem lookup_eq_some_iff {es : List (String × String)} (h : es.Pairwise (·.1 < ·.1))
    {k v : String} : es.lookup k = some v ↔ (k, v) ∈ es := by
  induction es with
  | nil => simp
  | cons e es ih =>
    obtain ⟨he, hes⟩ := List.pairwise_cons.1 h
    rw [lookup_cons, List.mem_cons]
    by_cases hkey : k = e.1
    · subst hkey
      have hnot : (e.1, v) ∉ es := fun hmem => String.lt_irrefl e.1 (he (e.1, v) hmem)
      simp [hnot, Prod.ext_iff, eq_comm]
    · simp [hkey, ih hes, Prod.ext_iff]

theorem get?_eq_some_iff {m : NameMap} {k v : String} :
    m.get? k = some v ↔ (k, v) ∈ m.entries := lookup_eq_some_iff m.sorted

theorem get?_eq_none_iff {m : NameMap} {k : String} : m.get? k = none ↔ k ∉ m.keys := by
  rw [get?, List.lookup_eq_none_iff, keys, List.mem_map]
  simp only [bne_iff_ne, not_exists, not_and]
  exact forall₂_congr fun e _ => ne_comm

theorem nodup_of_sorted {es : List (String × String)} (h : es.Pairwise (·.1 < ·.1)) :
    es.Nodup := by
  apply h.imp
  intro e e' hlt heq
  rw [heq] at hlt
  exact String.lt_irrefl e'.1 hlt

/-- A map is determined by what it maps names to. -/
theorem eq_of_get? {m m' : NameMap} (h : ∀ name, m.get? name = m'.get? name) : m = m' := by
  have hmem : ∀ e, e ∈ m.entries ↔ e ∈ m'.entries := by
    rintro ⟨k, v⟩
    rw [← get?_eq_some_iff, h, get?_eq_some_iff]
  obtain ⟨es, hes⟩ := m
  obtain ⟨es', hes'⟩ := m'
  have hperm : es.Perm es' :=
    (List.perm_ext_iff_of_nodup (nodup_of_sorted hes) (nodup_of_sorted hes')).2 hmem
  have hsame : es = es' := by
    refine hperm.eq_of_pairwise (fun e e' _ _ hlt hlt' => ?_) hes hes'
    exact absurd hlt' (String.lt_asymm hlt)
  subst hsame
  rfl

end NameMap

/-! ## Settings -/

/-- The last that settings say of something. -/
def Setting.last? {α : Type} (says? : Setting → Option α) (settings : List Setting) : Option α :=
  (settings.filterMap says?).getLast?

theorem Setting.last?_cons {α : Type} (says? : Setting → Option α) (s : Setting)
    (settings : List Setting) :
    last? says? (s :: settings) = (last? says? settings).or (says? s) := by
  unfold last?
  cases hs : says? s with
  | none => rw [List.filterMap_cons_none hs, Option.or_none]
  | some a =>
    rw [List.filterMap_cons_some hs, List.getLast?_cons]
    cases (settings.filterMap says?).getLast? <;> rfl

namespace Options

/-- The options that are at their defaults except for what settings say. -/
structure Collects (o : Options) (settings : List Setting) : Prop where
  whitelist : Option.Rel NameSet.Holds o.whitelist
    (Setting.last? (fun | .whitelist columns => some columns | _ => none) settings)
  aliases : ∀ name, o.aliases.get? name = Setting.last?
    (fun | .aliased key column => if name = key then some column else none | _ => none) settings
  searchable : o.searchable =
    (Setting.last? (fun | .searchable columns => some columns | _ => none) settings).getD []
  defaultSorts : o.defaultSorts = settings.filterMap
    fun | .defaultSort column direction => some ⟨column, direction⟩ | _ => none
  ascNullsLast : o.ascNullsLast =
    (Setting.last? (fun | .ascNullsLast yes => some yes | _ => none) settings).getD false
  descNullsLast : o.descNullsLast =
    (Setting.last? (fun | .descNullsLast yes => some yes | _ => none) settings).getD false
  defaultLimit : o.defaultLimit =
    (Setting.last? (fun | .defaultLimit n => some n | _ => none) settings).getD 25
  maxLimit : o.maxLimit =
    (Setting.last? (fun | .maxLimit n => some n | _ => none) settings).getD 100
  connective : o.connective =
    (Setting.last? (fun | .connective c => some c | _ => none) settings).getD .and
  searchEnabled : o.searchEnabled =
    (Setting.last? (fun | .searchEnabled yes => some yes | _ => none) settings).getD true
  countAlias : o.countAlias =
    (Setting.last? (fun | .countAlias name => some name | _ => none) settings).getD "_zf_count"

/-- An option that each setting either replaces or leaves alone is what the last of them says. -/
theorem foldl_set {α β : Type} (get : Options → β) (put : α → β) (says? : Setting → Option α)
    (h : ∀ o s, get (o.set s) = (says? s).elim (get o) put) (settings : List Setting)
    (o : Options) :
    get (settings.foldl set o) = (Setting.last? says? settings).elim (get o) put := by
  induction settings generalizing o with
  | nil => rfl
  | cons s settings ih =>
    rw [List.foldl_cons, ih, h, Setting.last?_cons]
    cases Setting.last? says? settings <;> rfl

theorem ofSettings_eq_getD {α : Type} (get : Options → α) {says? : Setting → Option α}
    (h : ∀ o s, get (o.set s) = (says? s).getD (get o)) (settings : List Setting) :
    get (ofSettings settings) = (Setting.last? says? settings).getD (get {}) := by
  have helim (a? : Option α) (a : α) : a?.getD a = a?.elim a id := by
    cases a? <;> rfl
  rw [ofSettings, helim]
  apply foldl_set
  intro o s
  rw [h, helim]

theorem foldl_set_defaultSorts (settings : List Setting) (o : Options) :
    (settings.foldl set o).defaultSorts = o.defaultSorts ++ settings.filterMap
      fun | .defaultSort column direction => some ⟨column, direction⟩ | _ => none := by
  induction settings generalizing o with
  | nil => rw [List.foldl_nil, List.filterMap_nil, List.append_nil]
  | cons s settings ih =>
    rw [List.foldl_cons, ih]
    cases s with
    | defaultSort column direction => exact List.append_assoc _ _ _
    | _ => rfl

theorem collects_ofSettings (settings : List Setting) :
    (ofSettings settings).Collects settings where
  whitelist := by
    have hlast := foldl_set whitelist (fun columns => some (NameSet.ofList columns))
      (fun | .whitelist columns => some columns | _ => none) (fun _ s => by cases s <;> rfl)
      settings {}
    rw [ofSettings, hlast]
    cases Setting.last? _ settings with
    | none => exact .none
    | some columns => exact .some (NameSet.holds_ofList columns)
  aliases name := by
    have hlast := foldl_set (fun o => o.aliases.get? name) some
      (fun | .aliased key column => if name = key then some column else none | _ => none)
      (fun o s => by
        cases s with
        | aliased key column =>
          rw [set, NameMap.get?_insert]
          dsimp only
          split <;> rfl
        | _ => rfl) settings {}
    rw [ofSettings, hlast]
    cases Setting.last? _ settings <;> rfl
  searchable := ofSettings_eq_getD searchable (fun _ s => by cases s <;> rfl) settings
  defaultSorts := foldl_set_defaultSorts settings {}
  ascNullsLast := ofSettings_eq_getD ascNullsLast (fun _ s => by cases s <;> rfl) settings
  descNullsLast := ofSettings_eq_getD descNullsLast (fun _ s => by cases s <;> rfl) settings
  defaultLimit := ofSettings_eq_getD defaultLimit (fun _ s => by cases s <;> rfl) settings
  maxLimit := ofSettings_eq_getD maxLimit (fun _ s => by cases s <;> rfl) settings
  connective := ofSettings_eq_getD connective (fun _ s => by cases s <;> rfl) settings
  searchEnabled := ofSettings_eq_getD searchEnabled (fun _ s => by cases s <;> rfl) settings
  countAlias := ofSettings_eq_getD countAlias (fun _ s => by cases s <;> rfl) settings

/-- Options are determined by the settings that make them. -/
theorem Collects.eq {o o' : Options} {settings : List Setting} (h : o.Collects settings)
    (h' : o'.Collects settings) : o = o' := by
  have hwhitelist : o.whitelist = o'.whitelist := NameSet.eq_of_rel h.whitelist h'.whitelist
  have haliases : o.aliases = o'.aliases :=
    NameMap.eq_of_get? fun name => (h.aliases name).trans (h'.aliases name).symm
  have hsearchable := h.searchable.trans h'.searchable.symm
  have hdefaultSorts := h.defaultSorts.trans h'.defaultSorts.symm
  have hascNullsLast := h.ascNullsLast.trans h'.ascNullsLast.symm
  have hdescNullsLast := h.descNullsLast.trans h'.descNullsLast.symm
  have hdefaultLimit := h.defaultLimit.trans h'.defaultLimit.symm
  have hmaxLimit := h.maxLimit.trans h'.maxLimit.symm
  have hconnective := h.connective.trans h'.connective.symm
  have hsearchEnabled := h.searchEnabled.trans h'.searchEnabled.symm
  have hcountAlias := h.countAlias.trans h'.countAlias.symm
  cases o
  cases o'
  congr

/-- **The options after some settings are those that the settings collect**, and no others. -/
theorem collects_iff {o : Options} {settings : List Setting} :
    o.Collects settings ↔ o = ofSettings settings := by
  constructor
  · intro h
    exact h.eq (collects_ofSettings settings)
  · rintro rfl
    exact collects_ofSettings settings

end Options

end Listing
