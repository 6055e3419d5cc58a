import Listing.Config.Basic
import Listing.Proofs.ByteOrder
import Listing.Proofs.SafeNames
import Listing.Proofs.Settings
import Mathlib

/-!
# Which settings make a configuration

`Config.build_ofSettings`: options that have been collected from settings are a configuration, just
as they are, if they are safe (`Options.Safe`). Otherwise the error tells their first fault
(`Options.FirstFault`): the limits come first, then the names, option by option and those of a set
or a map in the order of their bytes (`Options.Visit`).
-/

namespace Listing

open Text

/-! ## Safe options -/

/-- Options that may be used without another look at them. -/
structure Options.Safe (o : Options) : Prop where
  one_le_defaultLimit : 1 ≤ o.defaultLimit.toNat
  defaultLimit_le_maxLimit : o.defaultLimit.toNat ≤ o.maxLimit.toNat
  whitelist : ∀ s ∈ o.whitelist, ∀ name, s.contains name = true → Identifier.Joined 3 name
  aliases : ∀ name column, o.aliases.get? name = some column →
    Identifier.Joined 3 name ∧ Identifier.Joined 3 column
  searchable : ∀ name ∈ o.searchable, Identifier.Joined 3 name
  defaultSorts : ∀ sort ∈ o.defaultSorts, Identifier.Joined 3 sort.column
  countAlias : Identifier.Joined 1 o.countAlias

/-! ## The order of the names -/

/-- Lists in increasing order with the same names are equal. -/
theorem eq_of_byteOrder {names names' : List String} (h : names.Pairwise (bytes · < bytes ·))
    (h' : names'.Pairwise (· < ·)) (hmem : ∀ name, name ∈ names ↔ name ∈ names') :
    names = names' :=
  (h.imp bytes_lt_iff.1).eq_of_mem_iff h' hmem

namespace NameMap

theorem sorted_keys (m : NameMap) : m.keys.Pairwise (· < ·) := by
  rw [keys, List.pairwise_map]
  exact m.sorted

theorem mem_keys_iff {m : NameMap} {name : String} :
    name ∈ m.keys ↔ (m.get? name).isSome = true := by
  rw [keys, List.mem_map, Option.isSome_iff_exists]
  constructor
  · rintro ⟨⟨k, v⟩, he, rfl⟩
    exact ⟨v, get?_eq_some_iff.2 he⟩
  · rintro ⟨v, hv⟩
    exact ⟨(name, v), get?_eq_some_iff.1 hv, rfl⟩

/-- The values of a map in the order of its keys. -/
theorem filterMap_keys (m : NameMap) : m.keys.filterMap m.get? = m.values := by
  rw [keys, values, List.filterMap_map]
  calc
    m.entries.filterMap (m.get? ∘ (·.1)) = m.entries.filterMap (some ∘ (·.2)) :=
      List.filterMap_congr fun e he => get?_eq_some_iff.2 he
    _ = m.entries.map (·.2) := by rw [List.filterMap_eq_map]

end NameMap

/-- How many parts a name may have. -/
def NamePlace.mostParts : NamePlace → Nat
  | countAlias => 1
  | _ => 3

/-- Whether a name passes the check of its option. -/
def NamePlace.accepts : NamePlace → String → Bool
  | countAlias => Identifier.isPlain
  | _ => Identifier.isQualified

theorem NamePlace.accepts_iff {place : NamePlace} {name : String} :
    place.accepts name = true ↔ Identifier.Joined place.mostParts name := by
  cases place with
  | countAlias => exact Identifier.isPlain_iff
  | _ => exact Identifier.isQualified_iff

theorem NamePlace.not_accepts_iff {place : NamePlace} {name : String} :
    (!place.accepts name) = true ↔ ¬Identifier.Joined place.mostParts name := by
  rw [← accepts_iff, Bool.not_eq_true, Bool.not_eq_true']

namespace Options

/-- How the names of a set and of a map are gone through: each once, in the order of their bytes. -/
structure Visit (o : Options) where
  whitelist : List String
  whitelist_sorted : whitelist.Pairwise (bytes · < bytes ·)
  mem_whitelist : ∀ name, name ∈ whitelist ↔ ∃ s ∈ o.whitelist, s.contains name = true
  aliased : List String
  aliased_sorted : aliased.Pairwise (bytes · < bytes ·)
  mem_aliased : ∀ name, name ∈ aliased ↔ (o.aliases.get? name).isSome = true

/-- All names of options in the order in which they are visited. -/
def Visit.names {o : Options} (visit : o.Visit) : List (NamePlace × String) :=
  visit.whitelist.map (NamePlace.whitelist, ·) ++
    visit.aliased.map (NamePlace.aliases, ·) ++
    (visit.aliased.filterMap o.aliases.get?).map (NamePlace.aliases, ·) ++
    o.searchable.map (NamePlace.searchable, ·) ++
    o.defaultSorts.map (fun sort => (NamePlace.defaultSorts, sort.column)) ++
    [(NamePlace.countAlias, o.countAlias)]

/-- The first fault of options. -/
inductive FirstFault (o : Options) : ConfigError → Prop where
  | zeroLimit (h : o.defaultLimit.toNat = 0) : FirstFault o .zeroLimit
  | limitOutOfRange (hzero : 1 ≤ o.defaultLimit.toNat)
      (hmax : o.maxLimit.toNat < o.defaultLimit.toNat) :
      FirstFault o (.limitOutOfRange o.defaultLimit o.maxLimit)
  | invalidIdentifier (hzero : 1 ≤ o.defaultLimit.toNat)
      (hmax : o.defaultLimit.toNat ≤ o.maxLimit.toNat) (visit : o.Visit)
      {before after : List (NamePlace × String)} {place : NamePlace} {name : String}
      (hnames : visit.names = before ++ (place, name) :: after)
      (hbefore : ∀ n ∈ before, Identifier.Joined n.1.mostParts n.2)
      (hname : ¬Identifier.Joined place.mostParts name) :
      FirstFault o (.invalidIdentifier place name)

/-- All names that are checked, in that order. -/
def checkedNames (o : Options) : List (NamePlace × String) :=
  o.qualifiedNames ++ [(.countAlias, o.countAlias)]

theorem mem_getD_whitelist {o : Options} {name : String} :
    name ∈ (o.whitelist.map (·.names)).getD [] ↔ ∃ s ∈ o.whitelist, s.contains name = true := by
  cases o.whitelist with
  | none => simp
  | some s => simp [NameSet.contains_iff]

/-- There is one order of the names, that of the checks. -/
theorem Visit.names_eq {o : Options} (visit : o.Visit) : visit.names = o.checkedNames := by
  have hwhitelist : visit.whitelist = (o.whitelist.map (·.names)).getD [] := by
    apply eq_of_byteOrder visit.whitelist_sorted
    · cases o.whitelist with
      | none => exact .nil
      | some s => exact s.sorted
    · intro name
      rw [visit.mem_whitelist, mem_getD_whitelist]
  have haliased : visit.aliased = o.aliases.keys := by
    apply eq_of_byteOrder visit.aliased_sorted o.aliases.sorted_keys
    intro name
    rw [visit.mem_aliased, NameMap.mem_keys_iff]
  rw [names, checkedNames, qualifiedNames, hwhitelist, haliased, o.aliases.filterMap_keys]

def visit (o : Options) : o.Visit where
  whitelist := (o.whitelist.map (·.names)).getD []
  whitelist_sorted := by
    cases o.whitelist with
    | none => exact .nil
    | some s => exact s.sorted.imp bytes_lt_iff.2
  mem_whitelist _ := mem_getD_whitelist
  aliased := o.aliases.keys
  aliased_sorted := o.aliases.sorted_keys.imp bytes_lt_iff.2
  mem_aliased _ := NameMap.mem_keys_iff

/-! ## Faults -/

theorem accepts_of_mem {o : Options} {n : NamePlace × String} (hn : n ∈ o.qualifiedNames) :
    n.1.accepts n.2 = Identifier.isQualified n.2 := by
  simp only [qualifiedNames, List.mem_append, List.mem_map] at hn
  rcases hn with (((⟨_, -, rfl⟩ | ⟨_, -, rfl⟩) | ⟨_, -, rfl⟩) | ⟨_, -, rfl⟩) | ⟨_, -, rfl⟩ <;> rfl

/-- The first fault is a limit, or else the first name that is not accepted. -/
theorem fault?_eq (o : Options) : o.fault? =
    if o.defaultLimit.toNat = 0 then some .zeroLimit
    else if o.maxLimit.toNat < o.defaultLimit.toNat then
      some (.limitOutOfRange o.defaultLimit o.maxLimit)
    else (o.checkedNames.find? fun n => !n.1.accepts n.2).map fun n =>
      .invalidIdentifier n.1 n.2 := by
  have hzero : o.defaultLimit = 0 ↔ o.defaultLimit.toNat = 0 := UInt32.toNat_inj.symm
  have hqualified : (o.qualifiedNames.find? fun n => !n.1.accepts n.2) =
      o.qualifiedNames.find? fun n => !Identifier.isQualified n.2 := by
    apply List.find?_congr
    intro n hn
    rw [accepts_of_mem hn]
  rw [fault?, checkedNames, List.find?_append, hqualified]
  simp only [hzero, UInt32.lt_iff_toNat_lt]
  congr 2
  cases o.qualifiedNames.find? fun n => !Identifier.isQualified n.2 with
  | some n => rfl
  | none =>
    have hcount : NamePlace.countAlias.accepts o.countAlias = Identifier.isPlain o.countAlias := rfl
    simp only [Option.none_or, List.find?_singleton, hcount, Bool.not_eq_true']
    cases Identifier.isPlain o.countAlias <;> rfl

/-- In the order of bytes a character beyond the first 65536 comes behind all others. -/
example : (ofSettings [.whitelist ["😀", "\uffff", "a"], .countAlias "a.b"]).fault? =
    some (.invalidIdentifier .whitelist "\uffff") := by
  decide +kernel

theorem fault?_eq_none_iff {o : Options} : o.fault? = none ↔
    1 ≤ o.defaultLimit.toNat ∧ o.defaultLimit.toNat ≤ o.maxLimit.toNat ∧
      ∀ n ∈ o.checkedNames, Identifier.Joined n.1.mostParts n.2 := by
  rw [fault?_eq]
  split
  · rename_i hzero
    constructor
    · intro h
      cases h
    · rintro ⟨hone, -⟩
      omega
  split
  · rename_i hmax
    constructor
    · intro h
      cases h
    · rintro ⟨-, hle, -⟩
      omega
  · simp only [Option.map_eq_none_iff, List.find?_eq_none, Bool.not_eq_true', Bool.not_eq_false,
      NamePlace.accepts_iff]
    constructor
    · intro h
      exact ⟨by omega, by omega, h⟩
    · rintro ⟨-, -, h⟩
      exact h

theorem safe_iff {o : Options} : o.Safe ↔ o.fault? = none := by
  rw [fault?_eq_none_iff]
  simp only [checkedNames, qualifiedNames, List.forall_mem_append, List.forall_mem_map,
    List.forall_mem_singleton, mem_getD_whitelist, NamePlace.mostParts]
  constructor
  · intro h
    refine ⟨h.one_le_defaultLimit, h.defaultLimit_le_maxLimit, ⟨⟨⟨⟨?_, ?_⟩, ?_⟩, h.searchable⟩,
      h.defaultSorts⟩, h.countAlias⟩
    · rintro name ⟨s, hs, hname⟩
      exact h.whitelist s hs name hname
    · intro name hname
      obtain ⟨column, hcolumn⟩ := Option.isSome_iff_exists.1 (NameMap.mem_keys_iff.1 hname)
      exact (h.aliases name column hcolumn).1
    · intro column hcolumn
      obtain ⟨⟨name, _⟩, he, rfl⟩ := List.mem_map.1 hcolumn
      exact (h.aliases name _ (NameMap.get?_eq_some_iff.2 he)).2
  · rintro ⟨hone, hmax, ⟨⟨⟨⟨hwhitelist, hnames⟩, hcolumns⟩, hsearchable⟩, hsorts⟩, hcount⟩
    refine ⟨hone, hmax, fun s hs name hname => hwhitelist name ⟨s, hs, hname⟩,
      fun name column hcolumn => ⟨?_, ?_⟩, hsearchable, hsorts, hcount⟩
    · exact hnames name (NameMap.mem_keys_iff.2 (Option.isSome_of_eq_some hcolumn))
    · exact hcolumns column (List.mem_map_of_mem (NameMap.get?_eq_some_iff.1 hcolumn))

theorem firstFault_iff {o : Options} {e : ConfigError} : o.FirstFault e ↔ o.fault? = some e := by
  rw [fault?_eq]
  constructor
  · intro h
    cases h with
    | zeroLimit hzero => rw [if_pos hzero]
    | limitOutOfRange hzero hmax => rw [if_neg (by omega), if_pos hmax]
    | @invalidIdentifier hzero hmax visit before after place name hnames hbefore hname =>
      rw [if_neg (by omega), if_neg (by omega), Option.map_eq_some_iff]
      refine ⟨(place, name), List.find?_eq_some_iff_append.2 ⟨?_, before, after, ?_, ?_⟩, rfl⟩
      · exact NamePlace.not_accepts_iff.2 hname
      · rw [← visit.names_eq, hnames]
      · intro n hn
        simpa [NamePlace.accepts_iff] using hbefore n hn
  · intro h
    split at h
    · rename_i hzero
      cases h
      exact .zeroLimit hzero
    split at h
    · rename_i hzero hmax
      cases h
      exact .limitOutOfRange (by omega) hmax
    · rename_i hzero hmax
      obtain ⟨⟨place, name⟩, hfind, rfl⟩ := Option.map_eq_some_iff.1 h
      obtain ⟨hname, before, after, hnames, hbefore⟩ := List.find?_eq_some_iff_append.1 hfind
      rw [← o.visit.names_eq] at hnames
      refine .invalidIdentifier (by omega) (by omega) o.visit hnames (fun n hn => ?_) ?_
      · simpa [NamePlace.accepts_iff] using hbefore n hn
      · exact NamePlace.not_accepts_iff.1 hname

end Options

namespace Config

theorem build_eq_ok_iff {o : Options} :
    (∃ config, build o = .ok config ∧ config.toOptions = o) ↔ o.fault? = none := by
  unfold build
  split
  · rename_i fault hfault
    constructor
    · rintro ⟨config, hconfig, -⟩
      cases hconfig
    · intro hnone
      rw [hfault] at hnone
      cases hnone
  · rename_i hfault
    constructor
    · intro _
      exact hfault
    · intro _
      exact ⟨_, rfl, rfl⟩

theorem build_eq_error_iff {o : Options} {e : ConfigError} :
    build o = .error e ↔ o.fault? = some e := by
  unfold build
  split
  · rename_i fault hfault
    rw [hfault, Option.some_inj, Except.error.injEq]
  · rename_i hfault
    constructor
    · intro h
      cases h
    · intro hsome
      rw [hfault] at hsome
      cases hsome

/-- **Settings make a configuration if and only if the options that they collect are safe**, which
it consists of; otherwise they are refused for the first fault of these options. -/
theorem build_ofSettings (settings : List Setting) :
    let o := Options.ofSettings settings
    (∀ o' : Options, o'.Collects settings ↔ o' = o) ∧
      ((∃ config, build o = .ok config ∧ config.toOptions = o) ↔ o.Safe) ∧
      ((∃ e, build o = .error e) ↔ ¬o.Safe) ∧
      ∀ e, build o = .error e ↔ o.FirstFault e := by
  intro o
  refine ⟨fun _ => Options.collects_iff, build_eq_ok_iff.trans Options.safe_iff.symm, ?_,
    fun e => ?_⟩
  · simp only [build_eq_error_iff]
    rw [Options.safe_iff, ← Option.isSome_iff_exists, Option.isSome_iff_ne_none]
  · rw [build_eq_error_iff, Options.firstFault_iff]

end Config

end Listing
