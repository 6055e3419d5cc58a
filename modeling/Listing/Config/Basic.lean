import Listing.Config.Options
import Listing.Identifier

/-!
# Listing configurations

A configuration is a set of options that has passed the checks of `build`: the page sizes are in
order and every name that may reach SQL text is a safe identifier. The checks are made once, and
`Config.sound` keeps what they found, so that nothing that works with a configuration needs to look
again. When options are refused, the error tells the first fault: the limits come first, then the
names option by option.
-/

namespace Listing

/-- The option that a name belongs to. -/
inductive NamePlace where
  | whitelist
  | aliases
  | searchable
  | defaultSorts
  | countAlias
deriving DecidableEq, Repr

/-- What the option is called in messages. -/
def NamePlace.title : NamePlace → String
  | whitelist => "whitelist"
  | aliases => "alias_columns"
  | searchable => "searchable_columns"
  | defaultSorts => "default_sorts"
  | countAlias => "count_alias"

/-- Why options are no configuration. -/
inductive ConfigError where
  | zeroLimit
  | limitOutOfRange (defaultLimit maxLimit : UInt32)
  | invalidIdentifier (place : NamePlace) (name : String)
  /-- The configuration document cannot be read, or holds something else than options. -/
  | malformedDocument
deriving DecidableEq, Repr

namespace ConfigError

def message : ConfigError → String
  | zeroLimit => "default_limit must be at least 1"
  | limitOutOfRange defaultLimit maxLimit =>
    "max_limit_allowed (" ++ toString maxLimit.toNat ++
      ") must not be smaller than default_limit (" ++ toString defaultLimit.toNat ++ ")"
  | invalidIdentifier place name =>
    "invalid SQL identifier '" ++ name ++ "' in " ++ place.title
  | malformedDocument => "invalid listing configuration"

end ConfigError

namespace Options

/-- The names that have to be qualified identifiers, in the order in which they are checked. -/
def qualifiedNames (o : Options) : List (NamePlace × String) :=
  ((o.whitelist.map (·.names)).getD []).map (.whitelist, ·) ++
    o.aliases.keys.map (.aliases, ·) ++
    o.aliases.values.map (.aliases, ·) ++
    o.searchable.map (.searchable, ·) ++
    o.defaultSorts.map fun sort => (.defaultSorts, sort.column)

/-- The first of the options' faults. -/
def fault? (o : Options) : Option ConfigError :=
  if o.defaultLimit = 0 then some .zeroLimit
  else if o.maxLimit < o.defaultLimit then some (.limitOutOfRange o.defaultLimit o.maxLimit)
  else
    match o.qualifiedNames.find? fun n => !Identifier.isQualified n.2 with
    | some (place, name) => some (.invalidIdentifier place name)
    | none =>
      if Identifier.isPlain o.countAlias then none
      else some (.invalidIdentifier .countAlias o.countAlias)

/-- What the checks establish. -/
structure Sound (o : Options) : Prop where
  one_le_defaultLimit : 1 ≤ o.defaultLimit.toNat
  defaultLimit_le_maxLimit : o.defaultLimit.toNat ≤ o.maxLimit.toNat
  qualified : ∀ n ∈ o.qualifiedNames, Identifier.isQualified n.2 = true
  plain_countAlias : Identifier.isPlain o.countAlias = true

theorem sound_of_fault? {o : Options} (h : o.fault? = none) : o.Sound := by
  unfold fault? at h
  split at h
  · cases h
  · rename_i hzero
    split at h
    · cases h
    · rename_i hmax
      split at h
      · cases h
      · rename_i hnames
        split at h
        · rename_i hplain
          refine ⟨?_, ?_, fun n hn => ?_, hplain⟩
          · have : o.defaultLimit.toNat ≠ 0 := fun h0 => hzero (UInt32.toNat_inj.1 h0)
            omega
          · exact Nat.le_of_not_lt fun hlt => hmax (UInt32.lt_iff_toNat_lt.2 hlt)
          · simpa using List.find?_eq_none.1 hnames n hn
        · cases h

end Options

/-- Options that have passed the checks. -/
structure Config extends Options where
  sound : toOptions.Sound

namespace Config

/-- The options as a configuration, or their first fault. -/
def build (o : Options) : Except ConfigError Config :=
  match h : o.fault? with
  | some fault => .error fault
  | none => .ok ⟨o, Options.sound_of_fault? h⟩

/-- The configuration that leaves every option at its default. -/
def default : Config := ⟨{}, Options.sound_of_fault? (by decide +kernel)⟩

/-- Whether requests may name a column. -/
def isAllowed (config : Config) (field : String) : Bool :=
  match config.whitelist with
  | some columns => columns.contains field
  | none => Identifier.isPlain field

/-- The column that a name in a request stands for. -/
def resolve (config : Config) (field : String) : String := (config.aliases.get? field).getD field

/-- Where a direction puts rows without a value: last, or where the database wants them. -/
def nullsLast (config : Config) : Direction → Bool
  | .ascending => config.ascNullsLast
  | .descending => config.descNullsLast

end Config

end Listing
