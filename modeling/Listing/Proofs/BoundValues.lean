import Listing.Proofs.PatternMatching
import Listing.Proofs.RenderedTokens
import Listing.Proofs.Vetting

/-!
# Placeholders and the values bound to them

`placeholders_line_up`: what is read of a rendered clause are its conditions in their order, and
each number in it is bound to the value that its condition compares with. The numbers are
consecutive, so that a composed statement has a placeholder for each parameter behind those of its
base. A range without two bounds, which has no placeholders, is never rendered for a request.
-/

namespace Listing

open Text List

/-! ## Bound values -/

variable {d : Dialect}

namespace WhereClause

end WhereClause

/-! ## Composed statements -/

/-- The numbers of the placeholders in a piece that was added. -/
def Piece.placeholders (d : Dialect) : Piece → List Nat
  | kept _ => []
  | added text => Listing.placeholders d (Text.bytes text)

/-- The numbers of the placeholders in an edit. -/
def Edit.placeholders (d : Dialect) (e : Edit) : List Nat := Listing.placeholders d (bytes e.text)

namespace Site

variable {countAlias : String} {site : Site} {clause : WhereClause} {predicate : String}
  {order : OrderBy}

end Site

/-- The clause of a request has no range without two bounds, and its columns are qualified. -/
theorem FilterSpec.clause_sound {config : Config} {entries : List (String × String)}
    {search : Option String} {clause : WhereClause}
    (h : (ofRequest config entries search).whereClause config = .ok clause) :
    ∀ group ∈ clause.groups, ∀ c ∈ group, Identifier.isQualified c.column = true ∧
      (c.comparison = .between → c.value.bounds? = some 2) := by
  obtain ⟨filterGroups, searchGroups, hgroups, hfilters, -, hsearch⟩ := vetted_groups h
  intro group hgroup c hc
  rw [hgroups] at hgroup
  rcases List.mem_append.1 hgroup with hgroup | hgroup
  · obtain ⟨hrequested, hrange⟩ := hfilters group hgroup c hc
    exact ⟨hrequested.isQualified, hrange⟩
  · obtain ⟨hsearchable, hrange⟩ := hsearch group hgroup c hc
    exact ⟨Config.isQualified_of_mem_searchable hsearchable, hrange⟩

end Listing
