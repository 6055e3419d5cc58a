import Listing.Clause.OrderBy
import Listing.Config.Basic
import Listing.Text.Blank
import Listing.Text.Numeral

/-!
# Pagination

The page and the page size of a request, made safe: whatever text a request gives, the page is at
least 1 and the size is between 1 and the configured maximum. `PageInfo` tells what a total count
means for them.
-/

namespace Listing

/-- A page number, counted from 1, and a page size. -/
structure Pagination where
  page : Nat
  limit : Nat
deriving DecidableEq, Repr

namespace Pagination

/-- The greatest page number, 2^32 - 1. -/
def maxPageNumber : Nat := UInt32.size - 1

/-- The number that a text gives, trimmed, if it is a numeral within 64 bits. -/
def number? (raw : Option String) : Option Int := raw.bind fun s => Text.signed? (Text.trim s)

/-- The page of a request: the first one if the text is no positive number. -/
def pageOf (raw : Option String) : Nat :=
  match number? raw with
  | some n => if 1 ≤ n then min n.toNat maxPageNumber else 1
  | none => 1

/-- The page size of a request: the default if the text is no number, else the allowed size nearest
to it. -/
def limitOf (config : Config) (raw : Option String) : Nat :=
  match number? raw with
  | some n => min (max n.toNat 1) config.maxLimit.toNat
  | none => config.defaultLimit.toNat

def ofRequest (config : Config) (page limit : Option String) : Pagination :=
  ⟨pageOf page, limitOf config limit⟩

/-- The number of rows before the page. -/
def offset (p : Pagination) : Nat := p.limit * (p.page - 1)

/-- The number of pages that a number of rows fills, at least one. -/
def maxPage (p : Pagination) (total : Nat) : Nat :=
  if total = 0 then 1 else (total + (p.limit - 1)) / p.limit

/-- The page as a LIMIT clause. -/
def bound (p : Pagination) : Limit := .bounded p.limit p.offset

end Pagination

/-- Where a page stands among all pages. -/
structure PageInfo where
  currentPage : Nat
  maxPage : Nat
  limit : Nat
  totalCount : Nat
  hasNext : Bool
  hasPrev : Bool
deriving DecidableEq, Repr

/-- The place of a page when `total` rows match. -/
def PageInfo.of (p : Pagination) (total : Nat) : PageInfo where
  currentPage := p.page
  maxPage := p.maxPage total
  limit := p.limit
  totalCount := total
  hasNext := p.page < p.maxPage total
  hasPrev := 1 < p.page

end Listing
