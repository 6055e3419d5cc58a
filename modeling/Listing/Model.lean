import Listing.Request.Basic
import Listing.Request.Pagination
import Listing.Request.Predicate
import Listing.Request.Sort
import Listing.Row
import Listing.Statement.Compose

/-!
# Listings

A listing is a base statement with a configuration. It turns a request into a statement (`prepare`)
and, given something that runs statements, into a page of rows (`fetch`). The database is a function
in any monad; it is called once for a request that can be prepared and never for one that cannot.
-/

namespace Listing

/-- A listing over a base statement, whose own placeholders `1`, `2`, … have the given values. -/
structure Model where
  dialect : Dialect
  config : Config
  base : String
  baseParams : List Value := []

/-- What a request amounts to before anything is run. -/
structure Prepared where
  filters : FilterSpec
  sorts : SortSpec
  pagination : Pagination
  query : Composed

/-- A page of rows, without the count column. -/
structure Page where
  rows : List Row
  info : PageInfo
  filters : FilterSpec
  sorts : SortSpec

namespace Model

/-- The statement for the filters, the search term and the sorts of a request, with a limit of the
caller's choice. -/
def query (model : Model) (request : Request) (limit : Limit) : Except Error Composed := do
  let filters := FilterSpec.ofRequest model.config request.filters request.search
  let sorts := SortSpec.ofRequest model.config request.sorts
  let clause ← filters.whereClause model.config
  compose model.dialect model.config.countAlias model.base model.baseParams clause sorts.orderBy
    limit

/-- The statement for the page that a request asks for, and how the request was understood. -/
def prepare (model : Model) (request : Request) : Except Error Prepared := do
  let pagination := Pagination.ofRequest model.config request.page request.limit
  let query ← model.query request pagination.bound
  return {
    filters := FilterSpec.ofRequest model.config request.filters request.search
    sorts := SortSpec.ofRequest model.config request.sorts
    pagination
    query }

end Model

/-- The page that the database's rows make. The first row tells the total count, no row counts as 0.
-/
def Prepared.page (prepared : Prepared) (rows : List Row) : Page :=
  let countAlias := prepared.query.countAlias
  let total := ((rows.head?.bind (·.get? countAlias)).map Value.asCount).getD 0
  { rows := rows.map (·.remove countAlias)
    info := PageInfo.of prepared.pagination total
    filters := prepared.filters
    sorts := prepared.sorts }

/-- Prepares a request, runs its statement and collects the page. A failure of the database is told
with its own message. -/
def Model.fetch {m : Type → Type} [Monad m] (model : Model)
    (execute : String → List Value → m (Except String (List Row))) (request : Request) :
    m (Except Error Page) :=
  match model.prepare request with
  | .error e => pure (.error e)
  | .ok prepared => do
    match ← execute prepared.query.sql prepared.query.params with
    | .error cause => pure (.error (.execution cause))
    | .ok rows => pure (.ok (prepared.page rows))

end Listing
