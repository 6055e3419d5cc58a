/-!
# Errors of a listing

Why a listing statement cannot be composed or run. Nothing in a request is an error except the value
of a range filter that is no range; all else that is wrong there is dropped or replaced by a
default.
-/

namespace Listing

/-- Why a base statement cannot carry listing clauses. -/
inductive Unsupported where
  /-- No SELECT outside parentheses, quotes and comments. -/
  | noSelect
  /-- The count would be taken before duplicates are dropped. -/
  | distinct
  /-- The statement limits its rows itself, and so would the listing. -/
  | ownPaging
deriving DecidableEq, Repr

def Unsupported.reason : Unsupported → String
  | noSelect => "no top-level SELECT"
  | distinct =>
    "SELECT DISTINCT would count rows before deduplication; wrap it in a subquery"
  | ownPaging =>
    "base query has its own LIMIT/OFFSET/FETCH; compose it with an unbounded limit"

inductive Error where
  /-- The value of a range filter does not hold exactly two bounds. -/
  | malformedRange (field value : String)
  | unsupported (why : Unsupported)
  /-- The statement selects the total count already. -/
  | alreadyComposed
  /-- An insertion outside the statement, before another one or inside a character. -/
  | misplacedEdit
  /-- The database failed, with a message of its own. -/
  | execution (cause : String)
deriving DecidableEq, Repr

def Error.message : Error → String
  | malformedRange field value =>
    "malformed value '" ++ value ++ "' for between filter on '" ++ field ++ "': expected 'low~high'"
  | unsupported why => "unsupported base query: " ++ why.reason
  | alreadyComposed =>
    "base query already carries the total-count column; compose only once per statement"
  | misplacedEdit => "misplaced edit of the base query"
  | execution _ => "query execution failed"

end Listing
