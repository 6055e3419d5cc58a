import Listing.Json
import Listing.Value

/-!
# Rows

A row is a list of named columns in the order of the projection. Names may repeat, as they may in a
result; `get?` and `remove` take the first column of a name.
-/

namespace Listing

/-! ## Values as JSON -/

mutual

/-- A value in JSON. A number that is not finite has no JSON form and becomes `null`. -/
def Value.toJson : Value → Json
  | .null => .null
  | .bool b => .bool b
  | .int n => .number (toString n)
  | .float x => if x.isFinite then .number (Decimal.text Decimal.scientific x) else .null
  | .text s => .string s
  | .array items => .array (Value.listToJson items)

def Value.listToJson : List Value → List Json
  | [] => []
  | v :: vs => Value.toJson v :: Value.listToJson vs

end

/-- A row of a result. -/
structure Row where
  columns : List (String × Value)

namespace Row

def empty : Row := ⟨[]⟩

/-- Appends a column. -/
def push (row : Row) (name : String) (value : Value) : Row := ⟨row.columns ++ [(name, value)]⟩

/-- The value of the first column of a name. -/
def get? (row : Row) (name : String) : Option Value :=
  (row.columns.find? (·.1 == name)).map (·.2)

/-- The row without the first column of a name. -/
def remove (row : Row) (name : String) : Row := ⟨row.columns.eraseP (·.1 == name)⟩

/-- A row in JSON is an object with a member for every column, in their order. -/
def toJson (row : Row) : Json := .object (row.columns.map fun c => (c.1, c.2.toJson))

end Row

end Listing
