import Primadb.Core.Comparator
import Primadb.Data.Scope
import Primadb.Data.Value

/-!
# Filters of queries

A filter names a path into an entry and a test of the value found there.
-/

namespace Primadb

/-- `QueryFilter`; a path has dots between its segments. -/
inductive QueryFilter where
  | eq (path : String) (value : JsonValue)
  | ne (path : String) (value : JsonValue)
  | gt (path : String) (value : JsonValue)
  | gte (path : String) (value : JsonValue)
  | lt (path : String) (value : JsonValue)
  | lte (path : String) (value : JsonValue)
  | startsWith (path : String) (value : String)
  | contains (path : String) (value : String)
  | exists (path : String)
  deriving DecidableEq

/-- The place of a double in the order of numbers, from its bits; a NaN has none. -/
def f64Rank (bits : ℕ) : Option ℤ :=
  let magnitude : ℕ := bits % 2 ^ 63
  if 2047 * 2 ^ 52 < magnitude then none
  else some (if bits < 2 ^ 63 then (magnitude : ℤ) else -(magnitude : ℤ))

/-- `f64::partial_cmp`. -/
def partialCmp (left right : ℕ) : Option Ordering := compareRanks f64Rank left right

/-- `compare_json_values`. -/
def compareJsonValues : JsonValue → JsonValue → Option Ordering
  | .string left, .string right => some (compare left right)
  | .number left, .number right => partialCmp left.toF64Bits right.toF64Bits
  | .bool left, .bool right => some (compare left right)
  | .null, .null => some .eq
  | _, _ => none

/-- The value at a path of object keys. -/
def jsonAt (value : JsonValue) : List String → Option JsonValue
  | [] => some value
  | segment :: rest =>
    match value with
    | .object entries => (getEntry segment entries).bind fun value => jsonAt value rest
    | _ => none

/-- `query_value_parts`. -/
def queryValueParts (key : String) (value : JsonValue) (path : String) : Option JsonValue :=
  if path = "" ∨ path = "$value" then some value
  else if path = "$key" then some (.string key)
  else jsonAt value ((path.toList.splitOn '.').map String.ofList)

/-- Whether a text occurs in another. -/
def containsText (text part : String) : Bool :=
  text.toList.tails.any fun rest => part.toList.isPrefixOf rest

/-- `as_str`. -/
def JsonValue.asStr : JsonValue → Option String
  | .string text => some text
  | _ => none

namespace QueryFilter

/-- `filter_path`. -/
def filterPath : QueryFilter → String
  | .eq path _ | .ne path _ | .gt path _ | .gte path _ | .lt path _ | .lte path _
  | .startsWith path _ | .contains path _ | .exists path => path

/-- `matches_filter_value`. -/
def matchesFilterValue (value : Option JsonValue) : QueryFilter → Bool
  | .eq _ expected => value.any (· = expected)
  | .ne _ expected => value.any (· ≠ expected)
  | .gt _ expected => (value.bind (compareJsonValues · expected)).any (· = .gt)
  | .gte _ expected =>
    (value.bind (compareJsonValues · expected)).any fun order => order = .gt ∨ order = .eq
  | .lt _ expected => (value.bind (compareJsonValues · expected)).any (· = .lt)
  | .lte _ expected =>
    (value.bind (compareJsonValues · expected)).any fun order => order = .lt ∨ order = .eq
  | .startsWith _ expected =>
    (value.bind JsonValue.asStr).any fun candidate => Primadb.startsWith candidate expected
  | .contains _ expected =>
    (value.bind JsonValue.asStr).any fun candidate => containsText candidate expected
  | .exists _ => value.isSome

/-- `matches_filter_parts`. -/
def matchesFilterParts (key : String) (value : JsonValue) (filter : QueryFilter) : Bool :=
  filter.matchesFilterValue (queryValueParts key value filter.filterPath)

end QueryFilter

end Primadb
