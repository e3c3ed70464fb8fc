import Mathlib.Algebra.Order.Ring.Rat
import Mathlib.Data.List.Basic

namespace Fabriq.Core.Value

/-- A value decoded from JSON, as in a column of a row or of an event payload.  Numbers are
finite `float64`s, and the fields of an object are listed in key order, so that
`reflect.DeepEqual` is equality. -/
inductive Json
  | null
  | bool (b : Bool)
  | num (q : ℚ)
  | str (s : String)
  | arr (elems : List Json)
  | obj (fields : List (String × Json))

mutual

def Json.deepEqual : Json → Json → Bool
  | .null, .null => true
  | .bool a, .bool b => a == b
  | .num a, .num b => decide (a = b)
  | .str a, .str b => a == b
  | .arr a, .arr b => deepEqualElems a b
  | .obj a, .obj b => deepEqualFields a b
  | _, _ => false

def deepEqualElems : List Json → List Json → Bool
  | [], [] => true
  | a :: as, b :: bs => a.deepEqual b && deepEqualElems as bs
  | _, _ => false

def deepEqualFields : List (String × Json) → List (String × Json) → Bool
  | [], [] => true
  | (k, a) :: as, (l, b) :: bs => k == l && a.deepEqual b && deepEqualFields as bs
  | _, _ => false

end

def Json.isNull : Json → Bool
  | .null => true
  | _ => false

/-- A `map[string]any`: `none` is the nil map, and no key is listed twice. -/
abbrev Vals := Option (List (String × Json))

def Vals.find (row : Vals) (column : String) : Option Json :=
  row.bind (List.lookup column)

def Vals.get (row : Vals) (column : String) : Json :=
  (row.find column).getD .null

end Fabriq.Core.Value
