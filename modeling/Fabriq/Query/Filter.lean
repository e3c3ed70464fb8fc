import Fabriq.Core.Value

namespace Fabriq.Query.Filter

/-- The comparison vocabulary.  `Op` is a string type in the source; `unknown`
stands for every string outside the list. -/
inductive Op
  | eq
  | ne
  | gt
  | gte
  | lt
  | lte
  | isIn
  | notIn
  | like
  | ilike
  | isNull
  | isNotNull
  | unknown (name : String)
  deriving DecidableEq, Repr

/-- The static types of a slice operand that `toAnySlice` tells apart. -/
inductive SliceKind
  | anys
  | strings
  | ints
  | int64s
  | float64s
  | other
  deriving DecidableEq, Repr

/-- An operand of a condition, a Go value of any type.  `num` is every number that `toFloat`
converts, at its exact value; `object` is a `map[string]any`; `other` is what no comparison
knows, an unsigned integer or a struct. -/
inductive Operand
  | null
  | bool (b : Bool)
  | num (q : ℚ)
  | str (s : String)
  | time (nanos : Int)
  | slice (kind : SliceKind) (elems : List Operand)
  | object
  | other

/-- A condition on a column, or a non-empty group of alternatives. -/
inductive Cond
  | leaf (column : String) (op : Op) (value : Operand)
  | group (first : Cond) (rest : List Cond)

abbrev Where := List Cond

def Op.isSet : Op → Bool
  | .unknown _ => false
  | _ => true

end Fabriq.Query.Filter
