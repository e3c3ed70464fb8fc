import Fabriq.Core.Float64
import Fabriq.Query.Filter

namespace Fabriq.Live.Match

open Core.Float64 Core.Value Query.Filter

/-- Value equality of a decoded value and an operand.  Comparing two slices or two
maps with Go's `==` panics, which is `none`. -/
def equal : Json → Operand → Option Bool
  | .null, .null => some true
  | .bool a, .bool b => some (a == b)
  | .num a, .num b => some (decide (a = toFloat b))
  | .str a, .str b => some (a == b)
  | .arr _, .slice .anys _ => none
  | .obj _, .object => none
  | _, _ => some false

/-- The order of a decoded value and an operand, `none` for a pair that has none.
A time operand is comparable with a `time.Time` only, which no decoded value is. -/
def compareOperand : Json → Operand → Option Ordering
  | .num a, .num b => some (compare a (toFloat b))
  | .str a, .str b => some (compare a b)
  | _, _ => none

def compareValues : Json → Json → Option Ordering
  | .num a, .num b => some (compare a b)
  | .str a, .str b => some (compare a b)
  | _, _ => none

/-- The order of two decoded values; a pair that has none counts as equal. -/
def order (a b : Json) : Ordering :=
  (compareValues a b).getD .eq

/-- `any` over a loop that stops at the first hit, where a test may panic. -/
def anyM {α : Type*} (test : α → Option Bool) : List α → Option Bool
  | [] => some false
  | a :: rest => (test a).bind fun hit => if hit then some true else anyM test rest

def inSlice (v : Json) : Operand → Option Bool
  | .slice _ elems => anyM (equal v) elems
  | _ => some false

/-- The two pointers of `likeAnchored`, with the place of the last `%` and the
position its run is extended to. -/
structure LikeState where
  si : Nat
  pi : Nat
  star : Option Nat
  mark : Nat

def percent : UInt8 := 37

def underscore : UInt8 := 95

/-- The tail of `likeAnchored`: the rest of the pattern is a run of `%`. -/
def onlyPercents (pat : List UInt8) (pi : Nat) : Bool :=
  (pat.drop pi).all (· == percent)

/-- The loop of `likeAnchored`, one round per unit of fuel. -/
def likeLoop (s pat : List UInt8) : Nat → LikeState → Bool
  | 0, _ => false
  | fuel + 1, st =>
    match s[st.si]? with
    | none => onlyPercents pat st.pi
    | some byte =>
      if pat[st.pi]? = some underscore ∨ pat[st.pi]? = some byte then
        likeLoop s pat fuel { st with si := st.si + 1, pi := st.pi + 1 }
      else if pat[st.pi]? = some percent then
        likeLoop s pat fuel
          { st with pi := st.pi + 1, star := some st.pi, mark := st.si }
      else
        match st.star with
        | some star => likeLoop s pat fuel
            { st with si := st.mark + 1, pi := star + 1, mark := st.mark + 1 }
        | none => false

/-- The mark moves at most once per byte of the text, and between two of its moves
each pointer only moves forward. -/
def likeAnchored (s pat : List UInt8) : Bool :=
  likeLoop s pat ((s.length + 1) * (s.length + pat.length + 1) + 1) ⟨0, 0, none, 0⟩

section

-- `strings.ToLower`, of which the matcher uses nothing but the result.
variable (toLower : String → String)

def likeMatch (v : Json) (pattern : Operand) (ci : Bool) : Bool :=
  match v, pattern with
  | .str s, .str pat =>
    if ci then likeAnchored (toLower s).toUTF8.toList (toLower pat).toUTF8.toList
    else likeAnchored s.toUTF8.toList pat.toUTF8.toList
  | _, _ => false

def evalPresent (op : Op) (v : Json) (value : Operand) : Option Bool :=
  match op with
  | .eq => equal v value
  | .ne => (equal v value).map (!·)
  | .gt => some (compareOperand v value == some .gt)
  | .gte => some (compareOperand v value == some .gt || compareOperand v value == some .eq)
  | .lt => some (compareOperand v value == some .lt)
  | .lte => some (compareOperand v value == some .lt || compareOperand v value == some .eq)
  | .isIn => inSlice v value
  | .notIn => (inSlice v value).map (!·)
  | .like => some (likeMatch toLower v value false)
  | .ilike => some (likeMatch toLower v value true)
  | _ => some false

def evalLeaf (column : String) (op : Op) (value : Operand) (row : Vals) : Option Bool :=
  match op, row.find column with
  | .isNull, none | .isNull, some .null => some true
  | .isNull, some _ => some false
  | .isNotNull, none | .isNotNull, some .null => some false
  | .isNotNull, some _ => some true
  | _, none | _, some .null => some false
  | op, some v => evalPresent toLower op v value

mutual

def evalCond (row : Vals) : Cond → Option Bool
  | .leaf column op value => evalLeaf toLower column op value row
  | .group first rest =>
    (evalCond row first).bind fun hit => if hit then some true else evalAny row rest

def evalAny (row : Vals) : List Cond → Option Bool
  | [] => some false
  | c :: rest =>
    (evalCond row c).bind fun hit => if hit then some true else evalAny row rest

end

def eval (row : Vals) : Where → Option Bool
  | [] => some true
  | c :: rest => (evalCond toLower row c).bind fun hit => if hit then eval row rest else some false

end

mutual

/-- The conditions of `Compile`: every leaf has a known operator. -/
def checkOp : Cond → Bool
  | .leaf _ op _ => op.isSet
  | .group first rest => checkOp first && checkOps rest

def checkOps : List Cond → Bool
  | [] => true
  | c :: rest => checkOp c && checkOps rest

end

end Fabriq.Live.Match
