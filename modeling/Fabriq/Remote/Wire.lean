import Mathlib.Algebra.Group.Int.Defs
import Mathlib.Data.List.Forall2

/-!
List queries on the wire.  `Sprint` is `fmt.Sprint`, and `widen` the conversion of a `float32`
to a `float64`.
-/

namespace Fabriq.Remote.Wire

def int32 (n : Int) : Int :=
  (BitVec.ofInt 32 n).toInt

theorem int32_eq {n : Int} (hlow : -2 ^ 31 ≤ n) (hhigh : n < 2 ^ 31) : int32 n = n := by
  rw [int32, BitVec.toInt_ofInt, Int.bmod_def]
  omega

/-- An integer of any width and signedness; the widest types are `int64` and `uint64`. -/
structure GoInt where
  val : Int
  low : -2 ^ 63 ≤ val
  high : val < 2 ^ 64

def GoInt.ofInt64 (b : BitVec 64) : GoInt where
  val := b.toInt
  low := b.le_toInt
  high := Int.lt_trans b.toInt_lt (by decide)

variable {F32 F64 : Type}

/-- An operand: what an `any` of a condition may hold.  A slice or array other than a `[]byte` is
listed with its elements, whatever their type. -/
inductive Operand (F32 F64 : Type)
  | null
  | bool (b : Bool)
  | int (n : GoInt)
  | float32 (x : F32)
  | float64 (x : F64)
  | str (s : String)
  | time (nanos : Int)
  | bytes (bs : List UInt8)
  | slice (elems : List (Operand F32 F64))

/-- `CondValue`; `unset` is a nil pointer, or one whose oneof is not set. -/
inductive CondValue (F64 : Type)
  | unset
  | stringVal (s : String)
  | doubleVal (x : F64)
  | intVal (n : BitVec 64)
  | boolVal (b : Bool)
  | listVal (items : List (CondValue F64))

/-- A condition of a query; with alternatives it is a group, and the rest is ignored. -/
inductive Cond (F32 F64 : Type)
  | mk (column op : String) (value : Operand F32 F64) (or : List (Cond F32 F64))

inductive ProtoCond (F64 : Type)
  | mk (column op : String) (value : CondValue F64) (or : List (ProtoCond F64))

structure ListQuery (F32 F64 : Type) where
  conds : List (Cond F32 F64)
  orderBy : String
  limit : Int
  offset : Int

structure ProtoListQuery (F64 : Type) where
  conds : List (ProtoCond F64)
  orderBy : String
  limit : BitVec 32
  offset : BitVec 32

section

variable (sprint : Operand F32 F64 → String) (widen : F32 → F64)

mutual

def condValueToProto : Operand F32 F64 → CondValue F64
  | .int n => .intVal (BitVec.ofInt 64 n.val)
  | .float32 x => .doubleVal (widen x)
  | .float64 x => .doubleVal x
  | .str s => .stringVal s
  | .bool b => .boolVal b
  | .slice elems => .listVal (itemsToProto elems)
  | .null => .stringVal (sprint .null)
  | .time nanos => .stringVal (sprint (.time nanos))
  | .bytes bs => .stringVal (sprint (.bytes bs))

def itemsToProto : List (Operand F32 F64) → List (CondValue F64)
  | [] => []
  | v :: rest => condValueToProto v :: itemsToProto rest

end

mutual

def condValueFromProto : CondValue F64 → Operand F32 F64
  | .unset => .null
  | .stringVal s => .str s
  | .doubleVal x => .float64 x
  | .intVal n => .int (.ofInt64 n)
  | .boolVal b => .bool b
  | .listVal items => .slice (itemsFromProto items)

def itemsFromProto : List (CondValue F64) → List (Operand F32 F64)
  | [] => []
  | v :: rest => condValueFromProto v :: itemsFromProto rest

end

/-- A nil operand is not sent. -/
def valueToProto : Operand F32 F64 → CondValue F64
  | .null => .unset
  | v => condValueToProto sprint widen v

mutual

def condToProto : Cond F32 F64 → ProtoCond F64
  | .mk column op value [] => .mk column op (valueToProto sprint widen value) []
  | .mk column op _ (c :: rest) => .mk column op .unset (condToProto c :: condsToProto rest)

def condsToProto : List (Cond F32 F64) → List (ProtoCond F64)
  | [] => []
  | c :: rest => condToProto c :: condsToProto rest

end

mutual

def condFromProto : ProtoCond F64 → Cond F32 F64
  | .mk column op value [] => .mk column op (condValueFromProto value) []
  | .mk _ _ _ (c :: rest) => .mk "" "" .null (condFromProto c :: condsFromProto rest)

def condsFromProto : List (ProtoCond F64) → List (Cond F32 F64)
  | [] => []
  | c :: rest => condFromProto c :: condsFromProto rest

end

def listQueryToProto (q : ListQuery F32 F64) : ProtoListQuery F64 :=
  ⟨condsToProto sprint widen q.conds, q.orderBy, BitVec.ofInt 32 q.limit, BitVec.ofInt 32 q.offset⟩

def listQueryFromProto (q : ProtoListQuery F64) : ListQuery F32 F64 :=
  ⟨condsFromProto q.conds, q.orderBy, q.limit.toInt, q.offset.toInt⟩

/-- The operands with the same meaning on both sides.  An unsigned integer from `2 ^ 63` on wraps
around, and a `[]byte` arrives as text. -/
inductive SameOperand : Operand F32 F64 → Operand F32 F64 → Prop
  | bool (b : Bool) : SameOperand (.bool b) (.bool b)
  | str (s : String) : SameOperand (.str s) (.str s)
  | float32 (x : F32) : SameOperand (.float32 x) (.float64 (widen x))
  | float64 (x : F64) : SameOperand (.float64 x) (.float64 x)
  | int (n m : GoInt) (small : n.val < 2 ^ 63) (equal : m.val = n.val) :
      SameOperand (.int n) (.int m)
  | wrapped (n m : GoInt) (large : 2 ^ 63 ≤ n.val) (wraps : m.val = n.val - 2 ^ 64) :
      SameOperand (.int n) (.int m)
  | bytes (bs : List UInt8) : SameOperand (.bytes bs) (.str (sprint (.bytes bs)))
  | slice {vs ws : List (Operand F32 F64)} (elems : List.Forall₂ SameOperand vs ws) :
      SameOperand (.slice vs) (.slice ws)

/-- The same condition tree over operands of the same meaning. -/
inductive SameCond : Cond F32 F64 → Cond F32 F64 → Prop
  | noOperand (column op : String) : SameCond (.mk column op .null []) (.mk column op .null [])
  | leaf (column op : String) {v w : Operand F32 F64} (value : SameOperand sprint widen v w) :
      SameCond (.mk column op v []) (.mk column op w [])
  | group (column op : String) (v : Operand F32 F64) {c d : Cond F32 F64}
      {cs ds : List (Cond F32 F64)} (first : SameCond c d) (rest : List.Forall₂ SameCond cs ds) :
      SameCond (.mk column op v (c :: cs)) (.mk "" "" .null (d :: ds))

/-- The same query, limit and offset narrowed to 32 bits. -/
structure SameQuery (q r : ListQuery F32 F64) : Prop where
  conds : List.Forall₂ (SameCond sprint widen) q.conds r.conds
  orderBy : r.orderBy = q.orderBy
  limit : r.limit = int32 q.limit
  offset : r.offset = int32 q.offset

end

mutual

/-- Neither a time nor a slice with a null element. -/
def Operand.carried : Operand F32 F64 → Bool
  | .null => false
  | .time _ => false
  | .slice elems => carriedAll elems
  | _ => true

def carriedAll : List (Operand F32 F64) → Bool
  | [] => true
  | v :: rest => v.carried && carriedAll rest

end

def Operand.isNull : Operand F32 F64 → Bool
  | .null => true
  | _ => false

mutual

def Cond.carried : Cond F32 F64 → Bool
  | .mk _ _ value [] => value.isNull || value.carried
  | .mk _ _ _ (c :: rest) => c.carried && condsCarried rest

def condsCarried : List (Cond F32 F64) → Bool
  | [] => true
  | c :: rest => c.carried && condsCarried rest

end

variable (sprint : Operand F32 F64 → String) (widen : F32 → F64)

theorem sameOperand_int (n : GoInt) :
    SameOperand sprint widen (.int n) (.int (.ofInt64 (BitVec.ofInt 64 n.val))) := by
  have hval : (BitVec.ofInt 64 n.val).toInt = n.val.bmod (2 ^ 64) := BitVec.toInt_ofInt _
  rw [Int.bmod_def] at hval
  have hlow := n.low
  have hhigh := n.high
  by_cases hsmall : n.val < 2 ^ 63
  · refine .int n _ hsmall ?_
    show (BitVec.ofInt 64 n.val).toInt = n.val
    omega
  · refine .wrapped n _ (Int.not_lt.mp hsmall) ?_
    show (BitVec.ofInt 64 n.val).toInt = n.val - 2 ^ 64
    omega

mutual

theorem sameOperand_roundTrip : ∀ v : Operand F32 F64, v.carried →
    SameOperand sprint widen v (condValueFromProto (condValueToProto sprint widen v))
  | .int n, _ => sameOperand_int sprint widen n
  | .float32 x, _ => .float32 x
  | .float64 x, _ => .float64 x
  | .str s, _ => .str s
  | .bool b, _ => .bool b
  | .bytes bs, _ => .bytes bs
  | .slice elems, h => .slice (sameOperands_roundTrip elems h)

theorem sameOperands_roundTrip : ∀ vs : List (Operand F32 F64), carriedAll vs →
    List.Forall₂ (SameOperand sprint widen) vs (itemsFromProto (itemsToProto sprint widen vs))
  | [], _ => .nil
  | v :: rest, h => by
    obtain ⟨hv, hrest⟩ := Bool.and_eq_true_iff.mp h
    exact .cons (sameOperand_roundTrip v hv) (sameOperands_roundTrip rest hrest)

end

theorem sameCond_leaf (column op : String) {v : Operand F32 F64} (h : (v.isNull || v.carried)) :
    SameCond sprint widen (.mk column op v [])
      (.mk column op (condValueFromProto (valueToProto sprint widen v)) []) := by
  cases v with
  | null => exact .noOperand column op
  | time => cases h
  | _ => exact .leaf column op (sameOperand_roundTrip sprint widen _ h)

mutual

theorem sameCond_roundTrip : ∀ c : Cond F32 F64, c.carried →
    SameCond sprint widen c (condFromProto (condToProto sprint widen c))
  | .mk column op _ [], h => sameCond_leaf sprint widen column op h
  | .mk column op v (c :: rest), h => by
    obtain ⟨hc, hrest⟩ := Bool.and_eq_true_iff.mp h
    exact .group column op v (sameCond_roundTrip c hc) (sameConds_roundTrip rest hrest)

theorem sameConds_roundTrip : ∀ cs : List (Cond F32 F64), condsCarried cs →
    List.Forall₂ (SameCond sprint widen) cs (condsFromProto (condsToProto sprint widen cs))
  | [], _ => .nil
  | c :: rest, h => by
    obtain ⟨hc, hrest⟩ := Bool.and_eq_true_iff.mp h
    exact .cons (sameCond_roundTrip c hc) (sameConds_roundTrip rest hrest)

end

/-- A query without times and null elements arrives as the same query. -/
theorem listQuery_roundTrip (q : ListQuery F32 F64) (h : condsCarried q.conds = true) :
    SameQuery sprint widen q (listQueryFromProto (listQueryToProto sprint widen q)) where
  conds := sameConds_roundTrip sprint widen q.conds h
  orderBy := rfl
  limit := rfl
  offset := rfl

def wideQuery : ListQuery Empty Empty where
  conds := [.mk "" "" .null
    [.mk "a" "in" (.slice [.int ⟨1, by decide, by decide⟩, .int ⟨2 ^ 63, by decide, by decide⟩]) [],
      .mk "b" "=" (.str "x") [], .mk "c" "=" (.bytes [1, 2]) []]]
  orderBy := "id"
  limit := 2 ^ 31
  offset := 50

theorem wideQuery_roundTrip : SameQuery (fun _ => "[1 2]") Empty.elim wideQuery
      (listQueryFromProto (listQueryToProto (fun _ => "[1 2]") Empty.elim wideQuery)) :=
  listQuery_roundTrip _ _ wideQuery rfl

theorem wideQuery_changes :
    let r : ListQuery Empty Empty :=
      listQueryFromProto (listQueryToProto (fun _ => "[1 2]") Empty.elim wideQuery)
    r.limit = -2 ^ 31 ∧ r.offset = 50 ∧ ∃ one wrapped : GoInt, one.val = 1 ∧ wrapped.val = -2 ^ 63 ∧
      r.conds = [.mk "" "" .null [.mk "a" "in" (.slice [.int one, .int wrapped]) [],
        .mk "b" "=" (.str "x") [], .mk "c" "=" (.str "[1 2]") []]] :=
  ⟨by decide, by decide, .ofInt64 1, .ofInt64 (BitVec.ofInt 64 (2 ^ 63)), by decide, by decide, rfl⟩

end Fabriq.Remote.Wire
