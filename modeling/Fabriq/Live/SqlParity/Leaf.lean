import Fabriq.Lib.Assoc
import Fabriq.Lib.Result
import Fabriq.Live.Match
import Fabriq.Query.Sql

namespace Fabriq.Live.SqlParity

open Core.Float64 Core.Value Lib.Result Lib.ThreeValued Live.Match Query.Filter Query.Sql

structure Leaf where
  column : String
  op : Op
  value : Operand

def Leaf.cond (leaf : Leaf) : Cond :=
  .leaf leaf.column leaf.op leaf.value

mutual

def leaves : Cond → List Leaf
  | .leaf column op value => [⟨column, op, value⟩]
  | .group first rest => leaves first ++ leavesOf rest

def leavesOf : List Cond → List Leaf
  | [] => []
  | c :: rest => leaves c ++ leavesOf rest

end

def literal : Operand → Option Json
  | .null => some .null
  | .bool b => some (.bool b)
  | .num q => some (.num q)
  | .str s => some (.str s)
  | _ => none

/-- The matcher takes the operand at its own value. -/
def isExact : Operand → Bool
  | .num q => toFloat q = q
  | _ => true

def operands (op : Op) (value : Operand) : List Operand :=
  match op with
  | .isNull | .isNotNull => []
  | .isIn | .notIn =>
    match value with
    | .slice _ elems => elems
    | _ => []
  | _ => [value]

/-- What the driver and the database document: an operand of the column's type is bound as it is,
what is bound is NULL or of that type, and texts are equal in the order only if the same. -/
structure Binds (db : Database) : Prop where
  own : ∀ type p d b, literal p = some d → type.holds d = true → db.bind type p = some b → b = d
  typed : ∀ type p b, db.bind type p = some b → b = .null ∨ type.holds b = true
  collate : ∀ s t, db.collate s t = .eq ↔ s = t

def Typed (types : String → ColType) (row : Vals) : Prop :=
  ∀ column, row.get column = .null ∨ (types column).holds (row.get column) = true

/-- An order is asked of two numbers or of two texts that the collation orders by their characters,
or it does not hold in SQL. -/
def OrderFaithful (db : Database) (type : ColType) (op : Op) (v : Json) (value : Operand) : Prop :=
  match v, value with
  | .num _, .num _ => True
  | .str s, .str t => db.collate s t = compare s t
  | _, _ => ∀ d, db.bind type value = some d → db.comparison op v d ≠ .true

/-- Where the matcher and the database agree on a value `v` that is not NULL: an operand bound as
`v` is `v` for the matcher too, and what `v` is to be missing from binds no NULL, unless it has
`v`. -/
def Faithful (db : Database) (type : ColType) (v : Json) (op : Op) (value : Operand) : Prop :=
  match op with
  | .eq | .isIn =>
    ∀ p ∈ operands op value, db.bind type p = some v → some v ∈ (operands op value).map literal
  | .ne | .notIn =>
    some v ∈ (operands op value).map literal ∨
      ∀ p ∈ operands op value, db.bind type p ≠ some .null ∧ db.bind type p ≠ some v
  | .gt | .gte | .lt | .lte => OrderFaithful db type op v value
  | _ => True

variable {v : Json}

variable {toLower : String → String} {row : Vals} {column : String} {op : Op} {value : Operand}
  {type : ColType}

theorem evalLeaf_nulls : evalLeaf toLower column .isNull value row = some (row.get column).isNull ∧
      evalLeaf toLower column .isNotNull value row = some !(row.get column).isNull := by
  rw [Vals.get]
  cases hfind : row.find column with
  | none => simp [evalLeaf, hfind, Json.isNull]
  | some v => cases v <;> simp [evalLeaf, hfind, Json.isNull]

theorem evalLeaf_null (hnull : op ≠ .isNull) (hnot : op ≠ .isNotNull)
    (hv : row.get column = .null) : evalLeaf toLower column op value row = some false := by
  rw [Vals.get] at hv
  cases hfind : row.find column with
  | none => cases op <;> simp_all [evalLeaf]
  | some v =>
    rw [hfind] at hv
    obtain rfl : v = .null := hv
    cases op <;> simp_all [evalLeaf]

theorem evalLeaf_present (hnull : op ≠ .isNull) (hnot : op ≠ .isNotNull)
    (hv : row.get column = v) (hne : v ≠ .null) :
    evalLeaf toLower column op value row = evalPresent toLower op v value := by
  rw [Vals.get] at hv
  cases hfind : row.find column with
  | none =>
    rw [hfind] at hv
    exact absurd hv.symm hne
  | some w =>
    rw [hfind] at hv
    obtain rfl : w = v := hv
    cases op <;> simp_all [evalLeaf]

theorem equal_spec (hv : type.holds v) {p : Operand} (hp : isExact p) :
    ∃ hit, equal v p = some hit ∧ (hit ↔ literal p = some v) := by
  cases v with
  | bool a => cases p with
    | bool b => exact ⟨a == b, rfl, by simp [literal, eq_comm (a := a)]⟩
    | _ => exact ⟨false, rfl, by simp [literal]⟩
  | num a => cases p with
    | num b =>
      exact ⟨decide (a = toFloat b), rfl, by simp [literal, of_decide_eq_true hp, eq_comm (a := a)]⟩
    | _ => exact ⟨false, rfl, by simp [literal]⟩
  | str a => cases p with
    | str b => exact ⟨a == b, rfl, by simp [literal, eq_comm (a := a)]⟩
    | _ => exact ⟨false, rfl, by simp [literal]⟩
  | _ => cases type <;> cases hv

variable {p : Operand}

theorem mem_literal_singleton : some v ∈ [p].map literal ↔ literal p = some v := by
  rw [List.map_singleton, List.mem_singleton]
  exact eq_comm

theorem anyM_spec (hv : type.holds v) {elems : List Operand} (helems : ∀ p ∈ elems, isExact p) :
    ∃ hit, anyM (equal v) elems = some hit ∧ (hit ↔ some v ∈ elems.map literal) := by
  induction elems with
  | nil => exact ⟨false, rfl, by simp⟩
  | cons p rest ih =>
    obtain ⟨hit, hequal, hhit⟩ := equal_spec hv (helems p List.mem_cons_self)
    obtain ⟨found, hany, hfound⟩ := ih fun p hp => helems p (List.mem_cons_of_mem _ hp)
    rw [List.map_cons, List.mem_cons]
    cases hit with
    | true =>
      refine ⟨true, by rw [anyM, hequal]; rfl, iff_of_true rfl (.inl ?_)⟩
      exact (hhit.mp rfl).symm
    | false =>
      refine ⟨found, by rw [anyM, hequal]; exact hany, hfound.trans ?_⟩
      refine (or_iff_right fun heq => ?_).symm
      exact Bool.false_ne_true (hhit.mpr heq.symm)

section

variable {db : Database} {d : Json} {ds : List Json}

theorem comparison_null (op : Op) (d : Json) : db.comparison op .null d = .unknown := by
  cases op <;> rfl

theorem comparison_eq (v d : Json) : db.comparison .eq v d = ofOrder .eq (db.order v d) := rfl

theorem comparison_ne (v d : Json) : db.comparison .ne v d = (db.comparison .eq v d).not := by
  have hne : db.comparison .ne v d = ofOrder .ne (db.order v d) := rfl
  rw [hne, comparison_eq]
  cases db.order v d with
  | none => rfl
  | some o => cases o <;> rfl

theorem exists_order (hdb : Binds db) (hv : type.holds v) (hd : type.holds d) :
    ∃ o, db.order v d = some o ∧ (o = .eq ↔ d = v) := by
  cases type <;> cases v <;> cases hv <;> cases d <;> cases hd
  · exact ⟨_, rfl, by rw [hdb.collate, Json.str.injEq, eq_comm]⟩
  · exact ⟨_, rfl, by rw [compare_eq_iff_eq, Json.num.injEq, eq_comm]⟩
  · exact ⟨_, rfl, by rw [compare_eq_iff_eq, Json.bool.injEq, eq_comm]⟩

theorem order_null (v : Json) : db.order v .null = none := by
  cases v <;> rfl

theorem not_holds_null (type : ColType) : type.holds .null ≠ true := by
  cases type <;> exact Bool.false_ne_true

section

variable (hdb : Binds db) (hv : type.holds v = true)
include hdb hv

theorem comparison_eq_spec (hd : d = .null ∨ type.holds d) :
    (db.comparison .eq v d = .true ↔ d = v) ∧
      (db.comparison .eq v d = .false ↔ d ≠ .null ∧ d ≠ v) := by
  rcases hd with rfl | hd
  · rw [comparison_eq, order_null]
    exact ⟨iff_of_false (by decide) fun heq => not_holds_null type (heq ▸ hv),
      iff_of_false (by decide) fun heq => heq.1 rfl⟩
  · have hne : d ≠ .null := fun heq => not_holds_null type (heq ▸ hd)
    obtain ⟨o, ho, heq⟩ := exists_order hdb hv hd
    rw [and_iff_right hne, Ne, ← heq, comparison_eq, ho]
    cases o <;> decide

theorem any_comparison_true (hds : ∀ d ∈ ds, d = .null ∨ type.holds d) :
    any (ds.map (db.comparison .eq v)) = .true ↔ v ∈ ds := by
  rw [any_eq_true, List.mem_map]
  constructor
  · rintro ⟨d, hd, heq⟩
    exact (comparison_eq_spec hdb hv (hds d hd)).1.mp heq ▸ hd
  · intro hmem
    exact ⟨v, hmem, (comparison_eq_spec hdb hv (hds v hmem)).1.mpr rfl⟩

theorem any_comparison_false (hds : ∀ d ∈ ds, d = .null ∨ type.holds d) :
    any (ds.map (db.comparison .eq v)) = .false ↔ ∀ d ∈ ds, d ≠ .null ∧ d ≠ v := by
  rw [any_eq_false, List.forall_mem_map]
  exact forall₂_congr fun d hd => (comparison_eq_spec hdb hv (hds d hd)).2

end

end

section

variable {db : Database} {ps : List Operand} {ds : List Json} {hit : Bool} {t : Truth}

theorem mapM_singleton {d : Json} (hbind : db.bind type p = some d) :
    [p].mapM (db.bind type) = some [d] := by
  rw [List.mapM_cons, hbind]
  rfl

theorem typed_of_mapM (hdb : Binds db) (hds : ps.mapM (db.bind type) = some ds) :
    ∀ d ∈ ds, d = .null ∨ type.holds d := by
  intro d hd
  obtain ⟨p, -, hbind⟩ := (mem_of_mapM hds).mp hd
  exact hdb.typed type p d hbind

section

variable (hdb : Binds db) (hv : type.holds v = true)
include hdb hv

section

variable (hbound : ∀ p ∈ ps, (db.bind type p).isSome)
include hbound

theorem exists_bound (hnamed : some v ∈ ps.map literal) : ∃ p ∈ ps, db.bind type p = some v := by
  obtain ⟨p, hp, hliteral⟩ := List.mem_map.mp hnamed
  obtain ⟨b, hb⟩ := Option.isSome_iff_exists.mp (hbound p hp)
  exact ⟨p, hp, hdb.own type p v b hliteral hv hb ▸ hb⟩

theorem found_agrees
    (hhit : hit ↔ some v ∈ ps.map literal) (ht : t = .true ↔ ∃ p ∈ ps, db.bind type p = some v) :
    (hit ↔ t = .true) ↔ ∀ p ∈ ps, db.bind type p = some v → some v ∈ ps.map literal := by
  rw [hhit, ht]
  constructor
  · intro hiff p hp hbind
    exact hiff.mpr ⟨p, hp, hbind⟩
  · intro hall
    refine ⟨exists_bound hdb hv hbound, ?_⟩
    rintro ⟨p, hp, hbind⟩
    exact hall p hp hbind

theorem missed_agrees (hhit : hit ↔ some v ∈ ps.map literal)
    (ht : t = .false ↔ ∀ p ∈ ps, db.bind type p ≠ some .null ∧ db.bind type p ≠ some v) :
    ((!hit) ↔ t.not = .true) ↔ (some v ∈ ps.map literal ∨
        ∀ p ∈ ps, db.bind type p ≠ some .null ∧ db.bind type p ≠ some v) := by
  have hmissed : (!hit) ↔ some v ∉ ps.map literal := by
    rw [Bool.not_eq_true', ← hhit, Bool.not_eq_true]
  rw [hmissed, not_eq_true, ht]
  constructor
  · intro hiff
    by_cases hnamed : some v ∈ ps.map literal
    · exact .inl hnamed
    · exact .inr (hiff.mp hnamed)
  · have hnot : some v ∈ ps.map literal →
        ¬ ∀ p ∈ ps, db.bind type p ≠ some .null ∧ db.bind type p ≠ some v := by
      intro hnamed hclear
      obtain ⟨p, hp, hbind⟩ := exists_bound hdb hv hbound hnamed
      exact (hclear p hp).2 hbind
    rintro (hnamed | hclear)
    · exact iff_of_false (fun hmissed => hmissed hnamed) (hnot hnamed)
    · exact iff_of_true (fun hnamed => hnot hnamed hclear) hclear

end

theorem array_true (hds : ps.mapM (db.bind type) = some ds) :
    any (ds.map (db.comparison .eq v)) = .true ↔ ∃ p ∈ ps, db.bind type p = some v := by
  rw [any_comparison_true hdb hv (typed_of_mapM hdb hds), mem_of_mapM hds]

theorem array_false (hds : ps.mapM (db.bind type) = some ds) :
    any (ds.map (db.comparison .eq v)) = .false ↔
      ∀ p ∈ ps, db.bind type p ≠ some .null ∧ db.bind type p ≠ some v := by
  rw [any_comparison_false hdb hv (typed_of_mapM hdb hds)]
  constructor
  · intro hall p hp
    refine ⟨fun hbind => ?_, fun hbind => ?_⟩
    · exact (hall _ ((mem_of_mapM hds).mpr ⟨p, hp, hbind⟩)).1 rfl
    · exact (hall _ ((mem_of_mapM hds).mpr ⟨p, hp, hbind⟩)).2 rfl
  · rintro hall d hd
    obtain ⟨p, hp, hbind⟩ := (mem_of_mapM hds).mp hd
    exact ⟨fun hnull => (hall p hp).1 (by rw [hbind, hnull]),
      fun hsame => (hall p hp).2 (by rw [hbind, hsame])⟩

theorem single_true {d : Json} (hbind : db.bind type p = some d) :
    db.comparison .eq v d = .true ↔ ∃ q ∈ [p], db.bind type q = some v := by
  rw [← array_true hdb hv (mapM_singleton hbind), List.map_singleton, any_singleton]

theorem single_false {d : Json} (hbind : db.bind type p = some d) : db.comparison .eq v d = .false ↔
      ∀ q ∈ [p], db.bind type q ≠ some .null ∧ db.bind type q ≠ some v := by
  rw [← array_false hdb hv (mapM_singleton hbind), List.map_singleton, any_singleton]

end

theorem array_null_ne_true (ds : List Json) : any (ds.map (db.comparison .eq .null)) ≠ .true := by
  rw [Ne, any_eq_true, List.mem_map]
  rintro ⟨d, -, heq⟩
  rw [comparison_null] at heq
  exact absurd heq (by decide)

theorem array_null_ne_false (hne : ds ≠ []) : any (ds.map (db.comparison .eq .null)) ≠ .false := by
  rw [Ne, any_eq_false, List.forall_mem_map]
  intro hall
  have hhead := hall _ (List.head_mem hne)
  rw [comparison_null] at hhead
  exact absurd hhead (by decide)

end

variable {db : Database} {d : Json}

def IsOrder (op : Op) : Prop :=
  op = .gt ∨ op = .gte ∨ op = .lt ∨ op = .lte

theorem evalPresent_order (hop : IsOrder op) :
    evalPresent toLower op v value = some ((compareOperand v value).any (holdsFor op)) := by
  rcases hop with rfl | rfl | rfl | rfl <;>
    cases hcmp : compareOperand v value with
    | none => simp [evalPresent, hcmp]
    | some o => cases o <;> simp [evalPresent, hcmp, holdsFor]

theorem comparison_order (hop : IsOrder op) : db.comparison op v d = ofOrder op (db.order v d) := by
  rcases hop with rfl | rfl | rfl | rfl <;> rfl

theorem holdsFor_congr {o p : Ordering} (hop : IsOrder op) (heq : o = .eq ↔ p = .eq) :
    (holdsFor op o ↔ holdsFor op p) ↔ p = o := by
  rcases hop with rfl | rfl | rfl | rfl <;> cases o <;> cases p <;> simp_all [holdsFor]

theorem faithful_order (hop : IsOrder op) :
    Faithful db type v op value ↔ OrderFaithful db type op v value := by
  rcases hop with rfl | rfl | rfl | rfl <;> exact Iff.rfl

theorem unordered_agrees (hcmp : compareOperand v value = none)
    (hbind : db.bind type value = some d) :
    ((compareOperand v value).any (holdsFor op) ↔ db.comparison op v d = .true) ↔
      ∀ e, db.bind type value = some e → db.comparison op v e ≠ .true := by
  rw [hcmp, hbind]
  constructor
  · intro hiff e he htrue
    cases he
    exact Bool.false_ne_true (hiff.mpr htrue)
  · intro hall
    exact iff_of_false Bool.false_ne_true (hall d rfl)

theorem order_agrees (hdb : Binds db) (hop : IsOrder op) (hv : type.holds v)
    (hvalue : isExact value) (hbind : db.bind type value = some d) :
    ((compareOperand v value).any (holdsFor op) ↔ db.comparison op v d = .true) ↔
      OrderFaithful db type op v value := by
  cases type <;> cases v <;> cases hv
  · cases value with
    | str t =>
      obtain rfl := hdb.own .text (.str t) (.str t) d rfl rfl hbind
      rw [comparison_order hop, Database.order, ofOrder, ofBool_eq_true]
      refine holdsFor_congr hop ?_
      rw [hdb.collate, Std.compare_eq_iff_eq]
    | _ => exact unordered_agrees rfl hbind
  · cases value with
    | num q =>
      obtain rfl := hdb.own .number (.num q) (.num q) d rfl rfl hbind
      rw [comparison_order hop, Database.order, ofOrder, ofBool_eq_true, compareOperand,
        of_decide_eq_true hvalue]
      exact iff_true_intro Iff.rfl
    | _ => exact unordered_agrees rfl hbind
  · exact unordered_agrees rfl hbind

section

variable {types : String → ColType}

def leafValue (db : Database) (types : String → ColType) (row : Vals) (column : String) (op : Op)
    (value : Operand) : Option Truth :=
  (leafExpr column op value).bind (Expr.value db types row)

/-- Both sides give a result, and they agree exactly if `agrees` holds. -/
def Settles (b : Option Bool) (t : Option Truth) (agrees : Prop) : Prop :=
  ∃ hit truth, b = some hit ∧ t = some truth ∧ ((hit = true ↔ truth = .true) ↔ agrees)

/-- The two sides agree on the condition exactly if it is faithful to the value of the row. -/
def Decided (toLower : String → String) (db : Database) (types : String → ColType) (row : Vals)
    (column : String) (op : Op) (value : Operand) : Prop :=
  Settles (evalLeaf toLower column op value row) (leafValue db types row column op value)
    (row.get column = .null ∨ Faithful db (types column) (row.get column) op value)

theorem leaf_isNull (hname : identifier column = column) :
    Decided toLower db types row column .isNull value := by
  refine ⟨_, _, evalLeaf_nulls.1, by rw [leafValue, leafExpr]; rfl, iff_of_true ?_ (.inr trivial)⟩
  rw [ofBool_eq_true, hname]

theorem leaf_isNotNull (hname : identifier column = column) :
    Decided toLower db types row column .isNotNull value := by
  refine ⟨_, _, evalLeaf_nulls.2, by rw [leafValue, leafExpr]; rfl, iff_of_true ?_ (.inr trivial)⟩
  rw [ofBool_eq_true, hname]

theorem Decided.of_null {t : Truth} (hnull : op ≠ .isNull) (hnot : op ≠ .isNotNull)
    (hv : row.get column = .null) (ht : leafValue db types row column op value = some t)
    (hne : t ≠ .true) : Decided toLower db types row column op value :=
  ⟨false, t, evalLeaf_null hnull hnot hv, ht,
    iff_of_true (iff_of_false Bool.false_ne_true hne) (.inl hv)⟩

theorem Decided.of_present (hnull : op ≠ .isNull) (hnot : op ≠ .isNotNull)
    (hv : (types column).holds (row.get column))
    (h : Settles (evalPresent toLower op (row.get column) value)
      (leafValue db types row column op value)
      (Faithful db (types column) (row.get column) op value)) :
    Decided toLower db types row column op value := by
  have hne : row.get column ≠ .null := fun heq => not_holds_null _ (heq ▸ hv)
  rw [Decided, evalLeaf_present hnull hnot rfl hne, or_iff_right hne]
  exact h

section

variable (hdb : Binds db) (hrow : Typed types row) (hname : identifier column = column)
include hdb hrow hname

omit hdb in
/-- A comparison is decided by what it says of a value that is not null. -/
theorem Decided.of_compare (hexpr : leafExpr column op value = some (.compare column op value))
    (hnulls : op ≠ .isNull ∧ op ≠ .isNotNull) (hbound : (db.bind (types column) value).isSome)
    (h : ∀ d, db.bind (types column) value = some d → (types column).holds (row.get column) →
      Settles (evalPresent toLower op (row.get column) value)
        (some (db.comparison op (row.get column) d))
        (Faithful db (types column) (row.get column) op value)) :
    Decided toLower db types row column op value := by
  obtain ⟨d, hd⟩ := Option.isSome_iff_exists.mp hbound
  have ht : leafValue db types row column op value =
      some (db.comparison op (row.get column) d) := by
    rw [leafValue, hexpr, Option.bind_some, Expr.value, hname, hd]
    rfl
  rcases hrow column with hnull | hv
  · refine .of_null hnulls.1 hnulls.2 hnull ht ?_
    rw [hnull, comparison_null]
    decide
  · exact .of_present hnulls.1 hnulls.2 hv (ht ▸ h d hd hv)

theorem leaf_eq (hvalue : isExact value) (hbound : (db.bind (types column) value).isSome) :
    Decided toLower db types row column .eq value := by
  refine .of_compare hrow hname rfl (by decide) hbound fun d hd hv => ?_
  obtain ⟨hit, hequal, hhit⟩ := equal_spec hv hvalue
  refine ⟨hit, _, hequal, rfl, ?_⟩
  exact found_agrees hdb hv (List.forall_mem_singleton.mpr hbound)
    (hhit.trans mem_literal_singleton.symm) (single_true hdb hv hd)

theorem leaf_ne (hvalue : isExact value) (hbound : (db.bind (types column) value).isSome) :
    Decided toLower db types row column .ne value := by
  refine .of_compare hrow hname rfl (by decide) hbound fun d hd hv => ?_
  obtain ⟨hit, hequal, hhit⟩ := equal_spec hv hvalue
  rw [comparison_ne]
  refine ⟨!hit, _, by rw [evalPresent, hequal]; rfl, rfl, ?_⟩
  exact missed_agrees hdb hv (List.forall_mem_singleton.mpr hbound)
    (hhit.trans mem_literal_singleton.symm) (single_false hdb hv hd)

variable {elems : List Operand} {kind : SliceKind}

theorem leaf_isIn (helems : ∀ p ∈ elems, isExact p)
    (hbound : ∀ p ∈ elems, (db.bind (types column) p).isSome) :
    Decided toLower db types row column .isIn (.slice kind elems) := by
  obtain ⟨ds, hds⟩ := exists_mapM fun p hp => Option.isSome_iff_exists.mp (hbound p hp)
  have ht : leafValue db types row column .isIn (.slice kind elems) =
      some (any (ds.map (db.comparison .eq (row.get column)))) := by
    rw [leafValue, leafExpr, Option.bind_some, Expr.value, hname, Database.bindArray, hds]
    rfl
  rcases hrow column with hnull | hv
  · refine .of_null (by decide) (by decide) hnull ht ?_
    rw [hnull]
    exact array_null_ne_true ds
  · obtain ⟨hit, hany, hhit⟩ := anyM_spec hv helems
    refine .of_present (by decide) (by decide) hv ⟨hit, _, hany, ht, ?_⟩
    exact found_agrees hdb hv hbound hhit (array_true hdb hv hds)

theorem leaf_notIn (hne : elems ≠ []) (helems : ∀ p ∈ elems, isExact p)
    (hbound : ∀ p ∈ elems, (db.bind (types column) p).isSome) :
    Decided toLower db types row column .notIn (.slice kind elems) := by
  obtain ⟨ds, hds⟩ := exists_mapM fun p hp => Option.isSome_iff_exists.mp (hbound p hp)
  have ht : leafValue db types row column .notIn (.slice kind elems) =
      some (any (ds.map (db.comparison .eq (row.get column)))).not := by
    rw [leafValue, leafExpr, Option.bind_some, Expr.value, Expr.value, hname, Database.bindArray,
      hds]
    rfl
  rcases hrow column with hnull | hv
  · refine .of_null (by decide) (by decide) hnull ht ?_
    rw [hnull, Ne, not_eq_true]
    refine array_null_ne_false fun hnil => ?_
    obtain ⟨p, hp⟩ := List.exists_mem_of_ne_nil elems hne
    obtain ⟨d, hd⟩ := Option.isSome_iff_exists.mp (hbound p hp)
    exact List.not_mem_nil (hnil ▸ (mem_of_mapM hds).mpr ⟨p, hp, hd⟩)
  · obtain ⟨hit, hany, hhit⟩ := anyM_spec hv helems
    refine .of_present (by decide) (by decide) hv ⟨!hit, _, ?_, ht, ?_⟩
    · rw [evalPresent, inSlice, hany]
      rfl
    · exact missed_agrees hdb hv hbound hhit (array_false hdb hv hds)

theorem leaf_order (hop : IsOrder op) (hvalue : isExact value)
    (hbound : (db.bind (types column) value).isSome) :
    Decided toLower db types row column op value := by
  have hexpr : leafExpr column op value = some (.compare column op value) := by
    rcases hop with rfl | rfl | rfl | rfl <;> rfl
  have hnulls : op ≠ .isNull ∧ op ≠ .isNotNull := by
    rcases hop with rfl | rfl | rfl | rfl <;> decide
  refine .of_compare hrow hname hexpr hnulls hbound fun d hd hv => ?_
  refine ⟨_, _, evalPresent_order hop, rfl, ?_⟩
  rw [faithful_order hop]
  exact order_agrees hdb hop hv hvalue hd

end

theorem validateLeaf_eq_ok {has : String → Bool} (h : validateLeaf has column op value = .ok ()) :
    has column ∧ op.isSet ∧ validateValue column op value = .ok () := by
  unfold validateLeaf at h
  split_ifs at h with hcolumn hhas hset
  exact ⟨by simpa using hhas, by simpa using hset, h⟩

theorem leaf_settles {has : String → Bool} (hdb : Binds db) (hrow : Typed types row)
    (hnames : ∀ name, has name → identifier name = name)
    (hvalid : validateLeaf has column op value = .ok ()) (hplain : op ≠ .like ∧ op ≠ .ilike)
    (hexact : ∀ p ∈ operands op value, isExact p)
    (hbound : ∀ p ∈ operands op value, (db.bind (types column) p).isSome) :
    Decided toLower db types row column op value := by
  obtain ⟨hhas, hset, hvalue⟩ := validateLeaf_eq_ok hvalid
  have hname := hnames column hhas
  have hown : value ∈ [value] := List.mem_cons_self
  cases op with
  | eq => exact leaf_eq hdb hrow hname (hexact value hown) (hbound value hown)
  | ne => exact leaf_ne hdb hrow hname (hexact value hown) (hbound value hown)
  | gt | gte | lt | lte =>
    exact leaf_order hdb hrow hname (by simp [IsOrder]) (hexact value hown) (hbound value hown)
  | isIn => cases value with
    | slice kind elems => exact leaf_isIn hdb hrow hname hexact hbound
    | _ => exact absurd hvalue (by simp [validateValue])
  | notIn => cases value with
    | slice kind elems => cases elems with
      | nil => exact absurd hvalue (by simp [validateValue])
      | cons p rest => exact leaf_notIn hdb hrow hname (List.cons_ne_nil p rest) hexact hbound
    | _ => exact absurd hvalue (by simp [validateValue])
  | isNull => exact leaf_isNull hname
  | isNotNull => exact leaf_isNotNull hname
  | like => exact absurd rfl hplain.1
  | ilike => exact absurd rfl hplain.2
  | unknown name => cases hset

end

end Fabriq.Live.SqlParity
