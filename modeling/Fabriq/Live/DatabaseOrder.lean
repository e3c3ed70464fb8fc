import Fabriq.Lib.Assoc
import Fabriq.Live.Order

namespace Fabriq.Live.DatabaseOrder

open Core.Float64 Core.Value Lib.Assoc Lib.Keyset Live.Match Live.Order Live.Types List

/-- What a column of a table holds; a time is an instant. -/
inductive Cell
  | null
  | bool (b : Bool)
  | num (q : ℚ)
  | time (t : Int)
  | str (s : String)
  deriving DecidableEq

inductive Kind
  | bool
  | integer
  | bigint
  | double
  | numeric
  | time
  | str
  deriving DecidableEq

def Kind.zero : Kind → Cell
  | .bool => .bool false
  | .time => .time 0
  | .str => .str ""
  | _ => .num 0

def Kind.holds : Kind → ℚ → Bool
  | .integer, q => q.den = 1 ∧ q.num.natAbs ≤ 2 ^ 31
  | .bigint, q => q.den = 1 ∧ q.num.natAbs ≤ 2 ^ 63
  | .double, q => toFloat q = q
  | .numeric, _ => true
  | _, _ => false

structure ColumnType where
  kind : Kind
  nullable : Bool := false

def Cell.hasType (type : ColumnType) : Cell → Bool
  | .null => type.nullable
  | .bool _ => type.kind = .bool
  | .num q => type.kind.holds q
  | .time _ => type.kind = .time
  | .str _ => type.kind = .str

/-- The ascending order of a column, in which NULL is last. -/
def sqlCompare : Cell → Cell → Ordering
  | .null, .null => .eq
  | .null, _ => .gt
  | _, .null => .lt
  | .bool a, .bool b => compare a b
  | .num a, .num b => compare a b
  | .time a, .time b => compare a b
  | .str a, .str b => compare a b
  | _, _ => .eq

def sqlCompareKey (s : SortKey) (a b : Cell) : Ordering :=
  if s.desc then (sqlCompare a b).swap else sqlCompare a b

structure TableRow where
  id : String
  others : List (String × Cell)

def TableRow.cells (r : TableRow) : List (String × Cell) :=
  ("id", .str r.id) :: r.others

def TableRow.cell (r : TableRow) (column : String) : Cell :=
  (r.cells.lookup column).getD .null

/-- `ORDER BY` of the keys and then of the id. -/
def orderBy (sort : List SortKey) (a b : TableRow) : Ordering :=
  (sort.map fun s => sqlCompareKey s (a.cell s.column) (b.cell s.column)).foldr .then
    (compare a.id b.id)

section

-- The text of an instant in JSON, as `time.Time` writes it.
variable (stamp : Int → String)

/-- A number of a decoded row is a `float64`. -/
def Cell.json : Cell → Json
  | .null => .null
  | .bool b => .bool b
  | .num q => .num (toFloat q)
  | .time t => .str (stamp t)
  | .str s => .str s

/-- The argument for a value of a cursor. -/
def Cell.bound : Cell → Cell
  | .num q => .num (toFloat q)
  | v => v

/-- The cursor of the row has its values. -/
def TableRow.Exact (sort : List SortKey) (r : TableRow) : Prop :=
  ∀ s ∈ sort, (r.cell s.column).bound = r.cell s.column

def TableRow.cursor (sort : List SortKey) (r : TableRow) : Cursor :=
  sortKeyOf (some (mapValues r.cells fun _ v => v.json stamp)) sort r.id

structure Table where
  type : String → ColumnType
  id_type : type "id" = ⟨.str, false⟩

def Table.nonNull (t : Table) : Table where
  type := fun c => { t.type c with nullable := false }
  id_type := by rw [t.id_type]

def Table.Typed (t : Table) (sort : List SortKey) (r : TableRow) : Prop :=
  ∀ s ∈ sort, (r.cell s.column).hasType (t.type s.column) = true

/-- The types of which the engine compares the values as the database does. -/
def Sortable (type : ColumnType) : Prop :=
  type.nullable = false ∧ type.kind ∉ [.bool, .bigint, .numeric] ∧
    (type.kind = .time → ∀ t t', t < t' → compare (stamp t) (stamp t') = .lt)

end

variable {stamp : Int → String} {type : ColumnType} {t : Table} {sort : List SortKey}
  {a b : TableRow}

theorem compareCursors_cursor (sort : List SortKey) (a b : TableRow) :
    compareCursors sort (a.cursor stamp sort) (b.cursor stamp sort) =
      (sort.map fun s => compareKey s ((a.cell s.column).json stamp)
        ((b.cell s.column).json stamp)).foldr .then (compare a.id b.id) := by
  have hget : ∀ (r : TableRow) column,
      Vals.get (some (mapValues r.cells fun _ v => v.json stamp)) column =
        (r.cell column).json stamp := by
    intro r column
    rw [Vals.get, Vals.find, Option.bind_some, lookup_mapValues, TableRow.cell]
    cases r.cells.lookup column <;> rfl
  rw [compareCursors, TableRow.cursor, TableRow.cursor, lastId_sortKeyOf, lastId_sortKeyOf,
    sortKeyOf, sortKeyOf, compareKeys_append _ _ (by simp) (by simp)]
  simp only [hget]
  induction sort with
  | nil => rfl
  | cons s sort ih =>
    rw [map_cons, map_cons, compareKeys, Ordering.then_assoc, ih]
    rfl

/-- The numbers of a sortable column are `float64`s. -/
theorem toFloat_of_holds {kind : Kind} {q : ℚ} (hkind : kind ∉ [.bool, .bigint, .numeric])
    (h : kind.holds q) : toFloat q = q := by
  cases kind <;> simp_all [Kind.holds]
  exact toFloat_of_lt h.1 (by omega)

theorem order_json (h : Sortable stamp type) {v w : Cell} (hv : v.hasType type)
    (hw : w.hasType type) : order (v.json stamp) (w.json stamp) = sqlCompare v w := by
  obtain ⟨hnull, hkind, htime⟩ := h
  cases v <;> cases w <;> simp_all [Cell.hasType]
  all_goals try rfl
  case num.num q q' =>
    have hq := toFloat_of_holds (by simpa using hkind) hv
    have hq' := toFloat_of_holds (by simpa using hkind) hw
    rw [Cell.json, Cell.json, hq, hq']
    rfl
  case time.time t t' =>
    show compare (stamp t) _ = compare t t'
    rcases lt_trichotomy t t' with hlt | rfl | hlt
    · rw [htime t t' hlt, Int.compare_eq_lt.mpr hlt]
    · rw [(LinearCmpOn.of_ord String).cmp_self trivial, (LinearCmpOn.of_ord Int).cmp_self trivial]
    · rw [((LinearCmpOn.of_ord String).gt_iff_lt trivial trivial).mpr (htime t' t hlt),
        Int.compare_eq_gt.mpr hlt]

theorem exact_of_sortable (h : ∀ s ∈ sort, Sortable stamp (t.type s.column))
    (ha : t.Typed sort a) : a.Exact sort := by
  intro s hs
  have htype := ha s hs
  cases hcell : a.cell s.column with
  | num q =>
    rw [hcell] at htype
    rw [Cell.bound, toFloat_of_holds (h s hs).2.1 htype]
  | _ => rfl

theorem compareCursors_eq_orderBy (h : ∀ s ∈ sort, Sortable stamp (t.type s.column))
    (ha : t.Typed sort a) (hb : t.Typed sort b) :
    compareCursors sort (a.cursor stamp sort) (b.cursor stamp sort) = orderBy sort a b := by
  rw [compareCursors_cursor, orderBy]
  congr 1
  refine map_congr_left fun s hs => ?_
  rw [compareKey, sqlCompareKey, order_json (h s hs) (ha s hs) (hb s hs)]

/-- Two values of a type that is not sortable, which the engine does not order as the database
does. -/
theorem exists_misordered (h : ¬ Sortable stamp type) :
    ∃ lo hi : Cell, lo.hasType type ∧ hi.hasType type ∧ lo.bound = lo ∧
      sqlCompare lo hi = .lt ∧ sqlCompare hi lo = .gt ∧
      order (lo.json stamp) (hi.json stamp) ≠ .lt ∧
      order (hi.json stamp) (lo.json stamp) ≠ .gt := by
  by_cases hnull : type.nullable
  · refine ⟨type.kind.zero, .null, ?_, hnull, ?_⟩
    · simp only [Cell.hasType]
      cases type.kind <;> rfl
    · cases type.kind <;>
        simp [Kind.zero, Cell.bound, toFloat, float64, sqlCompare, Cell.json, order, compareValues]
  by_cases hnum : type.kind = .bigint ∨ type.kind = .numeric
  · -- the two numbers around the first integer that is no `float64`
    have htie : toFloat 9007199254740993 = toFloat 9007199254740992 := rfl
    refine ⟨.num 9007199254740992, .num 9007199254740993, ?_, ?_, rfl, by decide, by decide, ?_⟩
    · rcases hnum with hkind | hkind <;> rw [Cell.hasType, hkind] <;> decide
    · rcases hnum with hkind | hkind <;> rw [Cell.hasType, hkind] <;> decide
    · simp [Cell.json, order, compareValues, htie]
  by_cases hbool : type.kind = .bool
  · exact ⟨.bool false, .bool true, by simp [Cell.hasType, hbool], by simp [Cell.hasType, hbool],
      rfl, rfl, rfl, by simp [Cell.json, order, compareValues],
      by simp [Cell.json, order, compareValues]⟩
  have htime : type.kind = .time ∧ ∃ t t', t < t' ∧ compare (stamp t) (stamp t') ≠ .lt := by
    simpa [Sortable, hnull, hbool, not_or.mp hnum] using h
  obtain ⟨hkind, t, t', hlt, hstamp⟩ := htime
  refine ⟨.time t, .time t', by simp [Cell.hasType, hkind], by simp [Cell.hasType, hkind], rfl,
    Int.compare_eq_lt.mpr hlt, Int.compare_eq_gt.mpr hlt, hstamp, ?_⟩
  exact fun hgt => hstamp (((LinearCmpOn.of_ord String).gt_iff_lt trivial trivial).mp hgt)

theorem cell_single {id c : String} (hc : c ≠ "id") (v : Cell) :
    (TableRow.mk id [(c, v)]).cell c = v := by
  have hbeq : (c == "id") = false := by simpa using hc
  simp [TableRow.cell, TableRow.cells, lookup_cons, hbeq]

theorem Table.column_ne_id {c : String} (h : ¬ Sortable stamp (t.type c)) : c ≠ "id" := by
  rintro rfl
  rw [t.id_type] at h
  exact h ⟨rfl, by decide, fun hstr => absurd hstr (by decide)⟩

end Fabriq.Live.DatabaseOrder
