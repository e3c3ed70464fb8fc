import Fabriq.Lib.Keyset
import Fabriq.Live.Match
import Fabriq.Live.Types

namespace Fabriq.Live.Order

open Core.Value Lib.Keyset Live.Match Live.Types List

def sortKeyOf (row : Vals) (sort : List SortKey) (id : String) : Cursor :=
  ⟨sort.map (fun s => row.get s.column) ++ [.str id]⟩

def lastId (c : Cursor) : String :=
  match c.values.getLast? with
  | some (.str id) => id
  | _ => ""

def compareKey (s : SortKey) (a b : Json) : Ordering :=
  if s.desc then (order a b).swap else order a b

-- A cursor with fewer values than sort keys makes the source panic; every cursor
-- compared here was built by `sortKeyOf`.
def compareKeys : List SortKey → List Json → List Json → Ordering
  | s :: sort, a :: as, b :: bs => (compareKey s a b).then (compareKeys sort as bs)
  | _, _, _ => .eq

def compareCursors (sort : List SortKey) (a b : Cursor) : Ordering :=
  (compareKeys sort a.values b.values).then (compare (lastId a) (lastId b))

/-- The kinds of value that have an order: a column sorts linearly when all of its
values are of one of them. -/
inductive SortKind
  | num
  | str
  deriving DecidableEq, Repr

def SortKind.holds : SortKind → Json → Bool
  | .num, .num _ => true
  | .str, .str _ => true
  | _, _ => false

def Keyed (kind : String → SortKind) (sort : List SortKey) (c : Cursor) : Prop :=
  ∃ keys id, c.values = keys ++ [.str id] ∧
    List.Forall₂ (fun s v => (kind s.column).holds v = true) sort keys

def comparable (kind : String → SortKind) (sort : List SortKey) (row : Vals) : Bool :=
  sort.all fun s => (kind s.column).holds (row.get s.column)

variable {kind : String → SortKind} {sort : List SortKey}

theorem linearCmpOn_order (k : SortKind) : LinearCmpOn order (fun v => k.holds v) := by
  cases k with
  | num =>
    refine (LinearCmpOn.of_ord ℚ).map Json.num (fun a b _ _ => rfl) ?_
    intro v hv
    cases v <;> simp_all [SortKind.holds]
  | str =>
    refine (LinearCmpOn.of_ord String).map Json.str (fun a b _ _ => rfl) ?_
    intro v hv
    cases v <;> simp_all [SortKind.holds]

theorem linearCmpOn_compareKey (s : SortKey) (k : SortKind) :
    LinearCmpOn (compareKey s) (fun v => k.holds v) := by
  unfold compareKey
  cases s.desc with
  | false => exact linearCmpOn_order k
  | true => exact (linearCmpOn_order k).desc

theorem linearCmpOn_compareKeys (kind : String → SortKind) (sort : List SortKey) :
    LinearCmpOn (compareKeys sort) (List.Forall₂ (fun s v => (kind s.column).holds v) sort) := by
  induction sort with
  | nil =>
    constructor <;> simp +contextual [compareKeys]
  | cons s sort ih =>
    refine ((linearCmpOn_compareKey s (kind s.column)).lex ih).map
      (fun p => p.1 :: p.2) (fun p q _ _ => rfl) ?_
    intro keys hkeys
    obtain ⟨a, as, ha, has, rfl⟩ := forall₂_cons_left_iff.mp hkeys
    exact ⟨(a, as), ⟨ha, has⟩, rfl⟩

theorem compareKeys_append {as bs : List Json} (a b : Json)
    (ha : sort.length = as.length) (hb : sort.length = bs.length) :
    compareKeys sort (as ++ [a]) (bs ++ [b]) = compareKeys sort as bs := by
  induction sort generalizing as bs with
  | nil => simp [compareKeys]
  | cons s sort ih =>
    cases as with
    | nil => simp at ha
    | cons v as =>
      cases bs with
      | nil => simp at hb
      | cons w bs =>
        simp only [length_cons, Nat.add_right_cancel_iff] at ha hb
        simp only [cons_append, compareKeys, ih ha hb]

theorem linearCmpOn_compareCursors (kind : String → SortKind) (sort : List SortKey) :
    LinearCmpOn (compareCursors sort) (Keyed kind sort) := by
  refine ((linearCmpOn_compareKeys kind sort).lex (LinearCmpOn.of_ord String)).map
    (fun p => ⟨p.1 ++ [.str p.2]⟩) ?_ ?_
  · intro p q hp hq
    simp only [compareCursors, lastId, List.getLast?_concat,
      compareKeys_append _ _ hp.1.length_eq hq.1.length_eq]
  · rintro ⟨values⟩ ⟨keys, id, hvalues, hkeys⟩
    exact ⟨(keys, id), ⟨hkeys, trivial⟩, congrArg Cursor.mk hvalues.symm⟩

theorem keyed_sortKeyOf {row : Vals} (id : String) (h : comparable kind sort row) :
    Keyed kind sort (sortKeyOf row sort id) := by
  refine ⟨_, id, rfl, ?_⟩
  rw [forall₂_map_right_iff, forall₂_same]
  simpa [comparable] using h

@[simp]
theorem lastId_sortKeyOf (row : Vals) (id : String) : lastId (sortKeyOf row sort id) = id := by
  simp [lastId, sortKeyOf]

end Fabriq.Live.Order
