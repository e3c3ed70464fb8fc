import Fabriq.Live.KeysetClause

namespace Fabriq.Live.AnchoredPaging

open Lib.Keyset Live.DatabaseOrder Live.KeysetClause Live.Types List

/-- A table and a live query over it: `selected` are the rows of the tenant that meet the
conditions, `prior` the arguments of that part, and `cursor` the values of the anchor. -/
structure Query (t : Table) where
  rows : List TableRow
  sort : List SortKey
  selected : TableRow → Bool
  prior : List Cell
  cursor : Option TableRow
  ids : (rows.map TableRow.id).Nodup
  typed : ∀ r ∈ rows, t.nonNull.Typed sort r

section

variable {t : Table} (q : Query t)

def Query.result : List TableRow :=
  sortBy (orderBy q.sort) id (q.rows.filter q.selected)

def Query.beyond (after r : TableRow) : Bool :=
  let clause := keysetSQL q.sort (cursorCells q.sort after) (q.prior.length + 1)
  clauseHolds r (q.prior ++ clause.2) clause.1

def Query.read (after : Option TableRow) (limit : Nat) : List TableRow :=
  let rows := q.result.filter fun r => after.all fun c => q.beyond c r
  if 0 < limit then rows.take limit else rows

/-- The statement of a snapshot has no clause for the anchor. -/
def Query.snapshot (limit : Nat) : List TableRow :=
  q.read none limit

/-- `After`, at the cursor of a row that the client was shown. -/
def Query.after (c : TableRow) (limit : Nat) : List TableRow :=
  q.read (some c) limit

/-- The pages from a first one on, up to a short one. -/
def Query.pages {t : Table} (q : Query t) (limit : Nat) : Nat → List TableRow → Option (List TableRow)
  | 0, _ => none
  | fuel + 1, page =>
    match page.getLast? with
    | some last =>
      if page.length < limit then some page
      else (q.pages limit fuel (q.after last limit)).map (page ++ ·)
    | none => some page

def Query.enumerate (limit : Nat) : Option (List TableRow) :=
  q.pages limit (q.rows.length + 1) (q.snapshot limit)

end

variable {t : Table} {q : Query t} {sort : List SortKey}

theorem linearCmpOn_sqlCompare (kind : Kind) :
    LinearCmpOn sqlCompare (fun v => v.hasType ⟨kind, false⟩) := by
  cases kind with
  | bool =>
    refine (LinearCmpOn.of_ord Bool).map Cell.bool (fun _ _ _ _ => rfl) fun v hv => ?_
    cases v <;> simp_all [Cell.hasType, Kind.holds]
  | integer | bigint | double | numeric =>
    refine (LinearCmpOn.of_ord ℚ).map Cell.num (fun _ _ _ _ => rfl) fun v hv => ?_
    cases v <;> simp_all [Cell.hasType, Kind.holds]
  | time =>
    refine (LinearCmpOn.of_ord Int).map Cell.time (fun _ _ _ _ => rfl) fun v hv => ?_
    cases v <;> simp_all [Cell.hasType, Kind.holds]
  | str =>
    refine (LinearCmpOn.of_ord String).map Cell.str (fun _ _ _ _ => rfl) fun v hv => ?_
    cases v <;> simp_all [Cell.hasType, Kind.holds]

theorem linearCmpOn_sqlCompareKey (s : SortKey) (kind : Kind) :
    LinearCmpOn (sqlCompareKey s) (fun v => v.hasType ⟨kind, false⟩) := by
  unfold sqlCompareKey
  cases s.desc with
  | false => exact linearCmpOn_sqlCompare kind
  | true => exact (linearCmpOn_sqlCompare kind).desc

theorem linearCmpOn_orderBy {P : TableRow → Prop} (hids : ∀ a b, P a → P b → a.id = b.id → a = b)
    (htyped : ∀ r, P r → t.nonNull.Typed sort r) : LinearCmpOn (orderBy sort) P := by
  induction sort with
  | nil => exact (LinearCmpOn.of_ord String).comap _ (fun _ _ => trivial) hids
  | cons s sort ih =>
    have hrest := ih fun r hr s hs => htyped r hr s (mem_cons_of_mem _ hs)
    have hlex := (linearCmpOn_sqlCompareKey s (t.type s.column).kind).lex hrest
    exact hlex.comap (fun r : TableRow => (r.cell s.column, r))
      (fun r hr => ⟨htyped r hr s mem_cons_self, hr⟩) fun a b _ _ h => congrArg Prod.snd h

theorem linearCmpOn_rows (q : Query t) : LinearCmpOn (orderBy q.sort) (· ∈ q.rows) :=
  linearCmpOn_orderBy (fun _ _ ha hb => inj_on_of_nodup_map q.ids ha hb) q.typed

theorem sorted_result (q : Query t) : Sorted (orderBy q.sort) id q.result :=
  sorted_sortBy (linearCmpOn_rows q) (fun _ hr => mem_of_mem_filter hr)
    ((List.Nodup.of_map _ q.ids).filter _)

theorem mem_rows {r : TableRow} (hr : r ∈ q.result) : r ∈ q.rows :=
  mem_of_mem_filter (mem_sortBy.mp hr)

theorem beyond_iff {c r : TableRow} (hc : c.Exact q.sort) :
    q.beyond c r ↔ orderBy q.sort r c = .gt :=
  keysetSQL_holds r hc rfl

section

variable (hexact : ∀ r ∈ q.rows, r.Exact q.sort)
include hexact

theorem after_eq {before rest : List TableRow} {c : TableRow} (limit : Nat)
    (h : q.result = before ++ c :: rest) : q.after c (limit + 1) = rest.take (limit + 1) := by
  have hlinear := linearCmpOn_rows q
  have hsorted := sorted_result q
  have hmem : ∀ r ∈ before ++ c :: rest, r ∈ q.rows := fun r hr => mem_rows (h ▸ hr)
  rw [h, Sorted, pairwise_append, pairwise_cons] at hsorted
  obtain ⟨-, ⟨hrest, -⟩, hbefore⟩ := hsorted
  have hc : c ∈ q.rows := hmem c (by simp)
  have hnone : before.filter (fun r => q.beyond c r) = [] := by
    refine filter_eq_nil_iff.mpr fun r hr hbeyond => ?_
    have hlt := hbefore r hr c mem_cons_self
    rw [id, id, (beyond_iff (hexact c hc)).mp hbeyond] at hlt
    cases hlt
  have hself : q.beyond c c = false := by
    rw [Bool.eq_false_iff, Ne, beyond_iff (hexact c hc), hlinear.cmp_self hc]
    decide
  have hall : rest.filter (fun r => q.beyond c r) = rest := by
    refine filter_eq_self.mpr fun r hr => ?_
    rw [beyond_iff (hexact c hc), hlinear.gt_iff_lt (hmem r (by simp [hr])) hc]
    exact hrest r hr
  simp only [Query.after, Query.read, h, Option.all_some, filter_append, hnone,
    filter_cons, hself, Bool.false_eq_true, if_false, hall, nil_append, Nat.succ_pos,
    if_true]

theorem pages_eq {before rest : List TableRow} {limit fuel : Nat} (hfuel : rest.length < fuel)
    (h : q.result = before ++ rest) :
    q.pages (limit + 1) fuel (rest.take (limit + 1)) = some rest := by
  induction fuel generalizing before rest with
  | zero => omega
  | succ fuel ih =>
    rw [Query.pages]
    split
    case h_1 last hlast =>
      rw [length_take]
      split_ifs with hshort
      · rw [take_of_length_le (by omega)]
      · obtain ⟨init, hinit⟩ := List.getLast?_eq_some_iff.mp hlast
        have hsplit : rest = init ++ last :: rest.drop (limit + 1) := by
          conv_lhs => rw [← take_append_drop (limit + 1) rest, hinit]
          simp
        have hresult : q.result = (before ++ init) ++ last :: rest.drop (limit + 1) := by
          rw [h, append_assoc, ← hsplit]
        have hlater : q.result = (before ++ init ++ [last]) ++ rest.drop (limit + 1) := by
          rw [hresult]
          simp
        rw [after_eq hexact limit hresult, ih (by rw [length_drop]; omega) hlater]
        simp
    case h_2 hnone =>
      rw [List.getLast?_eq_none_iff, take_eq_nil_iff] at hnone
      rw [hnone.resolve_left (by omega)]
      rfl

theorem enumerate_eq (limit : Nat) : q.enumerate (limit + 1) = some q.result := by
  have hlength : q.result.length ≤ q.rows.length := by
    rw [Query.result, sortBy, length_insertionSort]
    exact length_filter_le _ _
  have hfirst : q.snapshot (limit + 1) = q.result.take (limit + 1) := by
    simp [Query.snapshot, Query.read]
  rw [Query.enumerate, hfirst]
  have hall : q.result = [] ++ q.result := rfl
  exact pages_eq hexact (by omega) hall

end

def ranksFrom (rank : ℚ) :
    Query ⟨fun c => if c = "id" then ⟨.str, false⟩ else ⟨.bigint, false⟩, rfl⟩ where
  rows := [⟨"a", [("rank", .num 1)]⟩, ⟨"b", [("rank", .num 2)]⟩]
  sort := [⟨"rank", false⟩]
  selected := fun _ => true
  prior := [.str "acme"]
  cursor := some ⟨"a", [("rank", .num rank)]⟩
  ids := by decide
  typed := by unfold Table.Typed; decide

end Fabriq.Live.AnchoredPaging
