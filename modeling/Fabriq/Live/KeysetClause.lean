import Fabriq.Live.DatabaseOrder

namespace Fabriq.Live.KeysetClause

open Live.DatabaseOrder Live.Order Live.Types List

/-- `"column" op $arg`; the operator is named by the outcome it asks for. -/
structure Atom where
  column : String
  op : Ordering
  arg : Nat

def idKey : SortKey :=
  ⟨"id", false⟩

variable {β : Type}

/-- The comparisons of a chain, each with the next placeholder. -/
def numbered : Nat → List (String × Ordering) → List Atom
  | _, [] => []
  | argN, (column, op) :: rest => ⟨column, op, argN⟩ :: numbered (argN + 1) rest

/-- The chain of a key: those before it equal the cursor's values and it lies beyond. -/
def chain (before : List (SortKey × β)) (key : SortKey × β) : List (String × Ordering) :=
  before.map (fun k => (k.1.column, .eq)) ++ [(key.1.column, if key.1.desc then .lt else .gt)]

def keysetLoop : List (SortKey × β) → List (SortKey × β) → Nat → List (List Atom) × List β
  | _, [], _ => ([], [])
  | before, key :: rest, argN =>
    let later := keysetLoop (before ++ [key]) rest (argN + before.length + 1)
    (numbered argN (chain before key) :: later.1, (before ++ [key]).map Prod.snd ++ later.2)

/-- The disjunction of the chains, and the arguments. -/
def keysetSQL (sort : List SortKey) (after : List β) (argN : Nat) : List (List Atom) × List β :=
  keysetLoop [] ((sort ++ [idKey]).zip after) argN

/-- A comparison of values that are not NULL, with the argument that its placeholder is bound
to. -/
def Atom.holds (r : TableRow) (args : List Cell) (a : Atom) : Bool :=
  args[a.arg - 1]?.any fun v => sqlCompare (r.cell a.column) v == a.op

def clauseHolds (r : TableRow) (args : List Cell) (clause : List (List Atom)) : Bool :=
  clause.any fun atoms => atoms.all (Atom.holds r args)

def cursorCells (sort : List SortKey) (r : TableRow) : List Cell :=
  (sort ++ [idKey]).map fun s => (r.cell s.column).bound

variable {r : TableRow} {n : Nat} {prior post : List Cell}

theorem numbered_holds (r : TableRow) (post : List Cell) (tests : List ((String × Ordering) × Cell))
    (hn : prior.length + 1 = n) :
    (numbered n (tests.map Prod.fst)).all (Atom.holds r (prior ++ (tests.map Prod.snd ++ post))) ↔
      ∀ t ∈ tests, sqlCompare (r.cell t.1.1) t.2 = t.1.2 := by
  induction tests generalizing n prior with
  | nil => simp [numbered]
  | cons t tests ih =>
    have hn' : (prior ++ [t.2]).length + 1 = n + 1 := by simp [hn]
    have hrest := ih hn'
    rw [append_assoc] at hrest
    have hget : (prior ++ (t.2 :: (tests.map Prod.snd ++ post)))[n - 1]? = some t.2 := by
      rw [← hn, Nat.add_sub_cancel]
      simp
    simp only [map_cons, numbered, all_cons, Bool.and_eq_true, forall_mem_cons,
      ← hrest, Atom.holds, cons_append, hget, nil_append]
    simp

theorem sqlCompareKey_eq_eq {s : SortKey} {v w : Cell} :
    sqlCompareKey s v w = .eq ↔ sqlCompare v w = .eq := by
  unfold sqlCompareKey
  split_ifs <;> simp

theorem sqlCompareKey_eq_gt {s : SortKey} {v w : Cell} :
    sqlCompareKey s v w = .gt ↔ sqlCompare v w = if s.desc then .lt else .gt := by
  unfold sqlCompareKey
  split_ifs <;> simp

theorem chain_holds (before : List (SortKey × Cell)) (key : SortKey × Cell)
    (hn : prior.length + 1 = n) :
    (numbered n (chain before key)).all
        (Atom.holds r (prior ++ ((before ++ [key]).map Prod.snd ++ post))) ↔
      (∀ k ∈ before, sqlCompareKey k.1 (r.cell k.1.column) k.2 = .eq) ∧
        sqlCompareKey key.1 (r.cell key.1.column) key.2 = .gt := by
  have htests := numbered_holds r post (before.map (fun k => ((k.1.column, Ordering.eq), k.2)) ++
      [((key.1.column, if key.1.desc then .lt else .gt), key.2)]) hn
  simp only [map_append, map_map, map_cons, map_nil,
    forall_mem_append, forall_mem_map, forall_mem_singleton] at htests
  simp only [sqlCompareKey_eq_eq, sqlCompareKey_eq_gt, map_append, map_cons, map_nil]
  exact htests

theorem keysetLoop_holds (before rest : List (SortKey × Cell)) (hn : prior.length + 1 = n) :
    clauseHolds r (prior ++ (keysetLoop before rest n).2) (keysetLoop before rest n).1 ↔
      (∀ k ∈ before, sqlCompareKey k.1 (r.cell k.1.column) k.2 = .eq) ∧
        (rest.map fun k => sqlCompareKey k.1 (r.cell k.1.column) k.2).foldr Ordering.then .eq =
          .gt := by
  induction rest generalizing before n prior with
  | nil => simp [keysetLoop, clauseHolds]
  | cons key rest ih =>
    have hn' : (prior ++ (before ++ [key]).map Prod.snd).length + 1 = n + before.length + 1 := by
      simp
      omega
    have hlater := ih (before ++ [key]) hn'
    rw [append_assoc] at hlater
    simp only [keysetLoop, clauseHolds, any_cons, Bool.or_eq_true] at hlater ⊢
    rw [chain_holds before key hn, hlater, map_cons, foldr_cons, Ordering.then_eq_gt]
    simp only [forall_mem_append, forall_mem_singleton]
    tauto

theorem keysetLoop_args (before rest : List (SortKey × β)) (n : Nat) :
    (keysetLoop before rest n).1.flatten.map Atom.arg =
      List.range' n (keysetLoop before rest n).2.length := by
  have hnumbered : ∀ (tests : List (String × Ordering)) n,
      (numbered n tests).map Atom.arg = List.range' n tests.length := by
    intro tests
    induction tests with
    | nil => exact fun _ => rfl
    | cons t tests ih => simp [numbered, ih, List.range'_succ]
  induction rest generalizing before n with
  | nil => rfl
  | cons key rest ih =>
    simp only [keysetLoop, flatten_cons, map_append, hnumbered, ih, chain,
      length_append, length_map, length_singleton, Nat.add_assoc n]
    exact List.range'_append_1

/-- The clause is true of the rows that follow the cursor in the order of the statement. -/
theorem keysetSQL_holds {sort : List SortKey} {c : TableRow} (r : TableRow) (hc : c.Exact sort)
    (hn : prior.length + 1 = n) :
    clauseHolds r (prior ++ (keysetSQL sort (cursorCells sort c) n).2)
        (keysetSQL sort (cursorCells sort c) n).1 ↔ orderBy sort r c = .gt := by
  have hzip : (sort ++ [idKey]).zip (cursorCells sort c) =
      (sort ++ [idKey]).map fun s => (s, c.cell s.column) := by
    rw [cursorCells, ← map_prod_left_eq_zip, map_append, map_append]
    refine congrArg (· ++ _) (map_congr_left fun s hs => ?_)
    rw [hc s hs]
  rw [keysetSQL, hzip, keysetLoop_holds [] _ hn, map_map, map_append, foldr_append]
  simp only [not_mem_nil, false_implies, implies_true, true_and, Function.comp_def,
    map_cons, map_nil, foldr_cons, foldr_nil, Ordering.then_eq]
  exact Iff.rfl

end Fabriq.Live.KeysetClause
