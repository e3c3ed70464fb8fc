import Mathlib.Data.List.Dedup
import Mathlib.Data.List.Perm.Subperm
import Fabriq.Live.Match

namespace Fabriq.Live.CandidateIndex

open Core.Float64 Core.Value Live.Match Query.Filter

inductive Key
  | null
  | bool (b : Bool)
  | num (q : ℚ)
  | str (s : String)
  | time (nanos : Int)
  | other
  deriving DecidableEq

/-- `normVal` of an operand, `none` for the slices and maps that cannot be keys. -/
def operandKey : Operand → Option Key
  | .null => some .null
  | .bool b => some (.bool b)
  | .num q => some (.num (toFloat q))
  | .str s => some (.str s)
  | .time nanos => some (.time nanos)
  | .other => some .other
  | .slice _ _ | .object => none

def valueKey : Json → Option Key
  | .null => some .null
  | .bool b => some (.bool b)
  | .num q => some (.num q)
  | .str s => some (.str s)
  | .arr _ | .obj _ => none

def toAnySlice : Operand → List Operand
  | .slice .other _ => []
  | .slice _ elems => elems
  | _ => []

/-- The accepted values of the top-level equality constraints, column by column. -/
def equalityColumns : Where → List (String × Operand)
  | [] => []
  | .leaf column .eq value :: rest => (column, value) :: equalityColumns rest
  | .leaf column .isIn value :: rest =>
    (toAnySlice value).map (fun v => (column, v)) ++ equalityColumns rest
  | _ :: rest => equalityColumns rest

/-- The counting index: an entry for every column, value and subscription, the number of columns
each constrains, and the subscriptions without constraint. -/
structure PredicateIndex where
  byColVal : List (String × Key × String)
  want : String → Nat
  residual : String → Bool

def PredicateIndex.empty : PredicateIndex :=
  ⟨[], fun _ => 0, fun _ => false⟩

def constrained (conds : Where) : List String :=
  ((equalityColumns conds).map Prod.fst).dedup

-- A value that is no map key makes the source panic, in `add` as in `candidates`;
-- here it gives no entry and no hit.
def PredicateIndex.add (ix : PredicateIndex) (id : String) (conds : Where) : PredicateIndex :=
  if constrained conds = [] then
    { ix with residual := fun i => if i = id then true else ix.residual i }
  else
    { ix with
      want := fun i => if i = id then (constrained conds).length else ix.want i
      byColVal := ((equalityColumns conds).filterMap fun (column, value) =>
        (operandKey value).map fun key => (column, key, id)) ++ ix.byColVal }

def PredicateIndex.remove (ix : PredicateIndex) (id : String) : PredicateIndex where
  byColVal := ix.byColVal.filter fun entry => entry.2.2 ≠ id
  want := fun i => if i = id then 0 else ix.want i
  residual := fun i => if i = id then false else ix.residual i

def PredicateIndex.hit (ix : PredicateIndex) (id : String) (field : String × Json) : Bool :=
  match valueKey field.2 with
  | some key => ix.byColVal.contains (field.1, key, id)
  | none => false

def PredicateIndex.hits (ix : PredicateIndex) (row : Vals) (id : String) : Nat :=
  (row.getD []).countP (ix.hit id)

/-- The subscriptions a row may concern.  A delete carries no row and reaches the
residual ones only. -/
def PredicateIndex.candidates (ix : PredicateIndex) (row : Vals) (id : String) : Bool :=
  ix.residual id ||
    decide (0 < ix.hits row id) && decide (ix.want id ≤ ix.hits row id)

def PredicateIndex.mentions (ix : PredicateIndex) (id : String) : Prop :=
  ix.residual id = true ∨ ix.want id ≠ 0 ∨ ∃ entry ∈ ix.byColVal, entry.2.2 = id

variable {ix : PredicateIndex} {id i : String} {conds : Where}

theorem mentions_add (h : (ix.add id conds).mentions i) : i = id ∨ ix.mentions i := by
  by_cases hid : i = id
  · exact .inl hid
  · right
    unfold PredicateIndex.add at h
    split_ifs at h
    · simpa [PredicateIndex.mentions, hid] using h
    · rcases h with h | h | ⟨entry, hentry, heq⟩
      · exact .inl h
      · exact .inr (.inl (by simpa [hid] using h))
      · rcases List.mem_append.mp hentry with hentry | hentry
        · obtain ⟨pair, -, hpair⟩ := List.mem_filterMap.mp hentry
          obtain ⟨key, -, rfl⟩ := Option.map_eq_some_iff.mp hpair
          exact absurd heq.symm hid
        · exact .inr (.inr ⟨entry, hentry, heq⟩)

theorem mentions_remove (h : (ix.remove id).mentions i) : i ≠ id ∧ ix.mentions i := by
  by_cases hid : i = id
  · subst hid
    simp [PredicateIndex.mentions, PredicateIndex.remove] at h
  · refine ⟨hid, ?_⟩
    rcases h with h | h | ⟨entry, hentry, heq⟩
    · exact .inl (by simpa [PredicateIndex.remove, hid] using h)
    · exact .inr (.inl (by simpa [PredicateIndex.remove, hid] using h))
    · exact .inr (.inr ⟨entry, List.mem_of_mem_filter hentry, heq⟩)

theorem not_mentions_empty : ¬ PredicateIndex.empty.mentions id := by
  simp [PredicateIndex.mentions, PredicateIndex.empty]

variable {toLower : String → String} {row : Vals} {column : String}

theorem eval_eq_true (h : eval toLower row conds = some true) :
    ∀ c ∈ conds, evalCond toLower row c = some true := by
  induction conds with
  | nil => simp
  | cons c rest ih =>
    rw [eval] at h
    obtain ⟨hit, hc, hrest⟩ := Option.bind_eq_some_iff.mp h
    cases hit with
    | false => simp at hrest
    | true =>
      intro d hd
      rcases List.mem_cons.mp hd with rfl | hd
      · exact hc
      · exact ih hrest d hd

theorem anyM_eq_true {α : Type*} {test : α → Option Bool} {l : List α}
    (h : anyM test l = some true) : ∃ a ∈ l, test a = some true := by
  induction l with
  | nil => simp [anyM] at h
  | cons a rest ih =>
    rw [anyM] at h
    obtain ⟨hit, ha, hrest⟩ := Option.bind_eq_some_iff.mp h
    cases hit with
    | true => exact ⟨a, List.mem_cons_self, ha⟩
    | false =>
      obtain ⟨b, hb, htest⟩ := ih (by simpa using hrest)
      exact ⟨b, List.mem_cons_of_mem _ hb, htest⟩

variable {v : Json} {value : Operand}

theorem key_eq_of_equal (h : equal v value = some true) :
    ∃ key, valueKey v = some key ∧ operandKey value = some key := by
  unfold equal at h
  split at h <;> simp_all [valueKey, operandKey]

theorem evalLeaf_eq (h : evalLeaf toLower column .eq value row = some true) :
    ∃ v, row.find column = some v ∧ equal v value = some true := by
  unfold evalLeaf at h
  cases hfind : row.find column with
  | none => simp [hfind] at h
  | some v => cases v <;> simp_all [evalPresent]

theorem evalLeaf_isIn (h : evalLeaf toLower column .isIn value row = some true) :
    ∃ v, row.find column = some v ∧ inSlice v value = some true := by
  unfold evalLeaf at h
  cases hfind : row.find column with
  | none => simp [hfind] at h
  | some v => cases v <;> simp_all [evalPresent]

theorem mem_of_find (h : row.find column = some v) : (column, v) ∈ row.getD [] := by
  obtain ⟨fields, rfl, hlookup⟩ := Option.bind_eq_some_iff.mp h
  obtain ⟨before, after, hfields, -⟩ := List.lookup_eq_some_iff.mp hlookup
  simp [hfields]

theorem mem_toAnySlice {kind : SliceKind} {elems : List Operand} {a b : Operand}
    (ha : a ∈ toAnySlice (.slice kind elems)) (hb : b ∈ elems) :
    b ∈ toAnySlice (.slice kind elems) := by
  cases kind <;> simp_all [toAnySlice]

theorem accepted_of_mem (h : ∀ c ∈ conds, evalCond toLower row c = some true)
    (hcolumn : column ∈ (equalityColumns conds).map Prod.fst) :
    ∃ v value, row.find column = some v ∧ (column, value) ∈ equalityColumns conds ∧
      equal v value = some true := by
  fun_induction equalityColumns conds with
  | case1 => simp at hcolumn
  | case2 col value rest ih =>
    rw [List.map_cons, List.mem_cons] at hcolumn
    rcases hcolumn with rfl | hcolumn
    · have hleaf := h _ List.mem_cons_self
      rw [evalCond] at hleaf
      obtain ⟨v, hfind, hequal⟩ := evalLeaf_eq hleaf
      exact ⟨v, value, hfind, List.mem_cons_self, hequal⟩
    · obtain ⟨v, accepted, hfind, hmem, hequal⟩ :=
        ih (fun c hc => h c (List.mem_cons_of_mem _ hc)) hcolumn
      exact ⟨v, accepted, hfind, List.mem_cons_of_mem _ hmem, hequal⟩
  | case3 col value rest ih =>
    rw [List.map_append, List.mem_append] at hcolumn
    rcases hcolumn with hcolumn | hcolumn
    · obtain ⟨pair, hpair, rfl⟩ := List.mem_map.mp hcolumn
      obtain ⟨accepted, haccepted, rfl⟩ := List.mem_map.mp hpair
      have hleaf := h _ List.mem_cons_self
      rw [evalCond] at hleaf
      obtain ⟨v, hfind, hin⟩ := evalLeaf_isIn hleaf
      cases value with
      | slice kind elems =>
        obtain ⟨elem, helem, hequal⟩ := anyM_eq_true hin
        refine ⟨v, elem, hfind, List.mem_append_left _ ?_, hequal⟩
        exact List.mem_map_of_mem (mem_toAnySlice haccepted helem)
      | _ => simp [toAnySlice] at haccepted
    · obtain ⟨v, accepted, hfind, hmem, hequal⟩ :=
        ih (fun c hc => h c (List.mem_cons_of_mem _ hc)) hcolumn
      exact ⟨v, accepted, hfind, List.mem_append_right _ hmem, hequal⟩
  | case4 c rest _ _ ih =>
    exact ih (fun c hc => h c (List.mem_cons_of_mem _ hc)) hcolumn

theorem candidates_of_entries (hwant : ix.want id = (constrained conds).length)
    (hne : constrained conds ≠ [])
    (hentries : ∀ column value key, (column, value) ∈ equalityColumns conds →
      operandKey value = some key → (column, key, id) ∈ ix.byColVal)
    (h : eval toLower row conds = some true) : ix.candidates row id := by
  have hsub : constrained conds ⊆ ((row.getD []).filter (ix.hit id)).map Prod.fst := by
    intro column hcolumn
    obtain ⟨v, value, hfind, hmem, hequal⟩ :=
      accepted_of_mem (eval_eq_true h) (List.mem_dedup.mp hcolumn)
    obtain ⟨key, hvkey, hokey⟩ := key_eq_of_equal hequal
    refine List.mem_map.mpr ⟨(column, v), List.mem_filter.mpr ⟨mem_of_find hfind, ?_⟩, rfl⟩
    simpa [PredicateIndex.hit, hvkey] using hentries column value key hmem hokey
  have hle : (constrained conds).length ≤ ix.hits row id := by
    rw [PredicateIndex.hits, List.countP_eq_length_filter, ← List.length_map Prod.fst]
    exact ((List.nodup_dedup _).subperm hsub).length_le
  have hpos : 0 < (constrained conds).length := List.length_pos_iff.mpr hne
  rw [PredicateIndex.candidates, hwant, decide_eq_true hle, decide_eq_true (by omega)]
  simp

theorem candidates_add_of_eval (ix : PredicateIndex) (id : String)
    (h : eval toLower row conds = some true) : (ix.add id conds).candidates row id := by
  by_cases hnone : constrained conds = []
  · simp [PredicateIndex.candidates, PredicateIndex.add, hnone]
  · refine candidates_of_entries ?_ hnone ?_ h
    · simp [PredicateIndex.add, hnone]
    · intro column value key hmem hkey
      simp only [PredicateIndex.add, if_neg hnone]
      exact List.mem_append_left _ (List.mem_filterMap.mpr ⟨_, hmem, by simp [hkey]⟩)

end Fabriq.Live.CandidateIndex
