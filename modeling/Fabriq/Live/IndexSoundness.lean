import Fabriq.Lib.Assoc
import Fabriq.Lib.Machine
import Fabriq.Live.CandidateIndex

namespace Fabriq.Live.IndexSoundness

open Core.Value Lib Lib.Machine Live.CandidateIndex Live.Match Query.Filter List Lib.Assoc

/-- `Add`, with `none` for the panic of a map whose key is a slice or a map. -/
def tryAdd (ix : PredicateIndex) (id : String) (conds : Where) : Option PredicateIndex :=
  if (equalityColumns conds).all fun c => (operandKey c.2).isSome then
    some (ix.add id conds)
  else none

def unhashable (ix : PredicateIndex) (field : String × Json) : Bool :=
  (valueKey field.2).isNone && ix.byColVal.any fun entry => entry.1 == field.1

/-- `Candidates`, with `none` for its panic: the value of an indexed column is looked
up among the column's keys. -/
def tryCandidates (ix : PredicateIndex) (row : Vals) : Option (String → Bool) :=
  if (row.getD []).any (unhashable ix) then none else some (ix.candidates row)

/-- The index and the filters added to it, the newest first, less the removed ids. -/
structure State where
  index : PredicateIndex
  added : List (String × Where)

def start : State :=
  ⟨.empty, []⟩

inductive Action
  | add (id : String) (conds : Where)
  | remove (id : String)

def step (s : State) : Action → Option State
  | .add id conds =>
    if checkOps conds then
      (tryAdd s.index id conds).map fun ix => ⟨ix, (id, conds) :: s.added⟩
    else none
  | .remove id => some ⟨s.index.remove id, drop s.added id⟩

/-- The row is looked up without a panic, every subscription whose filter it passes is
found and no other id than a registered one is. -/
def SoundOn (toLower : String → String) (s : State) (row : Vals) : Prop :=
  ∃ found, tryCandidates s.index row = some found ∧
    (∀ id conds, s.added.lookup id = some conds → eval toLower row conds = some true →
      found id = true) ∧
    ∀ id, s.added.lookup id = none → found id = false

/-- No registered filter constrains, by a top-level equality, a column in which the row
has an array or an object. -/
def keyable (s : State) (row : Vals) : Bool :=
  (row.getD []).all fun field =>
    (valueKey field.2).isSome || s.added.all fun sub => !(constrained sub.2).contains field.1

def tagged : List Action :=
  [.add "s" [.leaf "tags" .eq (.str "pump")]]

/-- A subscription on a column panics on every row that has an array there. -/
theorem taggedRow_not_soundOn : ∃ s, run step start tagged = some s ∧
      ¬ SoundOn (fun t => t) s (some [("tags", .arr [.str "pump"])]) := by
  refine ⟨_, rfl, ?_⟩
  rintro ⟨found, hfound, -⟩
  exact absurd hfound nofun

structure Indexes (s : State) : Prop where
  hashable : ∀ sub ∈ s.added, ∀ c ∈ equalityColumns sub.2, (operandKey c.2).isSome = true
  entries : ∀ column key id, (column, key, id) ∈ s.index.byColVal ↔
    ∃ conds value, (id, conds) ∈ s.added ∧ (column, value) ∈ equalityColumns conds ∧
      operandKey value = some key
  residual : ∀ id, s.index.residual id = true ↔
    ∃ conds, (id, conds) ∈ s.added ∧ constrained conds = []
  want : ∀ id conds, s.added.lookup id = some conds → constrained conds ≠ [] →
    s.index.want id = (constrained conds).length

variable {s t : State} {id : String} {conds : Where}

theorem indexes_start : Indexes start where
  hashable := by simp [start]
  entries := by simp [start, PredicateIndex.empty]
  residual := by simp [start, PredicateIndex.empty]
  want := by simp [start]

theorem equalityColumns_of_constrained (h : constrained conds = []) :
    equalityColumns conds = [] := by
  rw [constrained, dedup_eq_nil, map_eq_nil_iff] at h
  exact h

variable {column i : String} {ix : PredicateIndex}

theorem mem_constrained :
    column ∈ constrained conds ↔ ∃ value, (column, value) ∈ equalityColumns conds := by
  simp [constrained]

theorem mem_byColVal_add {key : Key} : (column, key, i) ∈ (ix.add id conds).byColVal ↔
      (i = id ∧ ∃ value, (column, value) ∈ equalityColumns conds ∧
        operandKey value = some key) ∨ (column, key, i) ∈ ix.byColVal := by
  by_cases hnone : constrained conds = []
  · simp [PredicateIndex.add, hnone, equalityColumns_of_constrained hnone]
  · simp only [PredicateIndex.add, if_neg hnone, mem_append, mem_filterMap,
      Option.map_eq_some_iff, Prod.exists, Prod.mk.injEq]
    refine or_congr_left ⟨?_, ?_⟩
    · rintro ⟨col, value, hmem, k, hkey, rfl, rfl, rfl⟩
      exact ⟨rfl, value, hmem, hkey⟩
    · rintro ⟨rfl, value, hmem, hkey⟩
      exact ⟨column, value, hmem, key, hkey, rfl, rfl, rfl⟩

theorem residual_add :
    (ix.add id conds).residual i ↔ (i = id ∧ constrained conds = []) ∨ ix.residual i := by
  by_cases hnone : constrained conds = [] <;>
    by_cases hi : i = id <;> simp [PredicateIndex.add, hnone, hi]

section

variable (h : Indexes s)
include h

theorem Indexes.add (hkeys : ∀ c ∈ equalityColumns conds, (operandKey c.2).isSome) :
    Indexes ⟨s.index.add id conds, (id, conds) :: s.added⟩ where
  hashable sub hsub := by
    rcases mem_cons.mp hsub with rfl | hsub
    · exact hkeys
    · exact h.hashable sub hsub
  entries column key i := by
    rw [mem_byColVal_add, h.entries]
    simp only [mem_cons, Prod.mk.injEq]
    constructor
    · rintro (⟨rfl, value, hmem, hkey⟩ | ⟨cs, value, hcs, hmem, hkey⟩)
      · exact ⟨conds, value, .inl ⟨rfl, rfl⟩, hmem, hkey⟩
      · exact ⟨cs, value, .inr hcs, hmem, hkey⟩
    · rintro ⟨cs, value, ⟨rfl, rfl⟩ | hcs, hmem, hkey⟩
      · exact .inl ⟨rfl, value, hmem, hkey⟩
      · exact .inr ⟨cs, value, hcs, hmem, hkey⟩
  residual i := by
    rw [residual_add, h.residual]
    simp only [mem_cons, Prod.mk.injEq]
    constructor
    · rintro (⟨rfl, hnone⟩ | ⟨cs, hcs, hnone⟩)
      · exact ⟨conds, .inl ⟨rfl, rfl⟩, hnone⟩
      · exact ⟨cs, .inr hcs, hnone⟩
    · rintro ⟨cs, ⟨rfl, rfl⟩ | hcs, hnone⟩
      · exact .inl ⟨rfl, hnone⟩
      · exact .inr ⟨cs, hcs, hnone⟩
  want i cs hlookup hne := by
    rw [lookup_cons] at hlookup
    by_cases hi : i = id
    · subst hi
      obtain rfl : conds = cs := by simpa using hlookup
      simp [PredicateIndex.add, hne]
    · rw [beq_eq_false_iff_ne.mpr hi] at hlookup
      rw [← h.want i cs hlookup hne]
      unfold PredicateIndex.add
      split_ifs <;> simp [hi]

theorem Indexes.remove (id : String) : Indexes ⟨s.index.remove id, Assoc.drop s.added id⟩ where
  hashable sub hsub := h.hashable sub (mem_of_mem_filter hsub)
  entries column key i := by
    simp only [PredicateIndex.remove, mem_filter, h.entries, Assoc.drop]
    constructor
    · rintro ⟨⟨cs, value, hcs, hmem, hkey⟩, hne⟩
      exact ⟨cs, value, ⟨hcs, hne⟩, hmem, hkey⟩
    · rintro ⟨cs, value, ⟨hcs, hne⟩, hmem, hkey⟩
      exact ⟨⟨cs, value, hcs, hmem, hkey⟩, hne⟩
  residual i := by
    by_cases hi : i = id
    · simp [PredicateIndex.remove, Assoc.drop, hi]
    · simp [PredicateIndex.remove, Assoc.drop, hi, h.residual]
  want i cs hlookup hne := by
    rw [Assoc.lookup_drop] at hlookup
    split_ifs at hlookup with hi
    simp only [PredicateIndex.remove, if_neg hi]
    exact h.want i cs hlookup hne

theorem indexes_step {a : Action} (hstep : step s a = some t) : Indexes t := by
  cases a with
  | add id conds =>
    simp only [step, tryAdd] at hstep
    split_ifs at hstep with hcheck hkeys
    · cases hstep
      exact h.add (all_eq_true.mp hkeys)
    · simp at hstep
  | remove id =>
    cases hstep
    exact h.remove id

theorem Indexes.unhashable_iff {field : String × Json} : unhashable s.index field ↔
      valueKey field.2 = none ∧ ∃ sub ∈ s.added, field.1 ∈ constrained sub.2 := by
  rw [unhashable, Bool.and_eq_true, Option.isNone_iff_eq_none, any_eq_true]
  refine and_congr_right fun _ => ?_
  constructor
  · rintro ⟨⟨column, key, id⟩, hentry, heq⟩
    obtain ⟨conds, value, hsub, hmem, -⟩ := (h.entries column key id).mp hentry
    obtain rfl : column = field.1 := by simpa using heq
    exact ⟨(id, conds), hsub, mem_constrained.mpr ⟨value, hmem⟩⟩
  · rintro ⟨⟨id, conds⟩, hsub, hcolumn⟩
    obtain ⟨value, hmem⟩ := mem_constrained.mp hcolumn
    obtain ⟨key, hkey⟩ := Option.isSome_iff_exists.mp (h.hashable _ hsub _ hmem)
    exact ⟨_, (h.entries field.1 key id).mpr ⟨conds, value, hsub, hmem, hkey⟩, by simp⟩

variable {row : Vals}

theorem Indexes.keyable_iff : keyable s row ↔ (row.getD []).any (unhashable s.index) = false := by
  rw [keyable, all_eq_true, any_eq_false]
  refine forall₂_congr fun field _ => ?_
  rw [h.unhashable_iff]
  cases valueKey field.2 <;> simp

theorem Indexes.candidates_of_eval {toLower : String → String}
    (hsub : s.added.lookup id = some conds) (heval : eval toLower row conds = some true) :
    s.index.candidates row id := by
  have hmem := mem_of_lookup hsub
  by_cases hnone : constrained conds = []
  · rw [PredicateIndex.candidates, (h.residual id).mpr ⟨conds, hmem, hnone⟩, Bool.true_or]
  · refine candidates_of_entries (h.want id conds hsub hnone) hnone ?_ heval
    intro column value key hvalue hkey
    exact (h.entries column key id).mpr ⟨conds, value, hmem, hvalue, hkey⟩

theorem Indexes.candidates_of_lookup (hnone : s.added.lookup id = none) :
    s.index.candidates row id = false := by
  have habsent : ∀ conds, (id, conds) ∉ s.added := by
    intro conds hmem
    have hall := lookup_eq_none_iff.mp hnone
    exact absurd (hall _ hmem) (by simp)
  have hresidual : s.index.residual id = false := by
    rw [Bool.eq_false_iff, Ne, h.residual]
    rintro ⟨conds, hmem, -⟩
    exact habsent conds hmem
  have hhits : s.index.hits row id = 0 := by
    rw [PredicateIndex.hits, countP_eq_zero]
    intro field _
    rw [PredicateIndex.hit]
    cases valueKey field.2 with
    | none => simp
    | some key =>
      simp only [contains_iff_mem, h.entries]
      rintro ⟨conds, value, hmem, -⟩
      exact habsent conds hmem
  simp [PredicateIndex.candidates, hresidual, hhits]

end

/-- After every sequence of additions and removals, looking a row up is sound exactly when it is
keyable. -/
theorem soundOn_iff_keyable (toLower : String → String) (trace : List Action) {s : State}
    (hrun : run step start trace = some s) (row : Vals) :
    SoundOn toLower s row ↔ keyable s row = true := by
  have h : Indexes s := run_preserves (fun _ _ _ h => indexes_step h) indexes_start hrun
  rw [h.keyable_iff]
  constructor
  · rintro ⟨found, hfound, -⟩
    rw [tryCandidates] at hfound
    split_ifs at hfound with hany
    simpa using hany
  · intro hany
    refine ⟨s.index.candidates row, ?_, ?_, ?_⟩
    · rw [tryCandidates, if_neg (by simp [hany])]
    · intro id conds hsub heval
      exact h.candidates_of_eval hsub heval
    · intro id hnone
      exact h.candidates_of_lookup hnone

def mixed : List Action :=
  [.add "a" [.leaf "site" .eq (.str "north"), .leaf "rank" .isIn (.slice .ints [.num 1, .num 2])],
    .add "b" [.leaf "site" .eq (.str "south")], .add "c" [], .remove "b"]

theorem soundOn_mixed : ∃ s, run step start mixed = some s ∧ SoundOn (fun t => t) s
        (some [("site", .str "north"), ("rank", .num 2), ("geo", .obj [])]) := by
  refine ⟨_, rfl, ?_⟩
  exact (soundOn_iff_keyable _ mixed rfl _).mpr (by decide)

end Fabriq.Live.IndexSoundness
