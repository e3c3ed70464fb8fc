import Mathlib.Data.List.Sort
import Mathlib.Data.List.Induction

/-!
The update log of one document and the transactions that write it: any number of `ApplyUpdate`
appends and `Compact` calls, one action for each statement after which another may run.
-/

namespace Fabriq.Document.Store

open List Option

/-- What the document store relies on of the CRDT merge engine: folding an update joins its
changes into the state, and the tombstone collection of `Compact` forgets no folded update. -/
structure MergeEngine (Update State : Type*) [SemilatticeSup State] where
  changes : Update → State
  compact : State → State
  changes_le_compact : ∀ state update,
    changes update ≤ state → changes update ≤ compact state

structure UpdateRow (Update : Type*) where
  seq : Nat
  updateData : Update
  deriving DecidableEq

structure SnapshotRow (State : Type*) where
  lastSeq : Nat
  snapshot : State

/-- An `ApplyUpdate` transaction.  It takes the shared document lock, inserts its row under a
new seq, and keeps both until it ends. -/
inductive Append (Update : Type*) where
  | locked
  | inserted (row : UpdateRow Update)
  | finished

/-- The result of `mergedState`, together with the snapshot watermark its log
read started from. -/
structure Fold (State : Type*) where
  since : Nat
  state : State
  maxSeq : Nat
  folded : Nat

/-- A `Compact` call.  `mergedState` reads the snapshot row and the log in two statements; the
second transaction locks, recounts, and then writes. -/
inductive Compaction (State : Type*) where
  | started
  | readSnapshot (snap : Option (SnapshotRow State))
  | merged (fold : Fold State)
  | locked (fold : Fold State)
  | recounted (fold : Fold State)
  | finished

/-- The rows of one document, the transactions running on it, and the history variable
`committed` of every row that was committed. -/
structure Doc (Update State : Type*) where
  lastSeq : Nat
  updates : List (UpdateRow Update)
  snapshot : Option (SnapshotRow State)
  appends : List (Append Update)
  compactions : List (Compaction State)
  committed : List (UpdateRow Update)

inductive Action (Update : Type*) where
  | allocate
  | beginAppend
  | insert (i : Nat) (update : Update)
  | commitAppend (i : Nat)
  | abortAppend (i : Nat)
  | beginCompact
  | readSnapshot (c : Nat)
  | readLog (c : Nat)
  | lockCompact (c : Nat)
  | recount (c : Nat)
  | commitCompact (c : Nat)
  | abortCompact (c : Nat)

variable {Update State : Type*}

def Append.holdsLock : Append Update → Bool
  | .locked | .inserted _ => true
  | .finished => false

def Append.pending : Append Update → Option (UpdateRow Update)
  | .inserted row => some row
  | _ => none

def Compaction.holdsLock : Compaction State → Bool
  | .locked _ | .recounted _ => true
  | _ => false

/-- `COALESCE((SELECT last_seq FROM fabriq_crdt_snapshots ...), 0)`. -/
def snapshotSeq (snap : Option (SnapshotRow State)) : Nat :=
  (snap.map SnapshotRow.lastSeq).getD 0

/-- The stored snapshot, or the empty state `crdt.NewState` returns. -/
def snapshotState [Bot State] (snap : Option (SnapshotRow State)) : State :=
  (snap.map SnapshotRow.snapshot).getD ⊥

/-- `SELECT ... WHERE seq > since ORDER BY seq`. -/
def rowsAfter (updates : List (UpdateRow Update)) (since : Nat) : List (UpdateRow Update) :=
  (updates.filter fun row => since < row.seq).insertionSort fun a b => a.seq ≤ b.seq

/-- The rows with `seq <= maxSeq AND seq > since`. -/
def rowsIn (updates : List (UpdateRow Update)) (since maxSeq : Nat) : List (UpdateRow Update) :=
  updates.filter fun row => since < row.seq && row.seq ≤ maxSeq

def lastRowSeq (rows : List (UpdateRow Update)) (default : Nat) : Nat :=
  (rows.getLast?.map UpdateRow.seq).getD default

variable {row : UpdateRow Update} {rows updates : List (UpdateRow Update)} {since : Nat}

theorem mem_rowsAfter : row ∈ rowsAfter updates since ↔ row ∈ updates ∧ since < row.seq := by
  simp [rowsAfter, mem_insertionSort]

theorem pairwise_sorted (rows : List (UpdateRow Update)) :
    (rows.insertionSort fun a b => a.seq ≤ b.seq).Pairwise fun a b => a.seq ≤ b.seq := by
  have htrans : IsTrans (UpdateRow Update) fun a b => a.seq ≤ b.seq := ⟨fun _ _ _ => Nat.le_trans⟩
  have htotal : Std.Total fun a b : UpdateRow Update => a.seq ≤ b.seq :=
    ⟨fun a b => Nat.le_total a.seq b.seq⟩
  exact pairwise_insertionSort _ _

theorem mem_rowsIn {maxSeq : Nat} :
    row ∈ rowsIn updates since maxSeq ↔ row ∈ updates ∧ since < row.seq ∧ row.seq ≤ maxSeq := by
  simp [rowsIn]

theorem seq_le_lastRowSeq (default : Nat) (hsorted : rows.Pairwise fun a b => a.seq ≤ b.seq)
    (hrow : row ∈ rows) : row.seq ≤ lastRowSeq rows default := by
  induction rows using List.reverseRecOn with
  | nil => simp at hrow
  | append_singleton rows last _ =>
    have hlast : lastRowSeq (rows ++ [last]) default = last.seq := by
      simp [lastRowSeq]
    rw [hlast]
    rcases mem_append.mp hrow with hmem | hmem
    · exact (pairwise_append.mp hsorted).2.2 row hmem last (by simp)
    · have heq : row = last := by simpa using hmem
      exact Nat.le_of_eq (congrArg UpdateRow.seq heq)

theorem lastRowSeq_le {default bound : Nat}
    (hdefault : default ≤ bound) (hrows : ∀ row ∈ rows, row.seq ≤ bound) :
    lastRowSeq rows default ≤ bound := by
  rw [lastRowSeq]
  cases hlast : rows.getLast? with
  | none => exact hdefault
  | some row => exact hrows row (mem_of_getLast? hlast)

theorem lastRowSeq_mem (hrows : rows ≠ [])
    (default : Nat) : ∃ row ∈ rows, row.seq = lastRowSeq rows default := by
  refine ⟨rows.getLast hrows, getLast_mem hrows, ?_⟩
  simp [lastRowSeq, List.getLast?_eq_some_getLast hrows]

namespace Doc

variable (d : Doc Update State)

def floor : Nat := snapshotSeq d.snapshot

def sharedHeld : Bool := d.appends.any Append.holdsLock

def exclusiveHeld : Bool := d.compactions.any Compaction.holdsLock

def inFlight : List (UpdateRow Update) := d.appends.filterMap Append.pending

def empty : Doc Update State :=
  { lastSeq := 0, updates := [], snapshot := none, appends := [],
    compactions := [], committed := [] }

variable {d}

theorem mem_inFlight : row ∈ d.inFlight ↔ Append.inserted row ∈ d.appends := by
  simp only [inFlight, mem_filterMap]
  constructor
  · rintro ⟨append, hmem, hrow⟩
    cases append with
    | inserted other =>
      have heq : other = row := by simpa [Append.pending] using hrow
      exact heq ▸ hmem
    | locked | finished => simp [Append.pending] at hrow
  · intro hmem
    exact ⟨_, hmem, rfl⟩

theorem sharedHeld_of_mem {append : Append Update} (hmem : append ∈ d.appends)
    (hlock : append.holdsLock) : d.sharedHeld :=
  List.any_eq_true.mpr ⟨append, hmem, hlock⟩

theorem exclusiveHeld_of_mem {c : Compaction State} (hmem : c ∈ d.compactions)
    (hlock : c.holdsLock) : d.exclusiveHeld :=
  List.any_eq_true.mpr ⟨c, hmem, hlock⟩

theorem inFlight_eq_nil (hshared : d.sharedHeld = false) : d.inFlight = [] := by
  apply eq_nil_iff_forall_not_mem.mpr
  intro row hrow
  have hheld := sharedHeld_of_mem (mem_inFlight.mp hrow) rfl
  simp [hshared] at hheld

end Doc

section

variable [SemilatticeSup State]

def fold (engine : MergeEngine Update State) (state : State) (row : UpdateRow Update) : State :=
  state ⊔ engine.changes row.updateData

theorem le_foldl_fold (engine : MergeEngine Update State)
    (rows : List (UpdateRow Update)) (state : State) :
    state ≤ rows.foldl (fold engine) state ∧
      ∀ row ∈ rows, engine.changes row.updateData ≤ rows.foldl (fold engine) state := by
  induction rows generalizing state with
  | nil => simp
  | cons row rows ih =>
    obtain ⟨hstate, hrows⟩ := ih (fold engine state row)
    simp only [foldl_cons, mem_cons]
    refine ⟨le_sup_left.trans hstate, ?_⟩
    rintro other (rfl | hmem)
    · exact le_sup_right.trans hstate
    · exact hrows other hmem

variable [OrderBot State] (engine : MergeEngine Update State)

/-- `mergedState`: the snapshot it read joined with the log rows past it, the highest seq folded
(0 if none) and how many rows. -/
def mergedState (snap : Option (SnapshotRow State))
    (updates : List (UpdateRow Update)) : Fold State :=
  let rows := rowsAfter updates (snapshotSeq snap)
  { since := snapshotSeq snap
    state := rows.foldl (fold engine) (snapshotState snap)
    maxSeq := lastRowSeq rows 0
    folded := rows.length }

/-- One statement of one transaction.  Advisory locks are granted only when no conflicting holder
remains; a waiting transaction has no step. -/
def step (d : Doc Update State) : Action Update → Option (Doc Update State)
  -- another document, or an insert that is rolled back, consumes a seq
  | .allocate => some { d with lastSeq := d.lastSeq + 1 }
  | .beginAppend =>
    if d.exclusiveHeld then none
    else some { d with appends := d.appends ++ [.locked] }
  | .insert i update =>
    match d.appends[i]? with
    | some .locked =>
      some { d with
        lastSeq := d.lastSeq + 1
        appends := d.appends.set i (.inserted ⟨d.lastSeq + 1, update⟩) }
    | _ => none
  | .commitAppend i =>
    match d.appends[i]? with
    | some (.inserted row) =>
      some { d with
        updates := d.updates ++ [row]
        committed := d.committed ++ [row]
        appends := d.appends.set i .finished }
    | _ => none
  | .abortAppend i => some { d with appends := d.appends.set i .finished }
  | .beginCompact => some { d with compactions := d.compactions ++ [.started] }
  | .readSnapshot c =>
    match d.compactions[c]? with
    | some .started =>
      some { d with compactions := d.compactions.set c (.readSnapshot d.snapshot) }
    | _ => none
  | .readLog c =>
    match d.compactions[c]? with
    | some (.readSnapshot snap) =>
      let merged := mergedState engine snap d.updates
      -- maxSeq == 0: nothing newer than the snapshot
      let next := if merged.maxSeq = 0 then .finished else .merged merged
      some { d with compactions := d.compactions.set c next }
    | _ => none
  | .lockCompact c =>
    match d.compactions[c]? with
    | some (.merged f) =>
      if d.sharedHeld || d.exclusiveHeld then none
      else some { d with compactions := d.compactions.set c (.locked f) }
    | _ => none
  | .recount c =>
    match d.compactions[c]? with
    | some (.locked f) =>
      -- a mismatch means a racing append: give up, the next sweep retries
      let next :=
        if (rowsIn d.updates d.floor f.maxSeq).length = f.folded then .recounted f
        else .finished
      some { d with compactions := d.compactions.set c next }
    | _ => none
  | .commitCompact c =>
    match d.compactions[c]? with
    | some (.recounted f) =>
      some { d with
        snapshot := some ⟨f.maxSeq, engine.compact f.state⟩
        updates := d.updates.filter fun row => f.maxSeq < row.seq
        compactions := d.compactions.set c .finished }
    | _ => none
  | .abortCompact c => some { d with compactions := d.compactions.set c .finished }

def Action.commits : Action Update → Bool
  | .commitAppend _ | .commitCompact _ => true
  | _ => false

inductive Moves (d : Doc Update State) (c : Nat) :
    Action Update → Compaction State → Compaction State → Prop where
  | readSnapshot : Moves d c (.readSnapshot c) .started (.readSnapshot d.snapshot)
  | readLog {snap : Option (SnapshotRow State)} :
      (mergedState engine snap d.updates).maxSeq ≠ 0 →
        Moves d c (.readLog c) (.readSnapshot snap) (.merged (mergedState engine snap d.updates))
  | lock {f : Fold State} : d.sharedHeld = false →
      Moves d c (.lockCompact c) (.merged f) (.locked f)
  | recount {f : Fold State} : (rowsIn d.updates d.floor f.maxSeq).length = f.folded →
      Moves d c (.recount c) (.locked f) (.recounted f)

abbrev Doc.appended (d : Doc Update State) (i : Nat) (row : UpdateRow Update) :
    Doc Update State :=
  { d with
    updates := d.updates ++ [row]
    committed := d.committed ++ [row]
    appends := d.appends.set i .finished }

abbrev Doc.compacted (d : Doc Update State) (c : Nat) (f : Fold State) (state : State) :
    Doc Update State :=
  { d with
    snapshot := some ⟨f.maxSeq, state⟩
    updates := d.updates.filter fun row => f.maxSeq < row.seq
    compactions := d.compactions.set c .finished }

/-- What a step does: appends move on without a new row, one inserts or commits its row, or a
compaction begins, moves on, ends or writes. -/
inductive Effect (d : Doc Update State) : Action Update → Doc Update State → Prop where
  | appends {a : Action Update} {lastSeq : Nat} {appends : List (Append Update)} :
      a.commits = false → d.lastSeq ≤ lastSeq →
        (∀ (n : Nat) (row : UpdateRow Update), appends[n]? = some (.inserted row) →
          d.appends[n]? = some (.inserted row)) →
        (appends.any Append.holdsLock = true → d.sharedHeld = true ∨ d.exclusiveHeld = false) →
          Effect d a { d with lastSeq := lastSeq, appends := appends }
  | insert {i : Nat} {update : Update} : d.appends[i]? = some .locked →
      Effect d (.insert i update) { d with
        lastSeq := d.lastSeq + 1
        appends := d.appends.set i (.inserted ⟨d.lastSeq + 1, update⟩) }
  | commitAppend {i : Nat} {row : UpdateRow Update} : d.appends[i]? = some (.inserted row) →
      Effect d (.commitAppend i) { d with
        updates := d.updates ++ [row]
        committed := d.committed ++ [row]
        appends := d.appends.set i .finished }
  | beginCompact : Effect d .beginCompact { d with compactions := d.compactions ++ [.started] }
  | compaction {a : Action Update} {c : Nat} {old next : Compaction State} :
      a.commits = false → d.compactions[c]? = some old → Moves engine d c a old next →
        Effect d a { d with compactions := d.compactions.set c next }
  | finish {a : Action Update} (c : Nat) : a.commits = false →
      Effect d a { d with compactions := d.compactions.set c .finished }
  | commitCompact {c : Nat} {f : Fold State} : d.compactions[c]? = some (.recounted f) →
      Effect d (.commitCompact c) { d with
        snapshot := some ⟨f.maxSeq, engine.compact f.state⟩
        updates := d.updates.filter fun row => f.maxSeq < row.seq
        compactions := d.compactions.set c .finished }

theorem inserted_of_set {appends : List (Append Update)} {i n : Nat}
    (h : (appends.set i .finished)[n]? = some (.inserted row)) :
    appends[n]? = some (.inserted row) := by
  rw [List.getElem?_set] at h
  split at h
  · split at h
    · cases h
    · cases h
  · exact h

theorem effect_abortAppend (d : Doc Update State) (i : Nat) :
    Effect engine d (.abortAppend i) { d with appends := d.appends.set i .finished } := by
  refine .appends rfl le_rfl (fun n row h => inserted_of_set h) fun hlock => .inl ?_
  obtain ⟨append, hmem, hheld⟩ := List.any_eq_true.mp hlock
  rcases mem_or_eq_of_mem_set hmem with hold | rfl
  · exact Doc.sharedHeld_of_mem hold hheld
  · cases hheld

theorem effect_beginAppend {d : Doc Update State} (hfree : d.exclusiveHeld = false) :
    Effect engine d .beginAppend { d with appends := d.appends ++ [.locked] } := by
  refine .appends rfl le_rfl (fun n row h => ?_) fun _ => .inr hfree
  rw [List.getElem?_append] at h
  split at h
  · exact h
  · rw [List.getElem?_singleton] at h
    split at h
    · cases h
    · cases h

theorem step_effect {d e : Doc Update State} {a : Action Update}
    (hstep : step engine d a = some e) : Effect engine d a e := by
  revert hstep
  fun_cases step engine d a <;> rintro ⟨⟩
  · exact .appends rfl (Nat.le_succ _) (fun _ _ h => h) Or.inl
  · rename_i hfree
    exact effect_beginAppend engine (Bool.not_eq_true _ ▸ hfree)
  · rename_i hi
    exact .insert hi
  · rename_i hi
    exact .commitAppend hi
  · exact effect_abortAppend engine d _
  · exact .beginCompact
  · rename_i hc
    exact .compaction rfl hc .readSnapshot
  · rename_i hc _ next
    simp only [next]
    split
    · exact .finish _ rfl
    · rename_i hmax
      exact .compaction rfl hc (.readLog hmax)
  · rename_i hc hfree
    simp only [Bool.or_eq_true, not_or, Bool.not_eq_true] at hfree
    exact .compaction rfl hc (.lock hfree.1)
  · rename_i hc next
    simp only [next]
    split
    · rename_i hcount
      exact .compaction rfl hc (.recount hcount)
    · exact .finish _ rfl
  · rename_i hc
    exact .commitCompact hc
  · exact .finish _ rfl

theorem step_history {d e : Doc Update State} {a : Action Update}
    (hstep : step engine d a = some e) :
    d.lastSeq ≤ e.lastSeq ∧ (∀ row ∈ e.committed, row ∈ d.committed ∨ row ∈ d.inFlight) ∧
        ∀ row ∈ e.inFlight, row ∈ d.inFlight ∨ d.lastSeq < row.seq := by
  cases step_effect engine hstep with
  | appends _ hseq hflight =>
    refine ⟨hseq, fun _ h => .inl h, fun row hrow => .inl ?_⟩
    obtain ⟨n, hn⟩ := mem_iff_getElem?.mp (Doc.mem_inFlight.mp hrow)
    exact Doc.mem_inFlight.mpr (mem_of_getElem? (hflight n row hn))
  | insert =>
    refine ⟨Nat.le_succ _, fun _ h => .inl h, fun row hrow => ?_⟩
    rcases mem_or_eq_of_mem_set (Doc.mem_inFlight.mp hrow) with hold | hnew
    · exact .inl (Doc.mem_inFlight.mpr hold)
    · cases hnew
      exact .inr (Nat.lt_succ_self _)
  | commitAppend hi =>
    refine ⟨le_rfl, fun other hother => ?_, fun other hother => .inl ?_⟩
    · rcases mem_append.mp hother with hold | hnew
      · exact .inl hold
      · rw [mem_singleton.mp hnew]
        exact .inr (Doc.mem_inFlight.mpr (mem_of_getElem? hi))
    · obtain ⟨n, hn⟩ := mem_iff_getElem?.mp (Doc.mem_inFlight.mp hother)
      exact Doc.mem_inFlight.mpr (mem_of_getElem? (inserted_of_set hn))
  | beginCompact | compaction | finish | commitCompact =>
    exact ⟨le_rfl, fun _ h => .inl h, fun _ h => .inl h⟩

end

end Fabriq.Document.Store
