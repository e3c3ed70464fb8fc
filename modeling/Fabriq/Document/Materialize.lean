import Fabriq.Document.Store

/-!
`MaterializeQuiet` beside the appends and compactions of one document.  The bookkeeping row keeps
the last committed seq, written by the appends, and the last materialised one, written with the
entity row and the event.
-/

namespace Fabriq.Document.Materialize

open Document.Store Option

/-- `stateValues`, and whether the type check of `CoerceRow` and the validation
hook let the values pass. -/
structure Projection (State Vals : Type*) where
  stateValues : State → Vals
  accepts : Vals → Bool

structure EntityRow (Vals : Type*) where
  vals : Vals
  version : Nat

structure Event (Vals : Type*) where
  version : Nat
  payload : Vals

/-- What one `MaterializeQuiet` does for the document: the scan, the two statements of
`mergedState`, and the writing transaction. -/
inductive Pass (State : Type*) where
  | scanned
  | readSnapshot (snap : Option (SnapshotRow State))
  | merged (fold : Fold State)
  | locked (fold : Fold State)
  | recounted (fold : Fold State)
  | finished

def Pass.busy {State : Type*} : Pass State → Bool
  | .finished => false
  | _ => true

def Pass.holdsLock {State : Type*} : Pass State → Bool
  | .locked _ | .recounted _ => true
  | _ => false

/-- The document, its row of `fabriq_crdt_docs` (all zero while there is none),
its entity row and its events. -/
structure World (Update State Vals : Type*) where
  doc : Doc Update State
  lastSeq : Nat
  lastSeqMaterialized : Nat
  flagged : Bool
  entity : Option (EntityRow Vals)
  events : List (Event Vals)
  passes : List (Pass State)

inductive Action (Update : Type*) where
  | doc (a : Store.Action Update)
  | scan
  | readSnapshot (i : Nat)
  | readLog (i : Nat)
  | flag (i : Nat)
  | lock (i : Nat)
  | recount (i : Nat)
  | commit (i : Nat)
  | abandon (i : Nat)

section

variable {Update State Vals : Type*}

def World.empty : World Update State Vals where
  doc := Doc.empty
  lastSeq := 0
  lastSeqMaterialized := 0
  flagged := false
  entity := none
  events := []
  passes := []

def World.setPass (w : World Update State Vals) (i : Nat) (next : Pass State) :
    World Update State Vals :=
  { w with passes := w.passes.set i next }

def World.passLocked (w : World Update State Vals) : Bool :=
  w.passes.any Pass.holdsLock

/-- `CurrentVersion`, which is 0 without a row. -/
def World.currentVersion (w : World Update State Vals) : Nat :=
  (w.entity.map EntityRow.version).getD 0

def waitsForLock : Store.Action Update → Bool
  | .beginAppend | .lockCompact _ => true
  | _ => false

/-- `last_seq = GREATEST(last_seq, EXCLUDED.last_seq)`, visible when the append
commits. -/
def lastSeqAfter (w : World Update State Vals) : Store.Action Update → Nat
  | .commitAppend i =>
    match w.doc.appends[i]? with
    | some (.inserted row) => max w.lastSeq row.seq
    | _ => w.lastSeq
  | _ => w.lastSeq

variable {a : Store.Action Update} {w : World Update State Vals}

theorem lastSeqAfter_other (ha : ∀ i, a ≠ .commitAppend i) : lastSeqAfter w a = w.lastSeq := by
  cases a with
  | commitAppend i => exact absurd rfl (ha i)
  | _ => rfl

def appends : Action Update → Bool
  | .doc (.commitAppend _) => true
  | _ => false

theorem lastSeq_doc (hquiet : appends (.doc a) = false) : lastSeqAfter w a = w.lastSeq := by
  apply lastSeqAfter_other
  rintro i rfl
  cases hquiet

variable [SemilatticeSup State] [OrderBot State] (engine : MergeEngine Update State)
  (proj : Projection State Vals)

/-- One statement of one transaction, as in `Store.step`. -/
def step (w : World Update State Vals) : Action Update → Option (World Update State Vals)
  | .doc a =>
    if waitsForLock a && w.passLocked then none
    else (Store.step engine w.doc a).map fun d =>
      { w with doc := d, lastSeq := lastSeqAfter w a }
  -- how long the document has been quiet is up to the run
  | .scan =>
    if !w.flagged && w.lastSeqMaterialized < w.lastSeq then
      some { w with passes := w.passes ++ [.scanned] }
    else none
  | .readSnapshot i =>
    match w.passes[i]? with
    | some .scanned => some (w.setPass i (.readSnapshot w.doc.snapshot))
    | _ => none
  | .readLog i =>
    match w.passes[i]? with
    | some (.readSnapshot snap) =>
      some (w.setPass i (.merged (mergedState engine snap w.doc.updates)))
    | _ => none
  | .flag i =>
    match w.passes[i]? with
    | some (.merged f) =>
      if proj.accepts (proj.stateValues f.state) then none
      else some { w.setPass i .finished with flagged := true }
    | _ => none
  | .lock i =>
    match w.passes[i]? with
    | some (.merged f) =>
      if proj.accepts (proj.stateValues f.state) &&
          !(w.doc.sharedHeld || w.doc.exclusiveHeld || w.passLocked) then
        some (w.setPass i (.locked f))
      else none
    | _ => none
  | .recount i =>
    match w.passes[i]? with
    | some (.locked f) =>
      -- a mismatch is `errMaterializeRace`: the next tick tries again
      some (w.setPass i
        (if (rowsIn w.doc.updates w.doc.floor f.maxSeq).length = f.folded then
          .recounted f else .finished))
    | _ => none
  | .commit i =>
    match w.passes[i]? with
    | some (.recounted f) =>
      let next := w.currentVersion + 1
      let vals := proj.stateValues f.state
      some { w.setPass i .finished with
        entity := some ⟨vals, next⟩
        events := w.events ++ [⟨next, vals⟩]
        lastSeqMaterialized := f.maxSeq }
    | _ => none
  | .abandon i =>
    match w.passes[i]? with
    | some _ => some (w.setPass i .finished)
    | none => none

inductive Moves (w : World Update State Vals) : Pass State → Pass State → Prop where
  | readSnapshot : Moves w .scanned (.readSnapshot w.doc.snapshot)
  | readLog (snap : Option (SnapshotRow State)) :
      Moves w (.readSnapshot snap) (.merged (mergedState engine snap w.doc.updates))
  | lock (f : Fold State) : Moves w (.merged f) (.locked f)
  | recount (f : Fold State) : Moves w (.locked f) (.recounted f)
  | finish (pass : Pass State) : Moves w pass .finished

/-- What a step does: the document moves on, a scan starts a pass, one pass
moves on, or one pass writes. -/
inductive Effect (w : World Update State Vals) : Action Update → World Update State Vals → Prop where
  | doc {a : Store.Action Update} {d : Doc Update State} :
      Store.step engine w.doc a = some d →
        Effect w (.doc a) { w with doc := d, lastSeq := lastSeqAfter w a }
  | scan : w.lastSeqMaterialized < w.lastSeq →
      Effect w .scan { w with passes := w.passes ++ [.scanned] }
  | pass {a : Action Update} {i : Nat} {old next : Pass State} {flagged : Bool} :
      w.passes[i]? = some old → Moves engine w old next →
        Effect w a { w.setPass i next with flagged := flagged }
  | commit {i : Nat} {f : Fold State} : w.passes[i]? = some (.recounted f) →
      Effect w (.commit i) { w.setPass i .finished with
        entity := some ⟨proj.stateValues f.state, w.currentVersion + 1⟩
        events := w.events ++ [⟨w.currentVersion + 1, proj.stateValues f.state⟩]
        lastSeqMaterialized := f.maxSeq }

theorem step_effect {w' : World Update State Vals} {a : Action Update}
    (hstep : step engine proj w a = some w') : Effect engine proj w a w' := by
  revert hstep
  fun_cases step engine proj w a <;> intro hstep <;> try cases hstep
  · obtain ⟨d, hd, rfl⟩ := map_eq_some_iff.mp hstep
    exact .doc hd
  · rename_i hdue
    simp only [Bool.and_eq_true, decide_eq_true_eq] at hdue
    exact .scan hdue.2
  · rename_i hi
    exact .pass hi .readSnapshot
  · rename_i hi
    exact .pass hi (.readLog _)
  · rename_i hi _
    exact .pass hi (.finish _)
  · rename_i hi _
    exact .pass hi (.lock _)
  · rename_i hi
    split
    · exact .pass hi (.recount _)
    · exact .pass hi (.finish _)
  · rename_i hi _ _
    exact .commit hi
  · rename_i hi
    exact .pass hi (.finish _)

variable {engine} in
theorem Moves.busy {old next : Pass State}
    (h : Moves engine w old next) (hbusy : next.busy) : old.busy := by
  cases h with
  | finish => cases hbusy
  | _ => rfl

end

end Fabriq.Document.Materialize
