import Fabriq.Document.Materialize

/-!
The document tables of one database that tenants share.  The log, the snapshots and the entity
rows are under row-level security; the bookkeeping table `fabriq_crdt_docs` is not, and like the
snapshots and the entity rows it is keyed by the document id alone.
-/

namespace Fabriq.Document.Tenants

open Document.Store
open Document.Materialize (Projection EntityRow Event)

structure DocsRow where
  docId : String
  tenant : String
  lastSeq : Nat
  lastSeqMaterialized : Nat
  updatedAt : Nat
  flagged : Bool

/-- A row of a table under row-level security. -/
structure Owned (α : Type*) where
  docId : String
  tenant : String
  val : α

structure Database (Update State Vals : Type*) where
  docs : List DocsRow
  updates : List (Owned (UpdateRow Update))
  snapshots : List (Owned (SnapshotRow State))
  entities : List (Owned (EntityRow Vals))
  outbox : List (Owned (Event Vals))
  lastSeq : Nat

/-- The document plane: the merge engine, with the updates it can decode, and what the entity that
a document id names has registered, with the values that its row takes. -/
structure Plane (Update State Vals : Type*) [SemilatticeSup State] where
  engine : MergeEngine Update State
  decodes : Update → Bool
  projection : Projection State Vals
  writes : String → Vals → Bool
  quietWindow : String → Nat
  snapshotEvery : String → Nat

inductive Action (Update : Type*) where
  | applyUpdate (tenant docId : String) (update : Update) (seq now : Nat)
  | compact (tenant docId : String)
  | materializeQuiet (now : Nat)
  | compactDue

variable {α : Type*}

def Owned.is (tenant docId : String) (row : Owned α) : Bool :=
  row.tenant == tenant && row.docId == docId

def visible (rows : List (Owned α)) (tenant docId : String) : List α :=
  (rows.filter (Owned.is tenant docId)).map Owned.val

def put (rows : List (Owned α)) (tenant docId : String) (val : α) : List (Owned α) :=
  (rows.filter fun row => !row.is tenant docId) ++ [⟨docId, tenant, val⟩]

/-- `UPDATE fabriq_crdt_docs SET ... WHERE doc_id = docId`. -/
def updateDocs (docs : List DocsRow) (docId : String) (set : DocsRow → DocsRow) : List DocsRow :=
  docs.map fun row => if row.docId = docId then set row else row

/-- The upsert of `ApplyUpdate`, which leaves the tenant of an existing row. -/
def recordAppend (docs : List DocsRow) (tenant docId : String) (seq now : Nat) : List DocsRow :=
  if docs.any fun row => row.docId == docId then
    updateDocs docs docId fun row =>
      { row with updatedAt := now, lastSeq := max row.lastSeq seq }
  else docs ++ [⟨docId, tenant, seq, 0, now, false⟩]

section

variable {Update State Vals : Type*}

def Database.empty : Database Update State Vals where
  docs := []
  updates := []
  snapshots := []
  entities := []
  outbox := []
  lastSeq := 0

def due (row : DocsRow) : Bool :=
  !row.flagged && row.lastSeqMaterialized < row.lastSeq

/-- The operations that a tenant calls; the sweeps are nobody's. -/
def Action.calledBy (tenant : String) : Action Update → Bool
  | .applyUpdate t _ _ _ _ | .compact t _ => t == tenant
  | .materializeQuiet _ | .compactDue => false

variable [SemilatticeSup State] [OrderBot State] (plane : Plane Update State Vals)

/-- Whether `mergedState` reads the log of the document without an error. -/
def readable (db : Database Update State Vals) (tenant docId : String) : Bool :=
  (rowsAfter (visible db.updates tenant docId)
    (snapshotSeq (visible db.snapshots tenant docId).head?)).all fun row =>
      plane.decodes row.updateData

/-- `mergedState` in a transaction of the tenant. -/
def merged (db : Database Update State Vals) (tenant docId : String) : Fold State :=
  mergedState plane.engine (visible db.snapshots tenant docId).head?
    (visible db.updates tenant docId)

def compactWrite (db : Database Update State Vals) (tenant docId : String) :
    Database Update State Vals :=
  let f := merged plane db tenant docId
  { db with
    snapshots := put db.snapshots tenant docId ⟨f.maxSeq, plane.engine.compact f.state⟩
    updates := db.updates.filter fun row =>
      !(row.is tenant docId && row.val.seq ≤ f.maxSeq) }

/-- `Compact`.  The upsert of the snapshot fails on a row that the policy hides. -/
def compact (db : Database Update State Vals) (tenant docId : String) :
    Option (Database Update State Vals) :=
  if !readable plane db tenant docId then none
  else if (merged plane db tenant docId).maxSeq = 0 then some db
  else if db.snapshots.any fun row => row.docId == docId && row.tenant != tenant then none
  else some (compactWrite plane db tenant docId)

def materializeWrite (db : Database Update State Vals) (row : DocsRow) :
    Database Update State Vals :=
  let f := merged plane db row.tenant row.docId
  let vals := plane.projection.stateValues f.state
  let current := (visible db.entities row.tenant row.docId).head?
  let next := (current.map EntityRow.version).getD 0 + 1
  { db with
    entities := put db.entities row.tenant row.docId ⟨vals, next⟩
    outbox := db.outbox ++ [⟨row.docId, row.tenant, ⟨next, vals⟩⟩]
    docs := updateDocs db.docs row.docId fun r => { r with lastSeqMaterialized := f.maxSeq } }

def flag (db : Database Update State Vals) (docId : String) : Database Update State Vals :=
  { db with docs := updateDocs db.docs docId fun r => { r with flagged := true } }

/-- `materializeOne` for a row of the scan.  A tenant that sees no entity row inserts one, which
fails when the id is taken; values that do not fit the row fail too. -/
def materializeOne (db : Database Update State Vals) (row : DocsRow) :
    Option (Database Update State Vals) :=
  let vals := plane.projection.stateValues (merged plane db row.tenant row.docId).state
  if !readable plane db row.tenant row.docId then none
  else if !plane.projection.accepts vals then some (flag db row.docId)
  else if !plane.writes row.docId vals then none
  else if (visible db.entities row.tenant row.docId).isEmpty &&
      db.entities.any fun e => e.docId == row.docId then none
  else some (materializeWrite plane db row)

/-- The document cannot be materialised as it is. -/
def stuck (db : Database Update State Vals) (row : DocsRow) : Bool :=
  let vals := plane.projection.stateValues (merged plane db row.tenant row.docId).state
  !readable plane db row.tenant row.docId ||
    (plane.projection.accepts vals && !plane.writes row.docId vals)

def quiet (now : Nat) (row : DocsRow) : Bool :=
  decide (row.updatedAt + plane.quietWindow row.docId < now)

/-- The loop of `MaterializeQuiet`, which returns at the first error. -/
def materializeRows (now : Nat) : Database Update State Vals → List DocsRow →
    Database Update State Vals
  | db, [] => db
  | db, row :: rest =>
    if quiet plane now row then
      match materializeOne plane db row with
      | some db' => materializeRows now db' rest
      | none => db
    else materializeRows now db rest

/-- Whether the scan of `CompactDue` finds the document over its budget. -/
def overBudget (db : Database Update State Vals) (row : DocsRow) : Bool :=
  !row.flagged && 0 < plane.snapshotEvery row.docId &&
    plane.snapshotEvery row.docId ≤ (visible db.updates row.tenant row.docId).length

/-- The loop of `CompactDue`, which goes on after an error. -/
def compactRows (db : Database Update State Vals) (rows : List DocsRow) :
    Database Update State Vals :=
  rows.foldl (fun db row => (compact plane db row.tenant row.docId).getD db) db

/-- One call; an error leaves the tables as they are. -/
def step (db : Database Update State Vals) : Action Update → Option (Database Update State Vals)
  | .applyUpdate tenant docId update seq now =>
    -- the identity column gives out increasing values, with gaps
    if db.lastSeq < seq then
      some { db with
        updates := db.updates ++ [⟨docId, tenant, ⟨seq, update⟩⟩]
        docs := recordAppend db.docs tenant docId seq now
        lastSeq := seq }
    else none
  | .compact tenant docId => some ((compact plane db tenant docId).getD db)
  | .materializeQuiet now => some (materializeRows plane now db (db.docs.filter due))
  | .compactDue => some (compactRows plane db (db.docs.filter (overBudget plane db)))

end

variable {Update State Vals : Type*}

/-- What a tenant observes of its document: what `Sync` reads, so also whether it
is compacted, and its materialisations. -/
structure Observed (Update State Vals : Type*) where
  updates : List (UpdateRow Update)
  snapshot : Option (SnapshotRow State)
  entity : Option (EntityRow Vals)
  events : List (Event Vals)

def observe (db : Database Update State Vals) (tenant docId : String) :
    Observed Update State Vals where
  updates := visible db.updates tenant docId
  snapshot := (visible db.snapshots tenant docId).head?
  entity := (visible db.entities tenant docId).head?
  events := visible db.outbox tenant docId

/-- A tenant updates its own documents, and no document of `b` stops a sweep. -/
def Undisturbed [SemilatticeSup State] [OrderBot State] (plane : Plane Update State Vals)
    (b : String) (db : Database Update State Vals) : Action Update → Prop
  | .applyUpdate tenant docId _ _ _ => ∀ row ∈ db.docs, row.docId = docId → row.tenant = tenant
  | .materializeQuiet now => ∀ row ∈ db.docs, due row = true → quiet plane now row = true →
      row.tenant = b → stuck plane db row = false
  | .compact _ _ | .compactDue => True

instance [SemilatticeSup State] [OrderBot State] {plane : Plane Update State Vals} {b : String}
    {db : Database Update State Vals} : (a : Action Update) → Decidable (Undisturbed plane b db a)
  | .applyUpdate tenant docId _ _ _ =>
    inferInstanceAs (Decidable (∀ row ∈ db.docs, row.docId = docId → row.tenant = tenant))
  | .materializeQuiet now =>
    inferInstanceAs (Decidable (∀ row ∈ db.docs, due row = true → quiet plane now row = true →
      row.tenant = b → stuck plane db row = false))
  | .compact _ _ | .compactDue => isTrue trivial

end Fabriq.Document.Tenants
