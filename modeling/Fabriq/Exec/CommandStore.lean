import Fabriq.Lib.Assoc
import Fabriq.Lib.Result
import Fabriq.Core.Schema

namespace Fabriq.Exec.CommandStore

open Core.Schema Core.Value Lib Lib.Assoc Lib.Result List

inductive Op
  | create
  | update
  | delete
  | upsert
  deriving DecidableEq, Repr

structure Command where
  entity : String
  op : Op
  aggId : String
  payload : Option Fields
  expectedVersion : Option Int := none

structure Caller where
  tenant : String
  scope : String := ""

inductive Error
  | unknownEntity (entity : String)
  | notAggregate (entity : String)
  | requiresAggId (op : Op)
  | deletePayload
  | requiresPayload (op : Op)
  | foreignTenant (tenant : String)
  | requiredMissing (entity column : String)
  | requiredEmpty (entity column : String)
  | invalid (entity : String)
  | erased
  | versionConflict (entity aggId : String) (expected actual : Int)
  | notFound (entity aggId : String)
  | duplicateRow (entity aggId : String)
  | duplicateEvent (entity aggId : String) (version : Int)

/-- The command plane: the registry, and the type coercion and validation of payloads. -/
structure Executor where
  reg : Registry
  coerce : Entity → Fields → Option Fields

structure Prepared where
  op : Op
  expectedVersion : Option Int
  entity : Entity
  tenantId : String
  scopeId : String
  aggId : String
  vals : Option Fields

def validateRequired (entity : Entity) (vals : Fields) : List String → Except Error Unit
  | [] => .ok ()
  | column :: rest =>
    match vals.lookup column with
    | none | some .null => .error (.requiredMissing entity.name column)
    | some (.str "") => .error (.requiredEmpty entity.name column)
    | some _ => validateRequired entity vals rest

/-- `ValuesByColumn`: a struct has a field for every column, and of a map what is no
column of the entity is dropped. -/
def valuesByColumn (entity : Entity) (payload : Fields) : Fields :=
  if entity.dynamic then payload.filter fun field => entity.hasColumn field.1
  else entity.columns.map fun column =>
    (column, (payload.lookup column).getD (entity.columnDefault column))

def prepareVals (x : Executor) (caller : Caller) (entity : Entity) (payload : Fields) :
    Except Error Fields :=
  let vals := valuesByColumn entity payload
  let tenant := stringProp vals columnTenant
  if tenant ≠ "" ∧ tenant ≠ caller.tenant then .error (.foreignTenant tenant)
  else
    match validateRequired entity vals entity.required, x.coerce entity vals with
    | .error e, _ => .error e
    | .ok (), none => .error (.invalid entity.name)
    | .ok (), some coerced => .ok coerced

def lookupEntity (x : Executor) (name : String) : Except Error Entity :=
  match x.reg.get name with
  | none => .error (.unknownEntity name)
  | some entity => if entity.isAggregate then .ok entity else .error (.notAggregate name)

/-- A create that names no id gets the minted one. -/
def aggregateId (newId : String) (cmd : Command) : Except Error String :=
  match cmd.op with
  | .create => .ok (if cmd.aggId = "" then newId else cmd.aggId)
  | op => if cmd.aggId = "" then .error (.requiresAggId op) else .ok cmd.aggId

def payloadValues (x : Executor) (caller : Caller) (entity : Entity) (cmd : Command) :
    Except Error (Option Fields) :=
  match cmd.op, cmd.payload with
  | .delete, none => .ok none
  | .delete, some _ => .error .deletePayload
  | op, none => .error (.requiresPayload op)
  | _, some payload => (prepareVals x caller entity payload).map some

def prepare (x : Executor) (caller : Caller) (newId : String) (cmd : Command) :
    Except Error Prepared := do
  let entity ← lookupEntity x cmd.entity
  let aggId ← aggregateId newId cmd
  let vals ← payloadValues x caller entity cmd
  return {
    op := cmd.op
    expectedVersion := cmd.expectedVersion
    entity := entity
    tenantId := caller.tenant
    scopeId := caller.scope
    aggId := aggId
    vals := vals }

def Prepared.stampedValues (p : Prepared) (version : Int) : Option Fields :=
  p.vals.map fun vals =>
    let stamped := put (put (put vals columnId (.str p.aggId))
      columnTenant (.str p.tenantId)) columnVersion (.num version)
    if p.scopeId ≠ "" ∧ p.entity.hasColumn columnScope then
      put stamped columnScope (.str p.scopeId)
    else stamped

/-- A row of an entity's table; a null scope is the empty one. -/
structure StoredRow where
  entity : String
  id : String
  tenant : String
  scope : String
  version : Int
  vals : Fields

structure OutboxRow where
  tenantId : String
  aggregate : String
  aggId : String
  version : Int
  verb : Verb
  payload : Fields

/-- The tables of the command store; `tombstones` are the erased identities. -/
structure Db where
  rows : List StoredRow
  outbox : List OutboxRow
  tombstones : List (String × String × String)

def Db.empty : Db :=
  ⟨[], [], []⟩

/-- The row-level policy: a scoped caller sees its scope and the shared rows. -/
def StoredRow.visibleTo (r : StoredRow) (tenant scope : String) : Bool :=
  r.tenant == tenant && (scope == "" || r.scope == "" || r.scope == scope)

def Prepared.addresses (p : Prepared) (r : StoredRow) : Bool :=
  r.entity == p.entity.name && r.id == p.aggId && r.visibleTo p.tenantId p.scopeId

def currentVersion (db : Db) (p : Prepared) : Int :=
  match db.rows.find? p.addresses with
  | some r => r.version
  | none => 0

def checkVersion (p : Prepared) (current : Int) : Except Error Unit := do
  match p.op with
  | .create =>
    if current ≠ 0 then throw (.versionConflict p.entity.name p.aggId 0 current)
  | .update | .delete =>
    if current = 0 then throw (.notFound p.entity.name p.aggId)
  | .upsert => pure ()
  match p.expectedVersion with
  | some expected =>
    if expected ≠ current then
      throw (.versionConflict p.entity.name p.aggId expected current)
  | none => pure ()

def resolveOp (op : Op) (current : Int) : Op × Verb :=
  match op with
  | .upsert => if current = 0 then (.create, .created) else (.update, .updated)
  | .create => (.create, .created)
  | .update => (.update, .updated)
  | .delete => (.delete, .deleted)

def Prepared.row (p : Prepared) (version : Int) (vals : Fields) : StoredRow where
  entity := p.entity.name
  id := p.aggId
  tenant := p.tenantId
  scope := if p.entity.hasColumn columnScope then stringProp vals columnScope else ""
  version := version
  vals := vals

/-- A row of the entity's table: what is stored of the columns that `sets` has of the written
row, and `base` in the others. -/
def tableRow (entity : Entity) (base : String → Json) (written sets : Fields) : Fields :=
  entity.columns.map fun column =>
    (column, ((sets.lookup column).map (entity.stored written column)).getD (base column))

/-- `dynInsert`, and the insert of a populated struct. -/
def Prepared.inserted (p : Prepared) (vals : Fields) : Fields :=
  tableRow p.entity p.entity.columnDefault vals vals

/-- The update of a row.  `dynUpdate` sets the columns of `vals` other than the id; the update
from a populated struct sets all of them. -/
def Prepared.updated (p : Prepared) (r : StoredRow) (vals : Fields) : Fields :=
  if p.entity.dynamic then
    tableRow p.entity (fun column => (r.vals.lookup column).getD .null) vals
      (Assoc.drop vals columnId)
  else tableRow p.entity p.entity.columnDefault vals vals

/-- `ApplyChange`.  The primary key of an entity's table is the id alone. -/
def applyChange (db : Db) (p : Prepared) (op : Op) (version : Int) (vals : Option Fields) :
    Except Error Db :=
  match op with
  | .delete => .ok { db with rows := db.rows.filter fun r => !p.addresses r }
  | .create =>
    if db.rows.any fun r => r.entity == p.entity.name && r.id == p.aggId then
      .error (.duplicateRow p.entity.name p.aggId)
    else .ok { db with rows := db.rows ++ [p.row version (p.inserted (vals.getD []))] }
  | .update | .upsert =>
    .ok { db with
      rows := db.rows.map fun r =>
        if p.addresses r then p.row version (p.updated r (vals.getD [])) else r }

def newEnvelope (p : Prepared) (version : Int) (vals : Option Fields) (verb : Verb) : Envelope where
  tenantId := p.tenantId
  scopeId := p.scopeId
  aggregate := p.entity.name
  aggId := p.aggId
  version := version
  verb := verb
  payload := vals.getD []

/-- The columns `AppendOutbox` inserts. -/
def outboxRow (env : Envelope) : OutboxRow :=
  ⟨env.tenantId, env.aggregate, env.aggId, env.version, env.verb, env.payload⟩

def OutboxRow.isVersion (row : OutboxRow) (tenant aggregate aggId : String) (version : Int) :
    Bool :=
  row.tenantId == tenant && row.aggregate == aggregate && row.aggId == aggId &&
    row.version == version

/-- `AppendOutbox` under the constraint `one_event_per_version`. -/
def appendOutbox (db : Db) (env : Envelope) : Except Error Db :=
  if db.outbox.any fun row =>
      row.isVersion env.tenantId env.aggregate env.aggId env.version then
    .error (.duplicateEvent env.aggregate env.aggId env.version)
  else .ok { db with outbox := db.outbox ++ [outboxRow env] }

/-- One prepared command inside the transaction, with its change for the hooks that run
after the commit. -/
def apply (db : Db) (p : Prepared) : Except Error (Db × Envelope) := do
  if db.tombstones.contains (p.tenantId, p.entity.name, p.aggId) then throw .erased
  let current := currentVersion db p
  checkVersion p current
  let next := current + 1
  let (op, verb) := resolveOp p.op current
  let vals := p.stampedValues next
  let written ← applyChange db p op next vals
  let env := newEnvelope p next vals verb
  let after ← appendOutbox written env
  return (after, env)

structure Request where
  caller : Caller
  newId : String
  cmd : Command

def Request.prepare (x : Executor) (r : Request) : Except Error Prepared :=
  CommandStore.prepare x r.caller r.newId r.cmd

structure Plane where
  db : Db
  changes : List Envelope

def Plane.empty : Plane :=
  ⟨.empty, []⟩

def applyNext (s : Plane) (p : Prepared) : Except Error Plane := do
  let (db, env) ← apply s.db p
  return ⟨db, s.changes ++ [env]⟩

/-- `ExecBatch`: all commands are prepared first, and none is applied unless all are. -/
def execBatch (x : Executor) (s : Plane) (batch : List Request) : Except Error Plane := do
  let prepared ← batch.mapM (Request.prepare x)
  prepared.foldlM applyNext s

/-- A batch that fails is rolled back. -/
def commit (x : Executor) (s : Plane) (batch : List Request) : Plane :=
  match execBatch x s batch with
  | .ok after => after
  | .error _ => s

def runBatches (x : Executor) (batches : List (List Request)) : Plane :=
  batches.foldl (commit x) .empty

variable {db after : Db} {p : Prepared} {x : Executor} {entity : Entity} {env : Envelope}

theorem lookupEntity_eq_ok {name : String}
    (h : lookupEntity x name = .ok entity) : x.reg.get name = some entity := by
  revert h
  fun_cases lookupEntity x name <;> rintro ⟨⟩
  assumption

theorem op_of_payloadValues {caller : Caller} {cmd : Command}
    (h : payloadValues x caller entity cmd = .ok none) : cmd.op = .delete := by
  unfold payloadValues at h
  split at h
  · assumption
  · simp at h
  · simp at h
  · rename_i payload _ _
    cases hvals : prepareVals x caller entity payload <;> simp [hvals, Except.map] at h

theorem prepare_eq_ok {r : Request} (h : r.prepare x = .ok p) :
    x.reg.get r.cmd.entity = some p.entity ∧ p.scopeId = r.caller.scope ∧
      (p.vals = none → p.op = .delete) := by
  obtain ⟨entity, hentity, h⟩ := bind_eq_ok.mp h
  obtain ⟨aggId, -, h⟩ := bind_eq_ok.mp h
  obtain ⟨vals, hvals, h⟩ := bind_eq_ok.mp h
  cases h
  refine ⟨lookupEntity_eq_ok hentity, rfl, ?_⟩
  rintro rfl
  exact op_of_payloadValues hvals

def change (db : Db) (p : Prepared) : Envelope :=
  newEnvelope p (currentVersion db p + 1) (p.stampedValues (currentVersion db p + 1))
    (resolveOp p.op (currentVersion db p)).2

def Prepared.values (p : Prepared) (version : Int) : Fields :=
  (p.stampedValues version).getD []

/-- What a command that succeeds makes of the rows. -/
inductive Rewrites (db : Db) (p : Prepared) : Verb → List StoredRow → Prop
  | created (hzero : currentVersion db p = 0)
      (habsent : ∀ r ∈ db.rows, ¬ (r.entity = p.entity.name ∧ r.id = p.aggId)) :
      Rewrites db p .created (db.rows ++ [p.row 1 (p.inserted (p.values 1))])
  | updated (hrow : currentVersion db p ≠ 0) :
      Rewrites db p .updated (db.rows.map fun r =>
        if p.addresses r then
          p.row (currentVersion db p + 1) (p.updated r (p.values (currentVersion db p + 1)))
        else r)
  | deleted (hrow : currentVersion db p ≠ 0) :
      Rewrites db p .deleted (db.rows.filter fun r => !p.addresses r)

theorem Rewrites.mem {verb : Verb} {rows : List StoredRow} {r : StoredRow}
    (h : Rewrites db p verb rows) (hr : r ∈ rows) :
    r ∈ db.rows ∨ ∃ vals, r = p.row (currentVersion db p + 1) vals := by
  cases h with
  | created hzero =>
    refine (mem_append.mp hr).imp_right fun hr => ⟨p.inserted (p.values 1), ?_⟩
    rw [hzero]
    exact mem_singleton.mp hr
  | updated =>
    obtain ⟨s, hs, rfl⟩ := mem_map.mp hr
    split_ifs
    · exact .inr ⟨_, rfl⟩
    · exact .inl hs
  | deleted => exact .inl (mem_of_mem_filter hr)

theorem checkVersion_eq_ok {current : Int} (h : checkVersion p current = .ok ()) :
    (p.op = .create → current = 0) ∧ (p.op = .update ∨ p.op = .delete → current ≠ 0) := by
  constructor
  · intro hop
    by_contra hne
    simp [checkVersion, hop, hne, throw, throwThe, MonadExceptOf.throw, bind, Except.bind] at h
  · rintro hop rfl
    rcases hop with hop | hop <;>
      simp [checkVersion, hop, throw, throwThe, MonadExceptOf.throw, bind, Except.bind] at h

theorem applyChange_eq_ok {written : Db} (hcheck : checkVersion p (currentVersion db p) = .ok ())
    (h : applyChange db p (resolveOp p.op (currentVersion db p)).1 (currentVersion db p + 1)
      (p.stampedValues (currentVersion db p + 1)) = .ok written) :
    ∃ rows, Rewrites db p (resolveOp p.op (currentVersion db p)).2 rows ∧
      written = { db with rows := rows } := by
  obtain ⟨hcreate, hstored⟩ := checkVersion_eq_ok hcheck
  -- An insert fails on a row of the same id, whoever may see it.
  have hinsert : currentVersion db p = 0 → applyChange db p .create (currentVersion db p + 1)
        (p.stampedValues (currentVersion db p + 1)) = .ok written →
      ∃ rows, Rewrites db p .created rows ∧ written = { db with rows := rows } := by
    intro hzero h
    simp only [hzero, zero_add, applyChange] at h
    split_ifs at h with hany
    refine ⟨_, .created hzero fun r hr hsame => ?_, (Except.ok.inj h).symm⟩
    exact hany (any_eq_true.mpr ⟨r, hr, by simp [hsame]⟩)
  cases hop : p.op with
  | create =>
    rw [hop] at h
    exact hinsert (hcreate hop) h
  | update =>
    rw [hop] at h
    exact ⟨_, .updated (hstored (.inl hop)), (Except.ok.inj h).symm⟩
  | delete =>
    rw [hop] at h
    exact ⟨_, .deleted (hstored (.inr hop)), (Except.ok.inj h).symm⟩
  | upsert =>
    rw [hop] at h
    by_cases hzero : currentVersion db p = 0
    · rw [resolveOp, if_pos hzero] at h ⊢
      exact hinsert hzero h
    · rw [resolveOp, if_neg hzero] at h ⊢
      exact ⟨_, .updated hzero, (Except.ok.inj h).symm⟩

theorem appendOutbox_eq_ok (h : appendOutbox db env = .ok after) :
    after = { db with outbox := db.outbox ++ [outboxRow env] } ∧
      ∀ row ∈ db.outbox, row.isVersion env.tenantId env.aggregate env.aggId env.version = false := by
  unfold appendOutbox at h
  split_ifs at h with hany
  refine ⟨(Except.ok.inj h).symm, fun row hrow => ?_⟩
  rw [Bool.not_eq_true, any_eq_false] at hany
  simpa using hany row hrow

structure Applied (db : Db) (p : Prepared) (after : Db) (env : Envelope) : Prop where
  unfenced : (p.tenantId, p.entity.name, p.aggId) ∉ db.tombstones
  env_eq : env = change db p
  tombstones : after.tombstones = db.tombstones
  outbox : after.outbox = db.outbox ++ [outboxRow env]
  fresh : ∀ row ∈ db.outbox,
    row.isVersion p.tenantId p.entity.name p.aggId (currentVersion db p + 1) = false
  rows : Rewrites db p env.verb after.rows

theorem apply_eq_ok (h : apply db p = .ok (after, env)) : Applied db p after env := by
  unfold apply at h
  split at h
  · simp [throw, throwThe, MonadExceptOf.throw, bind, Except.bind] at h
  · rename_i hfence
    obtain ⟨⟨⟩, hcheck, hwrite⟩ := bind_eq_ok.mp h
    obtain ⟨written, hwritten, hevent⟩ := bind_eq_ok.mp hwrite
    obtain ⟨final, happend, hfinal⟩ := bind_eq_ok.mp hevent
    obtain ⟨rows, hrows, rfl⟩ := applyChange_eq_ok hcheck hwritten
    obtain ⟨rfl, rfl⟩ := Prod.mk.inj (Except.ok.inj hfinal)
    obtain ⟨rfl, hfresh⟩ := appendOutbox_eq_ok happend
    exact ⟨by simpa using hfence, rfl, rfl, rfl, hfresh, hrows⟩

theorem applyNext_eq_ok {s t : Plane} (h : applyNext s p = .ok t) :
    ∃ env, apply s.db p = .ok (t.db, env) ∧ t.changes = s.changes ++ [env] := by
  obtain ⟨⟨db, env⟩, happly, h⟩ := bind_eq_ok.mp h
  cases h
  exact ⟨env, happly, rfl⟩

theorem runBatches_invariant {P : Plane → Prop} {batches : List (List Request)} (hempty : P .empty)
    (hstep : ∀ s p t, (∃ batch ∈ batches, ∃ r ∈ batch, r.prepare x = .ok p) → P s →
      applyNext s p = .ok t → P t) : P (runBatches x batches) := by
  suffices hall : ∀ rest : List (List Request), (∀ batch ∈ rest, batch ∈ batches) →
      ∀ s, P s → P (rest.foldl _ s) from hall batches (fun _ h => h) .empty hempty
  intro rest
  induction rest with
  | nil => exact fun _ _ h => h
  | cons batch rest ih =>
    intro hsub s h
    refine ih (fun b hb => hsub b (mem_cons_of_mem _ hb)) _ ?_
    unfold commit
    split
    · rename_i after hrun
      obtain ⟨prepared, hprep, hfold⟩ := bind_eq_ok.mp hrun
      refine foldlM_invariant (fun s p t hp => ?_) h hfold
      obtain ⟨r, hr, hrp⟩ := exists_of_mapM hprep hp
      exact hstep s p t ⟨batch, hsub batch mem_cons_self, r, hr, hrp⟩
    · exact h

end Fabriq.Exec.CommandStore
