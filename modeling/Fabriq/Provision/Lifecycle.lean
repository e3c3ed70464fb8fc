import Fabriq.Lib.Assoc
import Fabriq.Lib.Machine

/-!
The tenant catalog and the calls that drive a tenant's entry through its states: provisioning in
both isolation modes, suspend, resume and the fleet roller.  A call is a job of single catalog
requests and physical operations, so that jobs of any number of operators may interleave at each
of them and a process may end between any two.
-/

namespace Fabriq.Provision.Lifecycle

open Lib

inductive State
  | pending
  | creating
  | migrating
  | active
  | suspended
  | failed
deriving DecidableEq

structure Entry where
  tenantId : String
  clusterId : String
  database : String
  state : State
  version : String
  schema : String
deriving DecidableEq

def schemaChar (c : Char) : Bool :=
  c.isLower || c.isDigit || c == '_'

def validSchema (s : String) : Bool :=
  let rest := s.toList.drop 7
  s.toList.take 7 == "tenant_".toList && rest.all schemaChar && 1 ≤ rest.length &&
    rest.length ≤ 54

def schemaForTenant (tenantId : String) : Option String :=
  let s := "tenant_" ++ String.ofList (tenantId.toList.map fun c => if c = '-' then '_' else c)
  if validSchema s then some s else none

def validateEntry (e : Entry) : Bool :=
  e.tenantId != "" && e.clusterId != "" && e.database != "" &&
    (e.schema == "" || validSchema e.schema)

/-- The rows by tenant, each with its `UpdatedAt`.  The store stamps a fresh one on every
write: `clock` is the last. -/
structure Catalog where
  rows : List (String × Nat × Entry)
  clock : Nat
deriving DecidableEq

namespace Catalog

def get (cat : Catalog) (tenantId : String) : Option (Nat × Entry) :=
  cat.rows.lookup tenantId

/-- `Put`, which creates when it is given no stamp; `none` is a conflict or an entry that is
not valid. -/
def put (cat : Catalog) (stamp : Option Nat) (e : Entry) : Option Catalog :=
  if validateEntry e ∧ (cat.get e.tenantId).map Prod.fst = stamp then
    some ⟨Assoc.put cat.rows e.tenantId (cat.clock + 1, e), cat.clock + 1⟩
  else none

end Catalog

structure Location where
  clusterId : String
  database : String
  schema : String
deriving DecidableEq

def Entry.location (e : Entry) : Location :=
  ⟨e.clusterId, e.database, e.schema⟩

/-- `Provisioner` works on databases and `SchemaProvisioner` on schemas. -/
inductive Mode
  | database
  | schema
deriving DecidableEq

def Entry.mode (e : Entry) : Mode :=
  if e.schema = "" then .database else .schema

def Mode.location : Mode → Entry → Location
  | .database, e => ⟨e.clusterId, e.database, ""⟩
  | .schema, e => e.location

/-- The arguments of `Provision`; the database is one of the schema mode. -/
structure Request where
  mode : Mode
  tenantId : String
  clusterId : String
  database : String
deriving DecidableEq

/-- The entry that `Provision` creates, unless its arguments are refused. -/
def Request.entry (r : Request) : Option Entry :=
  match r.mode with
  | .database =>
    if r.tenantId = "" ∨ r.clusterId = "" then none
    else some ⟨r.tenantId, r.clusterId, "fabriq_" ++ r.tenantId, .pending, "", ""⟩
  | .schema =>
    if r.tenantId = "" ∨ r.clusterId = "" ∨ r.database = "" then none
    else (schemaForTenant r.tenantId).map fun schema =>
      ⟨r.tenantId, r.clusterId, r.database, .pending, "", schema⟩

def Request.placedAs (r : Request) (e : Entry) : Bool :=
  e.clusterId == r.clusterId && (r.mode == .database || e.database == r.database)

/-- A call, by what it does next, with the entry and the stamp it holds. -/
inductive Job
  | provision (r : Request)
  | insert (mode : Mode) (e : Entry)
  | enter (mode : Mode) (stamp : Nat) (e : Entry)
  | bootstrap (mode : Mode) (stamp : Nat) (e : Entry)
  | create (mode : Mode) (stamp : Nat) (e : Entry)
  | created (mode : Mode) (stamp : Nat) (e : Entry)
  | migrate (mode : Mode) (stamp : Nat) (e : Entry)
  | activate (stamp : Nat) (e : Entry)
  | fail (stamp : Nat) (e : Entry)
  | suspend (tenantId : String)
  | suspendEntry (stamp : Nat) (e : Entry)
  | resume (tenantId : String)
  | resumeEntry (stamp : Nat) (e : Entry)
  /-- One tenant of a `MigrateAll`, listed with its page. -/
  | roll (mode : Mode) (tenantId targetVersion : String)
  | rollMigrate (mode : Mode) (stamp : Nat) (e : Entry)
  | rollRecord (stamp : Nat) (e : Entry)
  | done
deriving DecidableEq

structure World where
  catalog : Catalog
  created : List Location
  migrated : List Location
  jobs : List Job
deriving DecidableEq

def start : World :=
  ⟨⟨[], 0⟩, [], [], []⟩

/-- `transitionEntry` and the job that goes on with the entry it returns. -/
def transition (w : World) (stamp : Option Nat) (e : Entry) (next : Nat → Entry → Job) :
    World × Job :=
  match w.catalog.put stamp e with
  | some cat => ({ w with catalog := cat }, next cat.clock e)
  | none => (w, .done)

/-- The entry that `Provision` has found, unless it is placed elsewhere, active or
suspended. -/
def resumeProvision (r : Request) (stamp : Nat) (e : Entry) : Job :=
  if !r.placedAs e then .done
  else if e.state = .active ∨ e.state = .suspended then .done
  else .enter r.mode stamp e

/-- The next step of a job.  `ok` is whether its request or operation succeeds, `version` what a
migration returns. -/
def perform (w : World) (ok : Bool) (version : String) : Job → World × Job
  | .provision r =>
    match r.entry with
    | none => (w, .done)
    | some e =>
      if ok then
        match w.catalog.get r.tenantId with
        | none => (w, .insert r.mode e)
        | some (stamp, e) => (w, resumeProvision r stamp e)
      else (w, .done)
  | .insert mode e =>
    if ok then transition w none e fun stamp e => .enter mode stamp e else (w, .done)
  | .enter mode stamp e =>
    if ok then
      transition w (some stamp) { e with state := .creating } fun stamp e =>
        match mode with
        | .database => .create mode stamp e
        | .schema => .bootstrap mode stamp e
    else (w, .done)
  | .bootstrap mode stamp e => (w, if ok then .create mode stamp e else .fail stamp e)
  | .create mode stamp e =>
    if ok then ({ w with created := mode.location e :: w.created }, .created mode stamp e)
    else (w, .fail stamp e)
  | .created mode stamp e =>
    if ok then
      transition w (some stamp) { e with state := .migrating } fun stamp e =>
        .migrate mode stamp e
    else (w, .done)
  | .migrate mode stamp e =>
    if ok then
      ({ w with migrated := mode.location e :: w.migrated },
        .activate stamp { e with version := version })
    else (w, .fail stamp e)
  | .activate stamp e =>
    if ok then transition w (some stamp) { e with state := .active } fun _ _ => .done
    else (w, .done)
  | .fail stamp e =>
    if ok then transition w (some stamp) { e with state := .failed } fun _ _ => .done
    else (w, .done)
  | .suspend tenantId =>
    if ok then
      match w.catalog.get tenantId with
      | some (stamp, e) => (w, .suspendEntry stamp e)
      | none => (w, .done)
    else (w, .done)
  | .suspendEntry stamp e =>
    if ok then transition w (some stamp) { e with state := .suspended } fun _ _ => .done
    else (w, .done)
  | .resume tenantId =>
    if ok then
      match w.catalog.get tenantId with
      | some (stamp, e) =>
        (w, if e.state = .suspended then .resumeEntry stamp e else .done)
      | none => (w, .done)
    else (w, .done)
  | .resumeEntry stamp e =>
    if ok then transition w (some stamp) { e with state := .active } fun _ _ => .done
    else (w, .done)
  | .roll mode tenantId targetVersion =>
    if ok then
      match w.catalog.get tenantId with
      | some (stamp, e) =>
        if e.state ≠ .active ∨ targetVersion ≠ "" ∧ e.version = targetVersion then (w, .done)
        else (w, .rollMigrate mode stamp e)
      | none => (w, .done)
    else (w, .done)
  | .rollMigrate mode stamp e =>
    if ok then
      ({ w with migrated := mode.location e :: w.migrated },
        .rollRecord stamp { e with version := version })
    else (w, .done)
  | .rollRecord stamp e =>
    if ok then transition w (some stamp) e fun _ _ => .done else (w, .done)
  | .done => (w, .done)

inductive Call
  | provision (r : Request)
  | suspend (tenantId : String)
  | resume (tenantId : String)
  | migrateTenant (mode : Mode) (tenantId targetVersion : String)
deriving DecidableEq

def Call.job : Call → Job
  | .provision r => .provision r
  | .suspend tenantId => .suspend tenantId
  | .resume tenantId => .resume tenantId
  | .migrateTenant mode tenantId targetVersion => .roll mode tenantId targetVersion

inductive Action
  | call (c : Call)
  | advance (i : Nat) (ok : Bool) (version : String)
  | crash (i : Nat)
deriving DecidableEq

def step (w : World) : Action → Option World
  | .call c => some { w with jobs := w.jobs ++ [c.job] }
  | .advance i ok version =>
    match w.jobs[i]? with
    | some job =>
      let next := perform w ok version job
      some { next.1 with jobs := w.jobs.set i next.2 }
    | none => none
  | .crash i => some { w with jobs := w.jobs.set i .done }

end Fabriq.Provision.Lifecycle
