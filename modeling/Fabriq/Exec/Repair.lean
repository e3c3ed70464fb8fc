import Fabriq.Exec.Outbox
import Fabriq.Exec.OutboxVersions
import Fabriq.Lib.Upsert

namespace Fabriq.Exec.Repair

open Core.Schema Exec.CommandStore Exec.Outbox Exec.OutboxVersions Lib.Upsert

/-- An aggregate whose projection disagrees.  A truth version of 0 says that the row is gone, a
projected version of 0 that the projection lacks it. -/
structure Drift where
  entity : String
  aggId : String
  truthVersion : Int
  projectedVersion : Int

/-- `rowValues`.  `NewModel` panics for an entity that has no struct. -/
def rowValues (reg : Registry) (rows : List StoredRow) (tenant entity aggId : String) :
    Option Fields :=
  (reg.get entity).bind fun ent =>
    if ent.dynamic then none
    else (rows.find? fun r => rowIdentity r = (tenant, entity, aggId)).map fun r =>
      valuesByColumn ent r.vals

def rowEvent (tenant : String) (d : Drift) (vals : Fields) : OutboxRow where
  tenantId := tenant
  aggregate := d.entity
  aggId := d.aggId
  version := d.truthVersion
  verb := .updated
  payload := vals

/-- A synthetic delete, one version past what the projection holds. -/
def zombieEvent (tenant : String) (d : Drift) : OutboxRow where
  tenantId := tenant
  aggregate := d.entity
  aggId := d.aggId
  version := d.projectedVersion + 1
  verb := .deleted
  payload := []

/-- The upsert of `Repair`; an event in conflict keeps its type. -/
def upsertOutbox (outbox : List OutboxRow) (row : OutboxRow) : List OutboxRow :=
  upsert rowChange (fun old new => { old with payload := new.payload }) outbox row

theorem mem_upsertOutbox {outbox : List OutboxRow} {row other : OutboxRow}
    (h : other ∈ upsertOutbox outbox row) :
    other ∈ outbox ∨ eventIdentity other = eventIdentity row ∧ other.payload = row.payload := by
  rcases mem_upsert.mp h with ⟨hold, -⟩ | ⟨old, -, hconflict, rfl⟩ | ⟨-, rfl⟩
  · exact .inl hold
  · exact .inr ⟨congrArg Prod.fst hconflict, rfl⟩
  · exact .inr ⟨rfl, rfl⟩

/-- The event that `Repair` composes; `none` is a failed read. -/
def repairEvent (reg : Registry) (rows : List StoredRow) (tenant : String) (d : Drift) :
    Option OutboxRow :=
  if 0 < d.truthVersion then
    (rowValues reg rows tenant d.entity d.aggId).map (rowEvent tenant d)
  else some (zombieEvent tenant d)

def repairRecord (id : String) (now : Int) (row : OutboxRow) : Record where
  toOutboxRow := row
  id := id
  micros := now
  payloadSchemaVersion := 1
  traceparent := ""

/-- What the upsert makes of an event in conflict: it is to be published again, and keeps
its id, its type and the mark of an erasure. -/
def republish (old new : Record) : Record :=
  { old with
    publishedAt := none
    streamId := ""
    payload := new.payload
    micros := new.micros }

def recordChange (r : Record) : Change :=
  rowChange r.toOutboxRow

def upsertRecord (records : List Record) (new : Record) : List Record :=
  upsert recordChange republish records new

end Fabriq.Exec.Repair
