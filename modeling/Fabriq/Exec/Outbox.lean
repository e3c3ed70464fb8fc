import Fabriq.Exec.CommandStore
import Fabriq.Exec.PgTime

namespace Fabriq.Exec.Outbox

open Core.Schema Exec.CommandStore
open Exec.PgTime (Zone localDate parsePGTime parsePGTime_text)

/-- A whole event: what the projections read of it, its id, its time in microseconds, the version
of the payload's shape and its trace.  The type is the aggregate with the verb. -/
structure Event extends Envelope where
  id : String
  micros : Int
  payloadSchemaVersion : Int
  traceparent : String

/-- `newEnvelope`, with the id that is minted and the clock and trace of the executor. -/
def newEvent (p : Prepared) (version : Int) (vals : Option Fields) (verb : Verb)
    (id : String) (micros : Int) (traceparent : String) : Event where
  toEnvelope := newEnvelope p version vals verb
  id := id
  micros := micros
  payloadSchemaVersion := 1
  traceparent := traceparent

structure Record extends OutboxRow where
  id : String
  micros : Int
  payloadSchemaVersion : Int
  traceparent : String
  publishedAt : Option Int := none
  streamId : String := ""
  erasedAt : Option Int := none

/-- The insert of `AppendOutbox`; the columns it does not name get their defaults. -/
def record (e : Event) : Record where
  toOutboxRow := outboxRow e.toEnvelope
  id := e.id
  micros := e.micros
  payloadSchemaVersion := e.payloadSchemaVersion
  traceparent := e.traceparent

/-- `outboxScanRow`: the time arrives as text. -/
structure ScanRow extends OutboxRow where
  id : String
  timeText : List Char
  payloadSchemaVersion : Int
  traceparent : String

def Record.scan (zone : Zone) (r : Record) : ScanRow where
  toOutboxRow := r.toOutboxRow
  id := r.id
  timeText := PgTime.text zone r.micros
  payloadSchemaVersion := r.payloadSchemaVersion
  traceparent := r.traceparent

def ScanRow.envelope (row : ScanRow) : Option Event :=
  (parsePGTime row.timeText).map fun nanos =>
    { tenantId := row.tenantId
      scopeId := ""
      aggregate := row.aggregate
      aggId := row.aggId
      version := row.version
      verb := row.verb
      payload := row.payload
      id := row.id
      micros := nanos / 1000
      payloadSchemaVersion := row.payloadSchemaVersion
      traceparent := row.traceparent }

def roundTrip (zone : Zone) (e : Event) : Option Event :=
  ((record e).scan zone).envelope

theorem roundTrip_eq {zone : Zone} {e : Event} (hyear : 1 ≤ (localDate zone e.micros).year)
    (hmost : (localDate zone e.micros).year ≤ 9999) :
    roundTrip zone e = some { e with scopeId := "" } := by
  rw [roundTrip, ScanRow.envelope]
  have htime : parsePGTime ((record e).scan zone).timeText = some (e.micros * 1000) :=
    parsePGTime_text hyear hmost
  rw [htime, Option.map_some, Int.mul_ediv_cancel _ (by decide)]
  rfl

/-- An event of the executor comes back as it was exactly if its command was not scoped; its year is
one that Postgres writes with four digits. -/
theorem roundTrip_newEvent_iff (zone : Zone) (p : Prepared) (version : Int)
    (vals : Option Fields) (verb : Verb) (id : String) (micros : Int) (traceparent : String)
    (hyear : 1 ≤ (localDate zone micros).year) (hmost : (localDate zone micros).year ≤ 9999) :
    roundTrip zone (newEvent p version vals verb id micros traceparent) =
        some (newEvent p version vals verb id micros traceparent) ↔ p.scopeId = "" := by
  rw [roundTrip_eq (e := newEvent p version vals verb id micros traceparent) hyear hmost,
    Option.some.injEq]
  constructor
  · intro hback
    exact (congrArg (fun e : Event => e.scopeId) hback).symm
  · intro hscope
    rw [← hscope]
    rfl

def noteCreated (scope : String) : Prepared where
  op := .create
  expectedVersion := none
  entity := { name := "note", columns := ["id", "tenant_id", "version", "scope_id"] }
  tenantId := "acme"
  scopeId := scope
  aggId := "n1"
  vals := some []

/-- Half past five hours ahead of UTC. -/
def kolkata : Zone :=
  ⟨330, by decide⟩

/-- Written at noon of 2024-02-29, a fraction of a second later. -/
def noteEvent (scope : String) : Event :=
  newEvent (noteCreated scope) 1 ((noteCreated scope).stampedValues 1) .created "01H"
    1709208000120500 ""

theorem scopedNote_not_roundTrip : ∃ back, roundTrip kolkata (noteEvent "north") = some back ∧
      back.scopeId ≠ (noteEvent "north").scopeId :=
  ⟨_, roundTrip_eq (by decide) (by decide), by decide⟩

theorem roundTrip_unscopedNote :
    (localDate kolkata (noteEvent "").micros).year = 2024 ∧
      roundTrip kolkata (noteEvent "") = some (noteEvent "") :=
  ⟨by decide, (roundTrip_newEvent_iff kolkata _ 1 ((noteCreated "").stampedValues 1) .created "01H"
    1709208000120500 "" (by decide) (by decide)).mpr rfl⟩

end Fabriq.Exec.Outbox
