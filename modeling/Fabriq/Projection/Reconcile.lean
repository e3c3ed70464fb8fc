import Fabriq.Exec.Relay
import Fabriq.Exec.Repair
import Fabriq.Projection.RebuildSafety

namespace Fabriq.Projection.Reconcile

open Core.Schema Core.Value Exec.CommandStore Exec.Outbox Exec.OutboxVersions Exec.Repair
open Projection.GraphStore Projection.NodeVersion
open Exec.Relay (eligible)

structure State where
  rows : List StoredRow
  records : List Record
  graph : Graph

/-- A `Reconciler` of the graph for a tenant, with the id that `NewID` gives to the event
of a drift and the time of the repair. -/
structure Reconciler where
  reg : Registry
  tenant : String
  mint : Drift → String
  now : Int

/-- `int64(v)` of a version that is a number. -/
def intVersion : Json → Option Int
  | .num q => some (q.num.tdiv q.den)
  | _ => none

def projectedVersion (g : Graph) (key : NodeKey) : Option Int :=
  (heldVersion g key).bind intVersion

/-- The ids of the nodes of a label; a node without an id is passed over. -/
def nodeIds (g : Graph) (label : String) : List String :=
  (((g.nodes.map Prod.fst).filter fun key => key.label == label && key.id != "").map
    NodeKey.id).dedup

def projectedVersions (g : Graph) (label : String) : List (String × Int) :=
  (nodeIds g label).filterMap fun id => (projectedVersion g ⟨label, id⟩).map fun v => (id, v)

def truthVersions (rows : List StoredRow) (tenant entity : String) : List (String × Int) :=
  (rows.filter fun r => r.tenant == tenant && r.entity == entity).map fun r => (r.id, r.version)

def included (ent : Entity) : Bool :=
  ent.isAggregate && ent.graphNode != ""

/-- The drifts of an entity: rows that are missing or stale in the projection, and what the
projection holds without a row. -/
def entityDrifts (tenant : String) (s : State) (ent : Entity) : List Drift :=
  let truth := truthVersions s.rows tenant ent.name
  let projected := projectedVersions s.graph ent.graphNode
  (truth.filterMap fun e =>
    let held := (projected.lookup e.1).getD 0
    if held < e.2 then some ⟨ent.name, e.1, e.2, held⟩ else none) ++
  projected.filterMap fun e =>
    if (truth.lookup e.1).isNone then some ⟨ent.name, e.1, 0, e.2⟩ else none

def drifts (r : Reconciler) (s : State) : List Drift :=
  ((r.reg.filter included).flatMap (entityDrifts r.tenant s)).insertionSort fun a b =>
    a.entity < b.entity ∨ a.entity = b.entity ∧ a.aggId ≤ b.aggId

/-- `Repair`; a row cannot be inserted under an id that exists. -/
def repair (r : Reconciler) (rows : List StoredRow) (records : List Record) (d : Drift) :
    Option (List Record) :=
  (repairEvent r.reg rows r.tenant d).bind fun row =>
    let new := repairRecord (r.mint d) r.now row
    if recordChange new ∈ records.map recordChange ∨ new.id ∉ records.map Record.id then
      some (upsertRecord records new)
    else none

/-- `Reconcile` with repair: the outbox it leaves, or `none` when a repair fails. -/
def reconcile (r : Reconciler) (s : State) : Option (List Record) :=
  (drifts r s).foldlM (repair r s.rows) s.records

def driftChange (tenant : String) (d : Drift) : Change :=
  ((tenant, d.entity, d.aggId),
    if 0 < d.truthVersion then d.truthVersion else d.projectedVersion + 1)

/-- What the relay publishes of a record: the columns without the time. -/
def relayed (row : Record) : Envelope where
  tenantId := row.tenantId
  scopeId := ""
  aggregate := row.aggregate
  aggId := row.aggId
  version := row.version
  verb := row.verb
  payload := row.payload

def queued (r : Reconciler) (s : State) (after : List Record) : List Envelope :=
  ((after.filter fun row =>
      eligible row && decide (recordChange row ∈ (drifts r s).map (driftChange r.tenant)))
    |>.insertionSort fun a b => a.id ≤ b.id).map relayed

/-- The projection holds the current rows at their versions and nothing else. -/
def Shows (r : Reconciler) (rows : List StoredRow) (g : Graph) : Prop :=
  ∀ ent ∈ r.reg, included ent = true → ∀ id ≠ "",
    (projectedVersions g ent.graphNode).lookup id =
      (truthVersions rows r.tenant ent.name).lookup id

/-- The events other than those of the current version of a row keep type and payload. -/
def Unaltered (rows : List StoredRow) (before after : List Record) : Prop :=
  ∀ old ∈ before, (∀ row ∈ rows, recordChange old ≠ (rowIdentity row, row.version)) →
    ∃ new ∈ after, recordChange new = recordChange old ∧ new.verb = old.verb ∧
      new.payload = old.payload

/-- `Reconcile` with repair, then the publication and the application of what it queued. -/
def Heals (r : Reconciler) (s : State) : Prop :=
  ∃ after g, reconcile r s = some after ∧
    (queued r s after).foldlM (handle r.reg) s.graph = some g ∧
    Shows r s.rows g ∧ Unaltered s.rows s.records after

def plant : Reconciler where
  reg := [Rebuild.asset]
  tenant := "acme"
  mint := fun _ => "09"
  now := 9

def assetEvent (version : Int) (verb : Verb) (payload : Fields) (id : String) : Record where
  toOutboxRow := ⟨"acme", "asset", "a1", version, verb, payload⟩
  id := id
  micros := 0
  payloadSchemaVersion := 1
  traceparent := ""
  publishedAt := some 0

def deletedAsset : State where
  rows := []
  records := [assetEvent 1 .created [("version", .num 1)] "01",
    assetEvent 2 .updated [("version", .num 2)] "02", assetEvent 3 .deleted [] "03"]
  graph := ⟨[(⟨"Asset", "a1"⟩, [("id", .str "a1"), ("version", .num 1)])], []⟩

theorem reconcile_deletedAsset : reconcile plant deletedAsset =
      some [assetEvent 1 .created [("version", .num 1)] "01",
        { assetEvent 2 .updated [] "02" with micros := 9, publishedAt := none },
        assetEvent 3 .deleted [] "03"] :=
  rfl

theorem deletedAsset_not_healed : ¬ Heals plant deletedAsset := by
  rintro ⟨after, g, hafter, -, -, hunaltered⟩
  obtain rfl := Option.some.inj (reconcile_deletedAsset.symm.trans hafter)
  obtain ⟨new, hnew, hchange, -, hpayload⟩ := hunaltered
    (assetEvent 2 .updated [("version", .num 2)] "02") (by simp [deletedAsset])
    (List.forall_mem_nil _)
  simp only [List.mem_cons, List.not_mem_nil, or_false] at hnew
  rcases hnew with rfl | rfl | rfl
  · exact absurd hchange (by decide)
  · exact absurd hpayload.symm (List.cons_ne_nil _ _)
  · exact absurd hchange (by decide)

end Fabriq.Projection.Reconcile
