import Mathlib.Data.List.Sort
import Mathlib.Data.String.Basic
import Fabriq.Lib.KeyedLog
import Fabriq.Lib.Machine
import Fabriq.Projection.NodeVersion

namespace Fabriq.Projection.Rebuild

open Core.Schema Core.Value Lib Lib.Assoc Lib.KeyedLog Lib.Machine Projection.Applier
open Projection.GraphStore
open Projection.NodeVersion

inductive Status
  | live
  | building
  | soaking
  deriving DecidableEq, Repr

structure ProjState where
  modelVersion : Nat
  targetName : String
  status : Status
  deriving DecidableEq, Repr

def ttl : Nat := 2000

def pageSize : Nat := 500

structure Cached (α : Type) where
  value : α
  expires : Nat

/-- `cachedState` and `liveGraphResolver`: the cached value until it expires, else what
is stored. -/
def fetch {α : Type} (now : Nat) (cache : Option (Cached α)) (stored : α) : α × Option (Cached α) :=
  match cache.filter fun c => decide (now < c.expires) with
  | some c => (c.value, some c)
  | none => (stored, some ⟨stored, now + ttl⟩)

/-- An event between `TargetsFor` and its acknowledgement. -/
structure Job where
  event : Envelope
  targets : List String

structure Worker where
  stateCache : Option (Cached ProjState) := none
  targetCache : Option (Cached String) := none
  job : Option Job := none

/-- Where `Rebuild` stands.  In a snapshot: the entities still to be read, the cursor in the first
of them, the rows not yet applied, and whether the last page was full. -/
inductive Phase
  | idle
  | marked
  | snapshot (pending : List Entity) (lastId : String) (page : List Envelope) (more : Bool)
  | flipped

/-- One tenant: the committed events, the projection state, the graphs by name, and the
consumer group with what it delivered and acknowledged. -/
structure System where
  now : Nat := 0
  log : List Envelope := []
  state : ProjState
  graphs : List (String × Graph) := []
  workers : List (Nat × Worker) := []
  delivered : List Envelope := []
  acked : List Envelope := []
  phase : Phase := .idle

structure Deployment where
  reg : Registry
  tenant : String

inductive Action
  | commit (entity id : String) (verb : Verb) (vals : Fields)
  | tick (d : Nat)
  | deliver (w i : Nat)
  | applyTarget (w : Nat)
  | ack (w : Nat)
  | crash (w : Nat)
  | mark
  | dropTarget
  | readPage
  | nextEntity
  | applyRow
  | flip
  | abort

def System.worker (s : System) (w : Nat) : Worker :=
  (s.workers.lookup w).getD {}

def System.graph (s : System) (name : String) : Graph :=
  (s.graphs.lookup name).getD .empty

def graphName (tenant : String) : String :=
  "tenant_" ++ tenant

def graphNameVersioned (tenant : String) (version : Nat) : String :=
  "tenant_" ++ tenant ++ "_v" ++ toString version

def aggregateOf (env : Envelope) : String × String :=
  (env.aggregate, env.aggId)

def currentRow (log : List Envelope) (aggregate : String × String) : Option Envelope :=
  (latest aggregateOf log aggregate).filter fun e => e.verb != .deleted

/-- The version of the next event; an identity is not used again after its delete. -/
def nextVersion (log : List Envelope) (aggregate : String × String) : Verb → Option Int
  | .created => if (latest aggregateOf log aggregate).isNone then some 1 else none
  | .updated | .deleted => (currentRow log aggregate).map fun e => e.version + 1

def stampedPayload (id : String) (version : Int) (vals : Fields) : Verb → Fields
  | .deleted => []
  | .created | .updated =>
    put (put vals columnId (.str id)) columnVersion (.num version)

def commit (d : Deployment) (s : System) (entity id : String) (verb : Verb) (vals : Fields) :
    Option System :=
  match (d.reg.get entity).filter fun e => e.isAggregate && id != "",
    nextVersion s.log (entity, id) verb with
  | some _, some version =>
    some { s with
      log := s.log ++ [⟨d.tenant, "", entity, id, version, verb,
        stampedPayload id version vals verb⟩] }
  | _, _ => none

/-- `TargetsFor`; the empty name is the live graph. -/
def targetsFor (d : Deployment) (st : ProjState) : List String :=
  if st.status = .building then ["", graphNameVersioned d.tenant (st.modelVersion + 1)]
  else [""]

def liveName (d : Deployment) (st : ProjState) : String :=
  if st.targetName = "" then graphName d.tenant else st.targetName

/-- `Engine.handle` up to the targets.  An event without mutations, or one the applier
refuses, is acknowledged at once. -/
def deliver (d : Deployment) (s : System) (w i : Nat) : Option System :=
  match s.log[i]?, (s.worker w).job with
  | some env, none =>
    match graphApplier d.reg env with
    | none | some [] =>
      some { s with delivered := env :: s.delivered, acked := env :: s.acked }
    | some _ =>
      let fetched := fetch s.now (s.worker w).stateCache s.state
      some { s with
        delivered := env :: s.delivered
        workers := put s.workers w
          { s.worker w with
            stateCache := fetched.2
            job := some ⟨env, targetsFor d fetched.1⟩ } }
  | _, _ => none

def resolve (d : Deployment) (s : System) (w : Nat) (target : String) :
    String × Option (Cached String) :=
  if target = "" then fetch s.now (s.worker w).targetCache (liveName d s.state)
  else (target, (s.worker w).targetCache)

/-- `ApplyMutations` on the next target of a worker's event. -/
def applyTarget (d : Deployment) (s : System) (w : Nat) : Option System :=
  match (s.worker w).job with
  | some ⟨env, target :: rest⟩ =>
    let resolved := resolve d s w target
    (handle d.reg (s.graph resolved.1) env).map fun g =>
      { s with
        graphs := put s.graphs resolved.1 g
        workers := put s.workers w
          { s.worker w with targetCache := resolved.2, job := some ⟨env, rest⟩ } }
  | _ => none

def ack (s : System) (w : Nat) : Option System :=
  match (s.worker w).job with
  | some ⟨env, []⟩ =>
    some { s with
      acked := env :: s.acked
      workers := put s.workers w { s.worker w with job := none } }
  | _ => none

def buildTarget (d : Deployment) (s : System) : String :=
  match s.phase with
  | .flipped => s.state.targetName
  | _ => graphNameVersioned d.tenant (s.state.modelVersion + 1)

/-- `reg.All()` without the entities that are no aggregates. -/
def snapshotEntities (reg : Registry) : List Entity :=
  (reg.filter fun e => e.isAggregate).insertionSort fun a b => a.name ≤ b.name

/-- `snapshotEnvelope`: a row as an update at its current version. -/
def snapshotEnvelope (row : Envelope) : Envelope :=
  { row with scopeId := "", verb := .updated }

def snapshotPage (log : List Envelope) (entity : Entity) (lastId : String) : List Envelope :=
  let rows := (latestAll aggregateOf log).filter fun e =>
    e.aggregate == entity.name && e.verb != .deleted && decide (lastId < e.aggId)
  ((rows.insertionSort fun a b => a.aggId ≤ b.aggId).take pageSize).map snapshotEnvelope

def mark (s : System) : Option System :=
  match s.phase with
  | .idle =>
    if s.state.status = .building then none
    else some { s with state := { s.state with status := .building }, phase := .marked }
  | _ => none

def dropTarget (d : Deployment) (s : System) : Option System :=
  match s.phase with
  | .marked =>
    some { s with
      graphs := Assoc.drop s.graphs (buildTarget d s)
      phase := .snapshot (snapshotEntities d.reg) "" [] true }
  | _ => none

def readPage (s : System) : Option System :=
  match s.phase with
  | .snapshot (entity :: rest) lastId [] true =>
    let page := snapshotPage s.log entity lastId
    some { s with
      phase := .snapshot (entity :: rest) lastId page (decide (page.length = pageSize)) }
  | _ => none

def nextEntity (s : System) : Option System :=
  match s.phase with
  | .snapshot (_ :: rest) _ [] false => some { s with phase := .snapshot rest "" [] true }
  | _ => none

def abort (s : System) : Option System :=
  match s.phase with
  | .marked | .snapshot .. =>
    some { s with state := { s.state with status := .live }, phase := .idle }
  | _ => none

def applyRow (d : Deployment) (s : System) : Option System :=
  match s.phase with
  | .snapshot pending _ (row :: page) more =>
    match (graphApplier d.reg row).bind (applyMutations (s.graph (buildTarget d s))) with
    | none => abort s
    | some g =>
      some { s with
        graphs := put s.graphs (buildTarget d s) g
        phase := .snapshot pending row.aggId page more }
  | _ => none

def flip (d : Deployment) (s : System) : Option System :=
  match s.phase with
  | .snapshot [] _ [] _ =>
    some { s with
      state := ⟨s.state.modelVersion + 1, buildTarget d s, .soaking⟩
      phase := .flipped }
  | _ => none

def step (d : Deployment) (s : System) : Action → Option System
  | .commit entity id verb vals => commit d s entity id verb vals
  | .tick k => some { s with now := s.now + k }
  | .deliver w i => deliver d s w i
  | .applyTarget w => applyTarget d s w
  | .ack w => ack s w
  | .crash w => some { s with workers := put s.workers w {} }
  | .mark => mark s
  | .dropTarget => dropTarget d s
  | .readPage => readPage s
  | .nextEntity => nextEntity s
  | .applyRow => applyRow d s
  | .flip => flip d s
  | .abort => abort s

/-- The graph holds every row at its version, as a node or as one relationship, and no aggregate
without a row. -/
def ShowsRows (d : Deployment) (log : List Envelope) (g : Graph) : Prop :=
  ∀ entity id, d.reg.get entity.name = some entity → entity.isAggregate = true →
    match entity.graphEdge with
    | none => entity.graphNode ≠ "" → heldVersion g ⟨entity.graphNode, id⟩ =
        (currentRow log (entity.name, id)).map fun e => .num e.version
    | some _ => (g.rels.filter (hasId id)).map (fun r => r.props.lookup columnVersion) =
        ((currentRow log (entity.name, id)).map fun e => some (.num e.version)).toList

def Phase.isFlipped : Phase → Bool
  | .flipped => true
  | _ => false

def Settled (s : System) : Prop :=
  s.phase.isFlipped = true ∧ ∀ e ∈ s.log, e ∈ s.acked

theorem edges_columns_nil : ∀ e ∈ ([] : List EdgeSpec), e.field ∈ ["id", "version"] :=
  List.forall_mem_nil _

theorem search_columns_nil : ∀ f ∈ ({} : SearchSpec).fields, f ∈ ["id", "version"] :=
  List.forall_mem_nil _

def asset : Entity where
  name := "asset"
  columns := ["id", "version"]
  graphNode := "Asset"
  edges_columns := edges_columns_nil
  search_columns := search_columns_nil

def plant : Deployment :=
  ⟨[asset], "acme"⟩

def started : System where
  state := ⟨1, "", .live⟩

/-- The worker caches the state just before the rebuild, and handles an update with it
after the page was read. -/
def staleUpdate : List Action :=
  [.commit "asset" "a1" .created [], .deliver 0 0, .applyTarget 0, .ack 0,
    .mark, .dropTarget, .readPage, .applyRow, .nextEntity,
    .commit "asset" "a1" .updated [], .deliver 0 1, .applyTarget 0, .ack 0, .flip]

def link : Entity where
  name := "link"
  columns := ["id", "version", "type", "source", "target"]
  graphEdge := some ⟨"type", "source", "target", "Asset", "Asset", []⟩

def linkTo (target : String) : Fields :=
  [("type", .str "FEEDS"), ("source", .str "a"), ("target", .str target)]

def linked : Deployment :=
  ⟨[asset, link], "acme"⟩

/-- The relationship is applied to the target with one endpoint, and its row is read with another. -/
def movedLink : List Action :=
  [.commit "link" "l1" .created (linkTo "b"), .mark, .dropTarget,
    .deliver 0 0, .applyTarget 0, .applyTarget 0, .ack 0,
    .commit "link" "l1" .updated (linkTo "c"), .readPage, .nextEntity, .readPage, .applyRow,
    .nextEntity, .flip, .deliver 0 1, .applyTarget 0, .applyTarget 0, .ack 0]

end Fabriq.Projection.Rebuild
