import Mathlib.Algebra.Group.Int.Defs
import Mathlib.Data.List.Basic

/-!
Entity specs: what `Register` and `Replace` check, and the part of a dynamic spec that is
persisted.
-/

namespace Fabriq.Dynamic.Spec

open Option

/-- `unknown` is every other value of the integer type. -/
inductive ColumnType
  | text
  | int
  | float
  | bool
  | time
  | json
  | unknown (n : Int)
deriving DecidableEq

structure DynamicColumn where
  name : String
  type : ColumnType := .text
  notNull : Bool := false
  default : String := ""
deriving DecidableEq

structure DynamicIndex where
  name : String
  columns : List String
  unique : Bool := false
deriving DecidableEq

structure DynamicSchema where
  table : String
  columns : List DynamicColumn := []
  indexes : List DynamicIndex := []
  noTypeCheck : Bool := false
deriving DecidableEq

structure EdgeSpec where
  field : String
  rel : String
  target : String
deriving DecidableEq

structure GraphEdgeSpec where
  typeField : String
  sourceField : String
  targetField : String
  sourceLabel : String
  targetLabel : String
  propFields : List String
deriving DecidableEq

structure SearchSpec where
  index : String := ""
  fields : List String := []
deriving DecidableEq

structure Scope where
  name : String
  field : String := ""
deriving DecidableEq

structure LiveSpec where
  filterable : List String
  sortable : List String
  maxWindow : Int
deriving DecidableEq

/-- The time to live is a duration, in nanoseconds. -/
structure CacheSpec where
  ttl : BitVec 64
  byScope : Bool
deriving DecidableEq

structure AnalyticsSpec where
  included : List String
  includeAll : Bool
  hash : List String
  exclude : List String
deriving DecidableEq

structure InsightsSpec where
  measures : List String
  dimensions : List String
deriving DecidableEq

structure MetricMeasure where
  kind : String
  field : String
deriving DecidableEq

structure MetricSpec where
  name : String
  measures : List MetricMeasure
deriving DecidableEq

inductive Kind
  | aggregate
  | document
deriving DecidableEq

structure Binding where
  table : String
  columns : List String
deriving DecidableEq

/-- A Go model is given by what it binds to.  `hooks` are `Validate`, `Embed` and `Distill`,
which no check reads. -/
structure EntitySpec where
  name : String
  kind : Kind := .aggregate
  model : Option Binding := none
  schema : Option DynamicSchema := none
  graphNode : String := ""
  graphEdge : Option GraphEdgeSpec := none
  edges : List EdgeSpec := []
  search : SearchSpec := {}
  subscribe : List Scope := []
  live : Option LiveSpec := none
  cache : Option CacheSpec := none
  analytics : Option AnalyticsSpec := none
  insights : Option InsightsSpec := none
  metrics : List MetricSpec := []
  crdt : Bool := false
  hooks : Nat := 0
deriving DecidableEq

inductive SpecError
  | emptyName
  | documentWithoutCrdt
  | modelAndSchema
  | modelRequired
  | modelColumn (column : String)
  | table (table : String)
  | structuralColumn (column : String)
  | columnIdentifier (column : String)
  | duplicateColumn (column : String)
  | indexColumn (index column : String)
  | edgesWithoutNode
  | incompleteEdge (edge : EdgeSpec)
  | edgeField (field : String)
  | searchField (field : String)
  | searchWithoutIndex
  | graphEdgeAndNode
  | graphEdgeLabels
  | graphEdgeField (field : String)
  | propShadows (field : String)
  | propField (field : String)
  | emptyScope
  | scopeField (scope field : String)
  | sortable (column : String)
  | filterable (column : String)
  | emptyAnalytics
  | emptyInsights
  | measure (column : String)
  | dimension (column : String)
  | emptyMetric
  | noMeasures (metric : String)
  | metricField (metric field : String)
deriving DecidableEq

def structural : List String :=
  ["id", "tenant_id", "version"]

/-- `^[A-Za-z_][A-Za-z0-9_]{0,63}$`, for tables and columns. -/
def dynIdent (s : String) : Bool :=
  let start (c : Char) : Bool := c.isAlpha || c == '_'
  match s.toList with
  | [] => false
  | c :: rest => start c && rest.all (fun d => start d || d.isDigit) && decide (rest.length ≤ 63)

/-- A check: a rule that is broken or not, or a field that has to be a column. -/
inductive Check
  | rule (broken : Bool) (e : SpecError)
  | column (field : String) (e : SpecError)

def Check.problem (columns : List String) : Check → Option SpecError
  | .rule broken e => if broken then some e else none
  | .column field e => if field ∈ columns then none else some e

def Check.field : Check → Option String
  | .rule .. => none
  | .column field _ => some field

def columnChecks (seen : List String) : List DynamicColumn → List Check
  | [] => []
  | c :: rest =>
    [.rule (decide (c.name ∈ structural)) (.structuralColumn c.name),
      .rule (!dynIdent c.name) (.columnIdentifier c.name),
      .rule (decide (c.name ∈ seen)) (.duplicateColumn c.name)] ++
      columnChecks (c.name :: seen) rest

def DynamicSchema.bound (s : DynamicSchema) : List String :=
  structural ++ s.columns.map DynamicColumn.name

def indexChecks (s : DynamicSchema) : List Check :=
  s.indexes.flatMap fun i => i.columns.map fun c => .column c (.indexColumn i.name c)

def bindChecks (spec : EntitySpec) : List Check :=
  match spec.schema, spec.model with
  | some _, some _ => [.rule true .modelAndSchema]
  | none, none => [.rule true .modelRequired]
  | none, some _ => structural.map fun c => .column c (.modelColumn c)
  | some s, none =>
    .rule (!dynIdent s.table) (.table s.table) :: columnChecks [] s.columns ++ indexChecks s

def bind (spec : EntitySpec) : Binding :=
  match spec.schema with
  | some s => ⟨s.table, s.bound⟩
  | none => spec.model.getD ⟨"", []⟩

def graphEdgeChecks (spec : EntitySpec) (ge : GraphEdgeSpec) : List Check :=
  let ends := [ge.typeField, ge.sourceField, ge.targetField]
  [.rule (decide (spec.graphNode ≠ "" ∨ spec.edges ≠ [])) .graphEdgeAndNode,
    .rule (decide (ge.sourceLabel = "" ∨ ge.targetLabel = "")) .graphEdgeLabels] ++
    ends.flatMap (fun f =>
      [.rule (decide (f = "")) (.graphEdgeField f), .column f (.graphEdgeField f)]) ++
    ge.propFields.map (fun f => .rule (decide (f ∈ ends)) (.propShadows f)) ++
    ge.propFields.map fun f => .column f (.propField f)

def edgeChecks (e : EdgeSpec) : List Check :=
  [.rule (decide (e.field = "" ∨ e.rel = "" ∨ e.target = "")) (.incompleteEdge e),
    .column e.field (.edgeField e.field)]

def scopeChecks (s : Scope) : List Check :=
  .rule (decide (s.name = "")) .emptyScope ::
    if s.field = "" then [] else [.column s.field (.scopeField s.name s.field)]

def liveChecks (l : LiveSpec) : List Check :=
  l.sortable.map (fun c => .column c (.sortable c)) ++
    l.filterable.map fun c => .column c (.filterable c)

def insightsChecks (i : InsightsSpec) : List Check :=
  .rule (decide (i.measures = [] ∧ i.dimensions = [])) .emptyInsights ::
    i.measures.map (fun c => .column c (.measure c)) ++
    i.dimensions.map fun c => .column c (.dimension c)

/-- A count needs no field. -/
def metricChecks (m : MetricSpec) : List Check :=
  [.rule (decide (m.name = "")) .emptyMetric,
    .rule (decide (m.measures = [])) (.noMeasures m.name)] ++
    (m.measures.filter (·.kind ≠ "count")).map fun mm =>
      .column mm.field (.metricField m.name mm.field)

def sectionChecks (spec : EntitySpec) : List Check :=
  [.rule (decide (spec.graphNode = "" ∧ spec.edges ≠ [])) .edgesWithoutNode] ++
    spec.edges.flatMap edgeChecks ++
    spec.search.fields.map (fun f => .column f (.searchField f)) ++
    [.rule (decide (spec.search.index = "" ∧ spec.search.fields ≠ [])) .searchWithoutIndex] ++
    spec.graphEdge.elim [] (graphEdgeChecks spec) ++
    spec.subscribe.flatMap scopeChecks ++
    spec.live.elim [] liveChecks ++
    spec.analytics.elim [] (fun a =>
      [.rule (decide (a.includeAll = false ∧ a.included = [] ∧ a.hash = [])) .emptyAnalytics]) ++
    spec.insights.elim [] insightsChecks ++
    spec.metrics.flatMap metricChecks

/-- What `validateAndBind` looks at, in its order. -/
def checks (spec : EntitySpec) : List Check :=
  [.rule (decide (spec.name = "")) .emptyName,
    .rule (decide (spec.kind = .document ∧ spec.crdt = false)) .documentWithoutCrdt] ++
    bindChecks spec ++ sectionChecks spec

def problems (spec : EntitySpec) : List SpecError :=
  (checks spec).filterMap (Check.problem (bind spec).columns)

def validateAndBind (spec : EntitySpec) : Except SpecError Binding :=
  match problems spec with
  | [] => .ok (bind spec)
  | e :: _ => .error e

variable {p : PersistedSpec} {spec : EntitySpec}

theorem validateAndBind_isOk : (∃ b, validateAndBind spec = .ok b) ↔ problems spec = [] := by
  unfold validateAndBind
  cases problems spec <;> simp

structure PersistedColumn where
  name : String
  type : String
  notNull : Bool
  default : String
deriving DecidableEq

structure PersistedCache where
  ttlSeconds : Int
  byScope : Bool
deriving DecidableEq

/-- The persisted layout; the sections that are written as they are keep their types. -/
structure PersistedSpec where
  format : Int
  name : String
  table : String
  columns : List PersistedColumn
  indexes : List DynamicIndex
  noTypeCheck : Bool
  graphNode : String
  graphEdge : Option GraphEdgeSpec
  edges : List EdgeSpec
  search : SearchSpec
  subscribe : List Scope
  live : Option LiveSpec
  cache : Option PersistedCache
  analytics : Option AnalyticsSpec
deriving DecidableEq

def dynamicSpecFormat : Int := 1

def columnTypeName : ColumnType → Option String
  | .text => some "text"
  | .int => some "int"
  | .float => some "float"
  | .bool => some "bool"
  | .time => some "time"
  | .json => some "json"
  | .unknown _ => none

def columnTypeFromName (s : String) : Option ColumnType :=
  [.text, .int, .float, .bool, .time, .json].find? fun t => columnTypeName t = some s

def encodeColumn (c : DynamicColumn) : Option PersistedColumn :=
  (columnTypeName c.type).map fun t => ⟨c.name, t, c.notNull, c.default⟩

def decodeColumn (c : PersistedColumn) : Option DynamicColumn :=
  (columnTypeFromName c.type).map fun t => ⟨c.name, t, c.notNull, c.default⟩

/-- Whole seconds are kept. -/
def encodeCache (c : CacheSpec) : PersistedCache :=
  ⟨c.ttl.toInt.tdiv (10 ^ 9), c.byScope⟩

def decodeCache (c : PersistedCache) : CacheSpec :=
  ⟨BitVec.ofInt 64 (c.ttlSeconds * 10 ^ 9), c.byScope⟩

/-- `encodeDynamicSpec` up to its JSON; it fails without a schema and on an unknown column
type. -/
def encodePersisted (spec : EntitySpec) : Option PersistedSpec := do
  let s ← spec.schema
  let columns ← s.columns.mapM encodeColumn
  return {
    format := dynamicSpecFormat
    name := spec.name
    table := s.table
    columns
    indexes := s.indexes
    noTypeCheck := s.noTypeCheck
    graphNode := spec.graphNode
    graphEdge := spec.graphEdge
    edges := spec.edges
    search := spec.search
    subscribe := spec.subscribe
    live := spec.live
    cache := spec.cache.map encodeCache
    analytics := spec.analytics }

def decodePersisted (p : PersistedSpec) : Option EntitySpec :=
  if p.format = dynamicSpecFormat ∧ p.name ≠ "" ∧ p.table ≠ "" then
    (p.columns.mapM decodeColumn).map fun columns => {
      name := p.name
      schema := some ⟨p.table, columns, p.indexes, p.noTypeCheck⟩
      graphNode := p.graphNode
      graphEdge := p.graphEdge
      edges := p.edges
      search := p.search
      subscribe := p.subscribe
      live := p.live
      cache := p.cache.map decodeCache
      analytics := p.analytics }
  else none

/-- `encoding/json` on the persisted layout: what is written reads back. -/
structure Json (β : Type) where
  marshal : PersistedSpec → β
  unmarshal : β → Option PersistedSpec
  unmarshal_marshal : ∀ p, unmarshal (marshal p) = some p

variable {β : Type} (json : Json β)

def encodeDynamicSpec (spec : EntitySpec) : Option β :=
  (encodePersisted spec).map json.marshal

def decodeDynamicSpec (b : β) : Option EntitySpec :=
  (json.unmarshal b).bind decodePersisted

def sameDynamicEncoding [DecidableEq β] (a b : EntitySpec) : Bool :=
  match encodeDynamicSpec json a, encodeDynamicSpec json b with
  | some ea, some eb => decide (ea = eb)
  | _, _ => false

def withInProcessFields (dst src : EntitySpec) : EntitySpec :=
  { dst with insights := src.insights, metrics := src.metrics, crdt := src.crdt, hooks := src.hooks }

theorem Json.marshal_inj {q : PersistedSpec} (h : json.marshal p = json.marshal q) : p = q := by
  have hread := congrArg json.unmarshal h
  rw [json.unmarshal_marshal, json.unmarshal_marshal] at hread
  exact some.inj hread

theorem encodePersisted_eq_some (h : encodePersisted spec = some p) :
    ∃ s, spec.schema = some s ∧ s.table = p.table := by
  obtain ⟨s, hs, h⟩ := bind_eq_some_iff.mp h
  obtain ⟨columns, -, h⟩ := bind_eq_some_iff.mp h
  cases h
  exact ⟨s, hs, rfl⟩

theorem table_eq_of_sameDynamicEncoding [DecidableEq β] {a b : EntitySpec} {s : DynamicSchema}
    (h : sameDynamicEncoding json a b) (hb : b.schema = some s) :
    ∃ t, a.schema = some t ∧ t.table = s.table := by
  unfold sameDynamicEncoding encodeDynamicSpec at h
  cases ha : encodePersisted a <;> cases hb' : encodePersisted b <;> simp [ha, hb'] at h
  obtain rfl := json.marshal_inj h
  obtain ⟨t, ht, htable⟩ := encodePersisted_eq_some ha
  obtain ⟨s', hs', hstable⟩ := encodePersisted_eq_some hb'
  obtain rfl := some.inj (hb.symm.trans hs')
  exact ⟨t, ht, htable.trans hstable.symm⟩

theorem encode_withInProcessFields (dst src : EntitySpec) :
    encodeDynamicSpec json (withInProcessFields dst src) = encodeDynamicSpec json dst :=
  rfl

theorem decode_schema {b : β} (h : decodeDynamicSpec json b = some spec) :
    ∃ s, spec.schema = some s := by
  obtain ⟨p, -, h⟩ := bind_eq_some_iff.mp h
  unfold decodePersisted at h
  split_ifs at h
  obtain ⟨columns, -, rfl⟩ := map_eq_some_iff.mp h
  exact ⟨_, rfl⟩

def plainJson : Json PersistedSpec :=
  ⟨id, some, fun _ => rfl⟩

end Fabriq.Dynamic.Spec
