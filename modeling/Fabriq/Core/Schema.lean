import Fabriq.Core.Value

namespace Fabriq.Core.Schema

open Core.Value

abbrev Fields := List (String × Json)

def columnId : String := "id"
def columnTenant : String := "tenant_id"
def columnVersion : String := "version"
def columnScope : String := "scope_id"

structure EdgeSpec where
  field : String
  rel : String
  target : String

structure GraphEdgeSpec where
  typeField : String
  sourceField : String
  targetField : String
  sourceLabel : String
  targetLabel : String
  propFields : List String

structure SearchSpec where
  index : String := ""
  fields : List String := []

/-- A registered entity: registration refuses foreign keys and search fields that are
not columns. -/
structure Entity where
  name : String
  isAggregate : Bool := true
  columns : List String
  required : List String := []
  /-- Declared by a schema at run time: its payloads are maps and not structs. -/
  dynamic : Bool := false
  /-- What a column holds in a row that is inserted without it. -/
  columnDefault : String → Json := fun _ => .null
  /-- What a column holds of a value written to it in a row: the `BeforeInsert` and `BeforeUpdate`
  hooks of the model change the row first, and the column has a type. -/
  stored : Fields → String → Json → Json := fun _ _ v => v
  graphNode : String := ""
  edges : List EdgeSpec := []
  graphEdge : Option GraphEdgeSpec := none
  search : SearchSpec := {}
  edges_columns : ∀ e ∈ edges, e.field ∈ columns := by decide
  search_columns : ∀ f ∈ search.fields, f ∈ columns := by decide
  stored_id : ∀ row v, stored row columnId v = v := by intros; rfl

theorem edges_noColumns : ∀ e ∈ ([] : List EdgeSpec), e.field ∈ ([] : List String) :=
  List.forall_mem_nil _

theorem search_noColumns : ∀ f ∈ ({} : SearchSpec).fields, f ∈ ([] : List String) :=
  List.forall_mem_nil _

def Entity.hasColumn (e : Entity) (column : String) : Bool :=
  e.columns.contains column

abbrev Registry := List Entity

def Registry.get (reg : Registry) (name : String) : Option Entity :=
  reg.find? fun e => e.name == name

/-- `Registry.Validate`, as far as edges go: every target is a graph entity. -/
def Registry.validate (reg : Registry) : Bool :=
  reg.all fun e => e.edges.all fun edge => (reg.get edge.target).any fun t => t.graphNode != ""

theorem Registry.name_of_get {reg : Registry} {name : String} {entity : Entity}
    (h : reg.get name = some entity) : entity.name = name := by
  simpa using List.find?_some h

/-- The verb of an event type `entity.verb`. -/
inductive Verb
  | created
  | updated
  | deleted
  deriving DecidableEq, Repr

structure Envelope where
  tenantId : String
  scopeId : String
  aggregate : String
  aggId : String
  version : Int
  verb : Verb
  payload : Fields

/-- `stringProp`: a string column, empty when it is absent or of another type. -/
def stringProp (props : Fields) (key : String) : String :=
  match props.lookup key with
  | some (.str s) => s
  | _ => ""

end Fabriq.Core.Schema
