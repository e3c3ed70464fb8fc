import Fabriq.Lib.Assoc
import Fabriq.Core.Schema

namespace Fabriq.Projection.Applier

open Core.Schema Lib.Assoc

inductive Mutation
  | nodeUpsert (label id : String) (props : Fields) (version : Int)
  | edgeUpsert (rel fromLabel fromId toLabel toId : String) (version : Int)
  | nodeDelete (label id : String)
  | edgeDelete (rel fromLabel fromId : String) (version : Int)
  | docIndex (index id : String) (doc : Fields) (version : Int)
  | docDeindex (index id : String) (version : Int)
  | relUpsert (id type fromLabel fromId toLabel toId : String) (props : Fields)
      (version : Int)
  | relDelete (id : String) (version : Int)

/-- The maintenance of one foreign key; `none` when its target is not a graph entity. -/
def edgeMutation (reg : Registry) (entity : Entity) (env : Envelope) (props : Fields)
    (edge : EdgeSpec) : Option Mutation := do
  let target ← reg.get edge.target
  if target.graphNode = "" then none
  else if stringProp props edge.field = "" then
    some (.edgeDelete edge.rel entity.graphNode env.aggId env.version)
  else
    some (.edgeUpsert edge.rel entity.graphNode env.aggId target.graphNode
      (stringProp props edge.field) env.version)

def pick (columns : List String) (props : Fields) : Fields :=
  columns.filterMap fun f => (props.lookup f).map fun v => (f, v)

def reifiedEdgeMutations (spec : GraphEdgeSpec) (env : Envelope) : Option (List Mutation) :=
  match env.verb with
  | .deleted => some [.relDelete env.aggId env.version]
  | .created | .updated =>
    let type := stringProp env.payload spec.typeField
    let source := stringProp env.payload spec.sourceField
    let target := stringProp env.payload spec.targetField
    if type = "" ∨ source = "" ∨ target = "" then none
    else
      some [.relUpsert env.aggId type spec.sourceLabel source spec.targetLabel target
        (pick spec.propFields env.payload) env.version]

def nodeProps (env : Envelope) : Fields :=
  if env.scopeId = "" then env.payload
  else put env.payload columnScope (.str env.scopeId)

def graphApplier (reg : Registry) (env : Envelope) : Option (List Mutation) :=
  match reg.get env.aggregate with
  | none => some []
  | some entity =>
    match entity.graphEdge with
    | some spec => reifiedEdgeMutations spec env
    | none =>
      if entity.graphNode = "" then some []
      else
        match env.verb with
        | .deleted => some [.nodeDelete entity.graphNode env.aggId]
        | .created | .updated => do
          let edges ← entity.edges.mapM (edgeMutation reg entity env (nodeProps env))
          return .nodeUpsert entity.graphNode env.aggId (nodeProps env) env.version ::
            edges

/-- The document of an event: the declared fields its payload has and the structural
columns. -/
def searchDoc (entity : Entity) (env : Envelope) : Fields :=
  let doc := put (put (pick entity.search.fields env.payload) columnId
    (.str env.aggId)) columnTenant (.str env.tenantId)
  let stamped := if env.scopeId = "" then doc
    else put doc columnScope (.str env.scopeId)
  put stamped columnVersion (.num env.version)

def searchApplier (reg : Registry) (env : Envelope) : List Mutation :=
  match reg.get env.aggregate with
  | none => []
  | some entity =>
    if entity.search.index = "" then []
    else
      match env.verb with
      | .deleted => [.docDeindex entity.search.index env.aggId env.version]
      | .created | .updated =>
        [.docIndex entity.search.index env.aggId (searchDoc entity env) env.version]

theorem lookup_pick {columns : List String} {props : Fields} {column : String}
    (h : column ∈ columns) : (pick columns props).lookup column = props.lookup column := by
  induction columns with
  | nil => simp at h
  | cons f rest ih =>
    rcases eq_or_ne column f with rfl | hne
    · cases hf : props.lookup column with
      | some v => simp [pick, hf]
      | none =>
        have hrest : (pick rest props).lookup column = none := by
          rw [List.lookup_eq_none_iff]
          intro e he
          obtain ⟨g, -, hg⟩ := List.mem_filterMap.mp he
          obtain ⟨v, hv, rfl⟩ := Option.map_eq_some_iff.mp hg
          rw [bne_iff_ne]
          rintro rfl
          simp [hf] at hv
        simpa [pick, hf] using hrest
    · have hbeq : (column == f) = false := by simpa using hne
      rw [← ih ((List.mem_cons.mp h).resolve_left hne)]
      cases hf : props.lookup f with
      | some v => simp [pick, hf, List.lookup_cons, hbeq]
      | none => simp [pick, hf]

theorem lookup_searchDoc_scope {entity : Entity} {env : Envelope} (hscope : env.scopeId = "")
    (h : columnScope ∈ entity.search.fields) :
    (searchDoc entity env).lookup columnScope = env.payload.lookup columnScope := by
  have hversion : columnScope ≠ columnVersion := by decide
  have htenant : columnScope ≠ columnTenant := by decide
  have hid : columnScope ≠ columnId := by decide
  simp only [searchDoc, if_pos hscope, lookup_put, if_neg hversion, if_neg htenant, if_neg hid]
  exact lookup_pick h

end Fabriq.Projection.Applier
