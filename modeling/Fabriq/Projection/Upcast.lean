import Mathlib.Data.List.Forall2
import Fabriq.Exec.Outbox
import Fabriq.Projection.Applier

namespace Fabriq.Projection.Upcast

open Core.Schema Core.Value Exec.Outbox Lib Projection.Applier List Option

def eventType (aggregate : String) : Verb → String
  | .created => aggregate ++ "." ++ "created"
  | .updated => aggregate ++ "." ++ "updated"
  | .deleted => aggregate ++ "." ++ "deleted"

/-- The migration of one event type's payload to the next version of its shape. -/
structure Upcaster where
  type : String
  fromVersion : Int
  fn : Json → Option Json

abbrev Chain := List Upcaster

def Chain.step (c : Chain) (type : String) (version : Int) : Option Upcaster :=
  c.find? fun u => u.type == type && u.fromVersion == version

/-- The loop of `Apply`, with the number of rounds it may take. -/
def migrate (c : Chain) (type : String) : Nat → Int → Json → Option (Int × Json)
  | 0, version, payload => some (version, payload)
  | rounds + 1, version, payload =>
    match c.step type version with
    | none => some (version, payload)
    | some u => (u.fn payload).bind fun migrated => migrate c type rounds (version + 1) migrated

def Chain.apply (c : Chain) (type : String) (version : Int) (payload : Json) :
    Option (Int × Json) :=
  migrate c type c.length version payload

/-- `decodePayload`: null leaves the map empty, and nothing else but an object decodes. -/
def decodePayload : Json → Option Fields
  | .obj fields => some fields
  | .null => some []
  | _ => none

/-- The mutations `Engine.handle` applies for an event: none when the payload cannot be
migrated or the applier refuses it. -/
def liveMutations (applier : Envelope → Option (List Mutation)) (c : Chain) (e : Event) :
    List Mutation :=
  (do
    let migrated ← c.apply (eventType e.aggregate e.verb) e.payloadSchemaVersion (.obj e.payload)
    let payload ← decodePayload migrated.2
    applier { e.toEnvelope with payload := payload }).getD []

def snapshotEnvelope (tenant aggregate : String) (vals : Fields) : Option Envelope :=
  let id := stringProp vals columnId
  let version : Int := match vals.lookup columnVersion with
    | some (.num q) => if q.den = 1 then q.num else 0
    | _ => 0
  if id = "" ∨ version < 1 then none
  else some ⟨tenant, "", aggregate, id, version, .updated, vals⟩

def rebuiltMutations (applier : Envelope → Option (List Mutation)) (tenant aggregate : String)
    (vals : Fields) : List Mutation :=
  ((snapshotEnvelope tenant aggregate vals).bind applier).getD []

structure Row where
  tenant : String
  id : String
  version : Int
  vals : Fields
  id_ne : id ≠ ""
  version_pos : 1 ≤ version
  idColumn : vals.lookup columnId = some (.str id)
  versionColumn : vals.lookup columnVersion = some (.num version)

/-- The event that wrote a row, as published: the executor, the materialisation of documents and
`Repair` all stamp 1 as the version of the shape. -/
def published (row : Row) (payload : Fields) (aggregate : String) (verb : Verb) (id : String)
    (micros : Int) (traceparent : String) : Event where
  tenantId := row.tenant
  scopeId := ""
  aggregate := aggregate
  aggId := row.id
  version := row.version
  verb := verb
  payload := payload
  id := id
  micros := micros
  payloadSchemaVersion := 1
  traceparent := traceparent

def SameFields (a b : Fields) : Prop :=
  ∀ column, a.lookup column = b.lookup column

/-- Equal mutations, where the properties of a node are compared as maps. -/
def SameMutation : Mutation → Mutation → Prop
  | .nodeUpsert label id props version, .nodeUpsert label' id' props' version' =>
    label = label' ∧ id = id' ∧ version = version' ∧ SameFields props props'
  | m, m' => m = m'

def SameMutations (live rebuilt : List Mutation) : Prop :=
  List.Forall₂ SameMutation live rebuilt

/-- The chain takes a payload that is stamped 1 to the columns of a row. -/
def Chain.Yields (c : Chain) (type : String) (payload vals : Fields) : Prop :=
  ∃ migrated, c.apply type 1 (.obj payload) = some migrated ∧
    ∃ fields, decodePayload migrated.2 = some fields ∧ SameFields fields vals

variable {c : Chain} {type : String}

variable {reg : Registry} {a b : Fields} {env : Envelope}

theorem stringProp_congr (h : SameFields a b) (key : String) :
    stringProp a key = stringProp b key := by
  rw [stringProp, h key, stringProp]

theorem pick_congr (h : SameFields a b) (columns : List String) :
    pick columns a = pick columns b := by
  exact filterMap_congr fun f _ => by rw [h f]

theorem sameMutation_refl (m : Mutation) : SameMutation m m := by
  cases m with
  | nodeUpsert => exact ⟨rfl, rfl, rfl, fun _ => rfl⟩
  | _ => rfl

theorem sameMutations_refl (muts : List Mutation) : SameMutations muts muts :=
  forall₂_same.mpr fun m _ => sameMutation_refl m

theorem edgeMutation_congr (h : SameFields a b) (reg : Registry) (entity : Entity)
    (env : Envelope) (verb : Verb) :
    edgeMutation reg entity { env with verb := verb, payload := a } a =
      edgeMutation reg entity { env with payload := b } b := by
  funext edge
  simp only [edgeMutation, stringProp_congr h]

theorem graphApplier_same (h : SameFields a b) (hscope : env.scopeId = "")
    (hupdated : env.verb = .updated) {verb : Verb} (hverb : verb ≠ .deleted) :
    SameMutations ((graphApplier reg { env with verb := verb, payload := a }).getD [])
      ((graphApplier reg { env with payload := b }).getD []) := by
  obtain ⟨tenantId, scopeId, aggregate, aggId, version, _, _⟩ := env
  subst hscope hupdated
  cases hentity : reg.get aggregate with
  | none =>
    simp only [graphApplier, hentity]
    exact sameMutations_refl _
  | some entity =>
    cases hkind : entity.graphEdge with
    | some spec =>
      have hreified : reifiedEdgeMutations spec ⟨tenantId, "", aggregate, aggId, version, verb, a⟩ =
            reifiedEdgeMutations spec ⟨tenantId, "", aggregate, aggId, version, .updated, b⟩ := by
        cases verb with
        | deleted => exact absurd rfl hverb
        | created | updated =>
          simp only [reifiedEdgeMutations, stringProp_congr h, pick_congr h]
      simp only [graphApplier, hentity, hkind, hreified]
      exact sameMutations_refl _
    | none =>
      have hedges := edgeMutation_congr h reg entity
        ⟨tenantId, "", aggregate, aggId, version, .updated, b⟩ verb
      by_cases hlabel : entity.graphNode = ""
      · simp only [graphApplier, hentity, hkind, if_pos hlabel]
        exact sameMutations_refl _
      · cases verb with
        | deleted => exact absurd rfl hverb
        | created | updated =>
          simp only [graphApplier, hentity, hkind, if_neg hlabel, nodeProps, if_true, hedges]
          cases entity.edges.mapM (edgeMutation reg entity
            ⟨tenantId, "", aggregate, aggId, version, .updated, b⟩ b) with
          | none => exact .nil
          | some edges => exact .cons ⟨rfl, rfl, rfl, h⟩ (sameMutations_refl edges)

theorem searchApplier_same (h : SameFields a b) (hupdated : env.verb = .updated) {verb : Verb}
    (hverb : verb ≠ .deleted) :
    searchApplier reg { env with verb := verb, payload := a } =
      searchApplier reg { env with payload := b } := by
  have hdoc : ∀ entity, searchDoc entity { env with verb := verb, payload := a } =
      searchDoc entity { env with payload := b } := fun entity => by
    simp only [searchDoc, pick_congr h]
  unfold searchApplier
  split
  · rename_i hentity
    have hnone : reg.get _ = none := hentity
    simp only [hnone]
  · rename_i entity hentity
    have hsome : reg.get _ = some entity := hentity
    simp only [hsome, hdoc]
    cases verb with
    | deleted => exact absurd rfl hverb
    | created | updated => rw [hupdated]

variable {row : Row} {payload : Fields} {aggregate id traceparent : String} {verb : Verb}
  {micros : Int} {applier : Envelope → Option (List Mutation)}

def Row.snapshot (row : Row) (aggregate : String) : Envelope :=
  ⟨row.tenant, "", aggregate, row.id, row.version, .updated, row.vals⟩

theorem rebuiltMutations_row : rebuiltMutations applier row.tenant aggregate row.vals =
      (applier (row.snapshot aggregate)).getD [] := by
  have hid : stringProp row.vals columnId = row.id := by rw [stringProp, row.idColumn]
  have hsnap : snapshotEnvelope row.tenant aggregate row.vals = some (row.snapshot aggregate) := by
    have hpos : ¬ (row.id = "" ∨ row.version < 1) := by
      have hversion := row.version_pos
      rintro (hempty | hlt)
      · exact row.id_ne hempty
      · omega
    simp only [snapshotEnvelope, hid, row.versionColumn, Rat.den_intCast, Rat.num_intCast,
      if_true, if_neg hpos]
    rfl
  rw [rebuiltMutations, hsnap]
  rfl

theorem liveMutations_eq :
    liveMutations applier c (published row payload aggregate verb id micros traceparent) =
      ((c.apply (eventType aggregate verb) 1 (.obj payload)).bind fun migrated =>
        (decodePayload migrated.2).bind fun fields =>
          applier { row.snapshot aggregate with verb := verb, payload := fields }).getD [] :=
  rfl

def nodeEntity (aggregate : String) : Entity where
  name := aggregate
  columns := []
  graphNode := "Node"
  edges_columns := edges_noColumns
  search_columns := search_noColumns

def nodeRegistry (aggregate : String) : Registry :=
  [nodeEntity aggregate]

theorem graphApplier_nodeRegistry {fields : Fields} (hverb : verb ≠ .deleted) :
    graphApplier (nodeRegistry aggregate)
        { row.snapshot aggregate with verb := verb, payload := fields } =
      some [.nodeUpsert "Node" row.id fields row.version] := by
  have hget : (nodeRegistry aggregate).get aggregate = some (nodeEntity aggregate) := by
    simp [nodeRegistry, nodeEntity, Registry.get]
  cases verb with
  | deleted => exact absurd rfl hverb
  | created | updated =>
    simp only [graphApplier, Row.snapshot, hget]
    rfl

def renamed : Upcaster where
  type := "asset.updated"
  fromVersion := 1
  fn := fun payload =>
    match payload with
    | .obj fields => some (.obj (Assoc.put (Assoc.drop fields "name") "title"
        ((fields.lookup "name").getD .null)))
    | _ => none

def titledAsset : Row where
  tenant := "acme"
  id := "a1"
  version := 2
  vals := [("id", .str "a1"), ("version", .num (2 : Int)), ("title", .str "pump")]
  id_ne := by decide
  version_pos := by decide
  idColumn := rfl
  versionColumn := rfl

/-- The payload as it was before the rename. -/
def namedPayload : Fields :=
  [("id", .str "a1"), ("version", .num (2 : Int)), ("name", .str "pump")]

theorem renamed_yields : Chain.Yields [renamed] "asset.updated" namedPayload titledAsset.vals := by
  refine ⟨_, rfl, _, rfl, fun column => ?_⟩
  change lookup column
    [("title", Json.str "pump"), ("id", .str "a1"), ("version", .num (2 : Int))] = _
  by_cases htitle : column = "title"
  · subst htitle
    rfl
  · simp only [titledAsset, lookup_cons, lookup_nil, beq_false_of_ne htitle]

end Fabriq.Projection.Upcast
