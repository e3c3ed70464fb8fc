import Mathlib.Data.List.Induction
import Fabriq.Exec.CommandStore
import Fabriq.Projection.Applier

namespace Fabriq.Projection.SearchScope

open Core.Schema Exec.CommandStore Lib Projection.Applier List

structure Doc where
  tenant : String
  index : String
  id : String
  version : Int
  fields : Fields

def Doc.isAt (d : Doc) (tenant index id : String) : Bool :=
  d.tenant == tenant && d.index == index && d.id == id

/-- One operation of a bulk request: a stored document of a newer version stays. -/
def applyMutation (tenant : String) (docs : List Doc) : Mutation → List Doc
  | .docIndex index id doc version =>
    if docs.any fun d => d.isAt tenant index id && decide (version < d.version) then docs
    else ⟨tenant, index, id, version, doc⟩ :: docs.filter fun d => !d.isAt tenant index id
  | .docDeindex index id version =>
    docs.filter fun d => !(d.isAt tenant index id && decide (d.version ≤ version))
  | _ => docs

/-- `outboxScanRow.envelope`: the event the relay publishes for a row. -/
def envelope (row : OutboxRow) : Envelope where
  tenantId := row.tenantId
  scopeId := ""
  aggregate := row.aggregate
  aggId := row.aggId
  version := row.version
  verb := row.verb
  payload := row.payload

def handle (reg : Registry) (docs : List Doc) (env : Envelope) : List Doc :=
  (searchApplier reg env).foldl (applyMutation env.tenantId) docs

/-- The indexes after a delivery of outbox rows, in any order and any number of times. -/
def deliver (reg : Registry) (delivery : List OutboxRow) : List Doc :=
  delivery.foldl (fun docs row => handle reg docs (envelope row)) []

/-- The soft filter of `Search`: a scoped read sees documents of its scope and documents
without one. -/
def scopeFilter (scope : String) (doc : Fields) : Bool :=
  scope == "" ||
    match doc.lookup columnScope with
    | none | some .null => true
    | some (.str s) => s == scope
    | some _ => false

/-- `Search`; `hit` is the text query with its structured filter. -/
def search (docs : List Doc) (reader : Caller) (entity : Entity) (hit : Fields → Bool) : List Doc :=
  docs.filter fun d => d.tenant == reader.tenant && d.index == entity.search.index &&
    hit d.fields && scopeFilter reader.scope d.fields

def shows (entity : Entity) (env : Envelope) (d : Doc) : Prop :=
  env.verb ≠ .deleted ∧ d.tenant = env.tenantId ∧ d.index = entity.search.index ∧
    d.id = env.aggId ∧ d.version = env.version ∧
    d.fields = searchDoc entity (envelope (outboxRow env))

def sameAggregate (a b : Envelope) : Bool :=
  a.tenantId == b.tenantId && a.aggregate == b.aggregate && a.aggId == b.aggId

/-- What a scoped search finds shows a committed change, of an aggregate to which no change was
committed under another scope. -/
def ScopeIsolated (x : Executor) (s : Plane) (docs : List Doc) : Prop :=
  ∀ reader entity hit, ∀ d ∈ search docs reader entity hit, reader.scope ≠ "" →
    (∃ env ∈ s.changes, ∃ written, x.reg.get env.aggregate = some written ∧
      shows written env d) ∧
    ∀ env ∈ s.changes, ∀ written, x.reg.get env.aggregate = some written →
      shows written env d → ∀ other ∈ s.changes, sameAggregate other env = true →
        other.scopeId = "" ∨ other.scopeId = reader.scope

def notes : Executor where
  reg := [{ name := "note", columns := ["id", "tenant_id", "version", "scope_id", "body"],
            search := ⟨"notes", ["body"]⟩ }]
  coerce := fun _ vals => some vals

def declaredNotes : Executor where
  reg := [{ name := "note", columns := ["id", "tenant_id", "version", "scope_id", "body"],
            search := ⟨"notes", ["body", "scope_id"]⟩ }]
  coerce := fun _ vals => some vals

def writeNote (scope : String) (op : Op) : Request :=
  ⟨⟨"acme", scope⟩, "new", ⟨"note", op, "n1", some [("body", .str "hello")], none⟩⟩

def mixedScopes : List (List Request) :=
  [[writeNote "north" .create], [writeNote "" .update]]

/-- The scope is in the row and in the envelope, but not in the outbox row: the document is
shared.  Where the payload carries it, an unscoped update takes it away. -/
theorem unscopedDoc_not_scopeIsolated :
    ¬ ScopeIsolated notes (runBatches notes [[writeNote "north" .create]])
        (deliver notes.reg (runBatches notes [[writeNote "north" .create]]).db.outbox) ∧
      ¬ ScopeIsolated declaredNotes (runBatches declaredNotes mixedScopes)
        (deliver declaredNotes.reg (runBatches declaredNotes mixedScopes).db.outbox) := by
  constructor
  · intro h
    obtain ⟨-, hscope⟩ := h ⟨"acme", "south"⟩
      { name := "note", columns := [], search := ⟨"notes", []⟩ } (fun _ => true) _
      (mem_singleton.mpr rfl) (by decide)
    have hother := hscope _ (mem_singleton.mpr rfl) _ rfl ⟨by decide, rfl, rfl, rfl, rfl, rfl⟩ _
      (mem_singleton.mpr rfl) (by decide)
    revert hother
    decide
  · intro h
    obtain ⟨-, hscope⟩ := h ⟨"acme", "south"⟩
      { name := "note", columns := [], search := ⟨"notes", []⟩ } (fun _ => true) _
      (mem_singleton.mpr rfl) (by decide)
    have hother := hscope _ (mem_cons_of_mem _ (mem_singleton.mpr rfl)) _ rfl
      ⟨by decide, rfl, rfl, rfl, rfl, rfl⟩ _ mem_cons_self (by decide)
    revert hother
    decide

/-- Every command issued under a scope is on an entity that declares the scope column
among its search fields, or is not searchable. -/
def scopeDeclared (x : Executor) (batches : List (List Request)) : Bool :=
  batches.all fun batch => batch.all fun r => r.caller.scope == "" ||
    (x.reg.get r.cmd.entity).all fun entity =>
      entity.search.index == "" || entity.search.fields.contains columnScope

/-- The commands on an aggregate that one of them wrote under a scope run under that scope, deletes
apart. -/
def OneScope (s : Plane) : Prop :=
  ∀ a ∈ s.changes, ∀ b ∈ s.changes, sameAggregate a b = true → b.verb ≠ .deleted →
    a.scopeId ≠ "" → b.scopeId = a.scopeId

variable {x : Executor} {reg : Registry} {docs : List Doc} {row : OutboxRow} {d : Doc}

theorem mem_handle (hd : d ∈ handle reg docs (envelope row)) :
    d ∈ docs ∨ ∃ entity, reg.get row.aggregate = some entity ∧ row.verb ≠ .deleted ∧
      entity.search.index ≠ "" ∧ d = ⟨row.tenantId, entity.search.index, row.aggId, row.version,
        searchDoc entity (envelope row)⟩ := by
  unfold handle searchApplier at hd
  split at hd
  · exact .inl hd
  · rename_i entity hentity
    split_ifs at hd with hindex
    · exact .inl hd
    · split at hd
      · exact .inl (mem_of_mem_filter hd)
      all_goals
        rename_i hverb
        simp only [foldl_cons, foldl_nil, applyMutation] at hd
        split_ifs at hd
        · exact .inl hd
        · rcases mem_cons.mp hd with rfl | hd
          · refine Or.inr ⟨entity, hentity, ?_, hindex, rfl⟩
            have hverb' : row.verb = _ := hverb
            simp [hverb']
          · exact .inl (mem_of_mem_filter hd)

theorem mem_deliver {delivery : List OutboxRow} (hd : d ∈ deliver reg delivery) :
    ∃ row ∈ delivery, ∃ entity, reg.get row.aggregate = some entity ∧ row.verb ≠ .deleted ∧
      entity.search.index ≠ "" ∧ d = ⟨row.tenantId, entity.search.index, row.aggId, row.version,
        searchDoc entity (envelope row)⟩ := by
  unfold deliver at hd
  induction delivery using List.reverseRecOn with
  | nil => simp at hd
  | append_singleton before row ih =>
    rw [foldl_append] at hd
    rcases mem_handle hd with hd | hnew
    · obtain ⟨old, hold, hrow⟩ := ih hd
      exact ⟨old, mem_append_left _ hold, hrow⟩
    · exact ⟨row, by simp, hnew⟩

structure Recorded (x : Executor) (s : Plane) : Prop where
  outbox : s.db.outbox = s.changes.map outboxRow
  stamped : ∀ env ∈ s.changes, env.verb ≠ .deleted → env.scopeId ≠ "" →
    ∀ entity, x.reg.get env.aggregate = some entity → entity.search.index ≠ "" →
      columnScope ∈ entity.search.fields ∧
        env.payload.lookup columnScope = some (.str env.scopeId)

theorem recorded_runBatches (x : Executor) {batches : List (List Request)}
    (hdeclared : scopeDeclared x batches) : Recorded x (runBatches x batches) := by
  refine runBatches_invariant (P := Recorded x) ⟨rfl, by simp [Plane.empty]⟩ ?_
  rintro s p t ⟨batch, hbatch, r, hr, hprepare⟩ h hnext
  obtain ⟨env, happly, hchanges⟩ := applyNext_eq_ok hnext
  have henv := (apply_eq_ok happly).env_eq
  have houtbox := (apply_eq_ok happly).outbox
  obtain ⟨hentity, hscope, hvals⟩ := prepare_eq_ok hprepare
  refine ⟨by rw [houtbox, hchanges, h.outbox, map_append]; rfl, ?_⟩
  intro e he
  rw [hchanges, mem_append, mem_singleton] at he
  rcases he with he | rfl
  · exact h.stamped e he
  · intro hverb hscoped entity hget hindex
    rw [henv] at hverb hscoped hget ⊢
    have hname : (change s.db p).aggregate = r.cmd.entity := Registry.name_of_get hentity
    rw [hname, hentity] at hget
    cases hget
    have hcaller : r.caller.scope ≠ "" := hscope ▸ hscoped
    have hfield : columnScope ∈ p.entity.search.fields := by
      have hr' := all_eq_true.mp (all_eq_true.mp hdeclared batch hbatch) r hr
      simpa [hcaller, hentity, hindex] using hr'
    refine ⟨hfield, ?_⟩
    cases hp : p.vals with
    | none =>
      rw [change, hvals hp] at hverb
      exact absurd rfl hverb
    | some vals =>
      have hcolumn : p.scopeId ≠ "" ∧ p.entity.hasColumn columnScope :=
        ⟨hscoped, by simpa [Entity.hasColumn] using p.entity.search_columns _ hfield⟩
      simp [change, newEnvelope, Prepared.stampedValues, hp, if_pos hcolumn, Assoc.lookup_put]

/-- In every run of declared scopes in which an aggregate keeps its scope, and for every delivery
of its events, search is isolated. -/
theorem scopeIsolated_of_scopeDeclared (x : Executor) {batches : List (List Request)}
    {delivery : List OutboxRow} (hdeclared : scopeDeclared x batches = true)
    (hone : OneScope (runBatches x batches))
    (hdelivery : ∀ row ∈ delivery, row ∈ (runBatches x batches).db.outbox) :
    ScopeIsolated x (runBatches x batches) (deliver x.reg delivery) := by
  have hrecorded := recorded_runBatches x hdeclared
  intro reader entity hit d hd hreader
  obtain ⟨hdoc, hfilter⟩ := mem_filter.mp hd
  obtain ⟨row, hrow, written, hwritten, hverb, hindex, rfl⟩ := mem_deliver hdoc
  have houtbox := hdelivery row hrow
  rw [hrecorded.outbox] at houtbox
  obtain ⟨env, henv, rfl⟩ := mem_map.mp houtbox
  refine ⟨⟨env, henv, written, hwritten, hverb, rfl, rfl, rfl, rfl, rfl⟩, ?_⟩
  intro shown hshown entity' hget hshows other hother hsame
  by_cases hscope : other.scopeId = ""
  · exact .inl hscope
  · right
    obtain ⟨hverb', -, hindex', -, -, hfields⟩ := hshows
    -- The change that the document shows was made under the same scope.
    have hkept : shown.scopeId = other.scopeId :=
      hone other hother shown hshown hsame hverb' hscope
    obtain ⟨hfield, hpayload⟩ := hrecorded.stamped shown hshown hverb' (hkept ▸ hscope) entity'
      hget (hindex' ▸ hindex)
    have hlookup : (searchDoc entity' (envelope (outboxRow shown))).lookup columnScope =
        some (.str shown.scopeId) := (lookup_searchDoc_scope rfl hfield).trans hpayload
    have hvisible := (Bool.and_eq_true_iff.mp hfilter).2
    rw [hfields, scopeFilter, hlookup, hkept] at hvisible
    simpa [hreader] using hvisible

def editedNotes : List (List Request) :=
  [[writeNote "north" .create], [writeNote "north" .update]]

theorem scopeIsolated_declaredNotes : (search (deliver declaredNotes.reg
        (runBatches declaredNotes editedNotes).db.outbox) ⟨"acme", "north"⟩
        { name := "note", columns := [], search := ⟨"notes", []⟩ } fun _ => true).length = 1 ∧
      ScopeIsolated declaredNotes (runBatches declaredNotes editedNotes)
        (deliver declaredNotes.reg (runBatches declaredNotes editedNotes).db.outbox) := by
  refine ⟨by decide, scopeIsolated_of_scopeDeclared _ (by decide) ?_ fun _ h => h⟩
  intro a ha b hb _ _ _
  have hnorth : ∀ env ∈ (runBatches declaredNotes editedNotes).changes, env.scopeId = "north" := by
    decide
  rw [hnorth a ha, hnorth b hb]

end Fabriq.Projection.SearchScope
