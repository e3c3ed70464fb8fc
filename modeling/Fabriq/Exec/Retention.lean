import Fabriq.Exec.ErasureAuthority
import Fabriq.Exec.Repair

namespace Fabriq.Exec.Retention

open Core.Schema Core.Value Exec.CommandStore Exec.ErasureAuthority Exec.OutboxVersions Exec.Repair
open List
open Lib.Machine Lib.Result Lib.Upsert

structure SideRow where
  identity : Identity
  scope : String
  content : Fields

/-- A call of `Repair` between the read of the row and the write of its event. -/
structure Reading where
  tenant : String
  drift : Drift
  vals : Fields

structure World where
  db : Db
  embeddings : List SideRow
  geometries : List SideRow
  readings : List Reading

def World.start : World :=
  ⟨.empty, [], [], []⟩

/-- The command plane, and what `->>` makes of a value that is not a string. -/
structure Store where
  executor : Executor
  text : Json → String

def exec (st : Store) (w : World) (batch : List Request) : World :=
  match execBatch st.executor ⟨w.db, []⟩ batch with
  | .ok after => { w with db := after.db }
  | .error _ => w

/-- The write of a document: the context has no scope, and the scope of the document is
stamped as a column. -/
def document (tenant scope docId : String) (entity : Entity) (vals : Fields) : Prepared where
  op := .upsert
  expectedVersion := none
  entity := entity
  tenantId := tenant
  scopeId := ""
  aggId := docId
  vals :=
    let columns := vals.filter fun field => entity.hasColumn field.1
    some (if scope ≠ "" ∧ entity.hasColumn columnScope then
      Fabriq.Lib.Assoc.put columns columnScope (.str scope) else columns)

/-- The transaction of `materializeOne`: no fence, and the event says updated even of a new
row. -/
def materializeOne (db : Db) (p : Prepared) : Except Error Db := do
  let current := currentVersion db p
  let next := current + 1
  let vals := p.stampedValues next
  let written ← applyChange db p (if current = 0 then .create else .update) next vals
  appendOutbox written (newEnvelope p next vals .updated)

/-- Only an entity of kind document has documents (`splitDocID`). -/
def materialize (st : Store) (w : World) (tenant scope docId entity : String) (vals : Fields) :
    World :=
  match st.executor.reg.get entity with
  | none => w
  | some ent =>
    if ent.isAggregate then w
    else
      match materializeOne w.db (document tenant scope docId ent vals) with
      | .ok db => { w with db := db }
      | .error _ => w

def fenced (w : World) (k : Identity) : Bool :=
  w.db.tombstones.contains k

/-- The `Upsert` of an embedding or of a geometry, after the fence. -/
def upsertSide (table : List SideRow) (row : SideRow) : List SideRow :=
  upsert SideRow.identity (fun _ new => new) table row

def upsertEmbedding (w : World) (row : SideRow) : World :=
  if fenced w row.identity then w else { w with embeddings := upsertSide w.embeddings row }

def upsertGeometry (w : World) (row : SideRow) : World :=
  if fenced w row.identity then w else { w with geometries := upsertSide w.geometries row }

def repairRead (st : Store) (w : World) (tenant : String) (drift : Drift) : World :=
  match rowValues st.executor.reg w.db.rows tenant drift.entity drift.aggId with
  | some vals => { w with readings := ⟨tenant, drift, vals⟩ :: w.readings }
  | none => w

def repairWrite (db : Db) (row : OutboxRow) : Db :=
  { db with outbox := upsertOutbox db.outbox row }

/-- `COALESCE(payload->>'scope_id','')`. -/
def scopeText (st : Store) (payload : Fields) : String :=
  match payload.lookup columnScope with
  | none | some .null => ""
  | some (.str s) => s
  | some value => st.text value

def inScope (st : Store) (scope : String) (row : OutboxRow) : Bool :=
  row.payload.isEmpty || scopeText st row.payload == scope

/-- The checks of `storeTx.EraseAggregate` on an identity without a tombstone. -/
def erasable (st : Store) (w : World) (k : Identity) (r : ErasureRequest) : Bool :=
  (match w.db.rows.filter fun row => rowIdentity row == k with
    | [] => r.expectedVersion == 0
    | [row] => row.scope == r.scopeId && row.version == r.expectedVersion
    | _ => false) &&
  (w.db.outbox.all fun row => eventIdentity row != k || inScope st r.scopeId row) &&
  ([w.embeddings, w.geometries].all fun table =>
    table.all fun side => side.identity != k || side.scope == r.scopeId)

def eraseSide (table : List SideRow) (k : Identity) (scope : String) : List SideRow :=
  table.filter fun side => !(side.identity == k && side.scope == scope)

def erased (st : Store) (w : World) (k : Identity) (r : ErasureRequest) : World where
  db :=
    { rows := w.db.rows.filter fun row => !(rowIdentity row == k && row.scope == r.scopeId)
      outbox := w.db.outbox.map fun row =>
        if eventIdentity row == k && inScope st r.scopeId row then { row with payload := [] }
        else row
      tombstones := k :: w.db.tombstones }
  embeddings := eraseSide w.embeddings k r.scopeId
  geometries := eraseSide w.geometries k r.scopeId
  readings := w.readings

/-- `EraseAggregate` once authority is given.  An identity with a tombstone is left as it is,
whether the answer is the receipt or a conflict. -/
def eraseAggregate (st : Store) (w : World) (ctx : Context) (r : ErasureRequest) : World :=
  let k := (ctx.tenant, r.entity, r.aggregateId)
  if r.validate ctx && (st.executor.reg.get r.entity).any (fun ent => ent.isAggregate) &&
      !fenced w k && erasable st w k r then erased st w k r
  else w

inductive Action
  | exec (batch : List Request)
  | materialize (tenant scope docId entity : String) (vals : Fields)
  | upsertEmbedding (row : SideRow)
  | upsertGeometry (row : SideRow)
  | repairRead (tenant : String) (drift : Drift)
  | repairWrite (i : Nat)
  | repairZombie (tenant : String) (drift : Drift)
  | erase (ctx : Context) (r : ErasureRequest)

def step (st : Store) (w : World) : Action → Option World
  | .exec batch => some (exec st w batch)
  | .materialize tenant scope docId entity vals =>
    some (materialize st w tenant scope docId entity vals)
  | .upsertEmbedding row => some (upsertEmbedding w row)
  | .upsertGeometry row => some (upsertGeometry w row)
  | .repairRead tenant drift => some (repairRead st w tenant drift)
  | .repairWrite i => (w.readings[i]?).map fun r =>
    { w with
      db := repairWrite w.db (rowEvent r.tenant r.drift r.vals)
      readings := w.readings.eraseIdx i }
  | .repairZombie tenant drift =>
    some { w with db := repairWrite w.db (zombieEvent tenant drift) }
  | .erase ctx r => some (eraseAggregate st w ctx r)

structure Erased (db : Db) (k : Identity) : Prop where
  rows : ∀ r ∈ db.rows, rowIdentity r ≠ k
  outbox : ∀ row ∈ db.outbox, eventIdentity row = k → row.payload = []

def sites : Store where
  executor :=
    { reg := [{ name := "site", columns := ["id", "name"] }], coerce := fun _ vals => some vals }
  text := fun _ => ""

def siteCreated : Action :=
  .exec [⟨⟨"acme", ""⟩, "new", ⟨"site", .create, "s1", some [("name", .str "North")], none⟩⟩]

def siteErased : Action :=
  .erase ⟨"acme", ""⟩ ⟨"site", "s1", "", 1, "expired"⟩

def lateRepair : List Action :=
  [siteCreated, .repairRead "acme" ⟨"site", "s1", 1, 0⟩, siteErased, .repairWrite 0]

theorem lateRepair_restores : ∃ t, run (step sites) .start lateRepair = some t ∧
      ("acme", "site", "s1") ∈ t.db.tombstones ∧ ¬ Erased t.db ("acme", "site", "s1") := by
  refine ⟨_, rfl, by decide, fun h => ?_⟩
  have hempty := h.outbox _ mem_cons_self rfl
  exact absurd (congrArg List.length hempty) (by decide)

/-- A repair does not write what it read of an identity that has been erased since. -/
def Fenced (w : World) : Action → Prop
  | .repairWrite i => ∀ r ∈ w.readings[i]?,
      (r.tenant, r.drift.entity, r.drift.aggId) ∉ w.db.tombstones
  | _ => True

instance (w : World) : ∀ a, Decidable (Fenced w a)
  | .repairWrite i => inferInstanceAs (Decidable (∀ r ∈ w.readings[i]?,
      (r.tenant, r.drift.entity, r.drift.aggId) ∉ w.db.tombstones))
  | .exec _ | .materialize _ _ _ _ _ | .upsertEmbedding _ | .upsertGeometry _
  | .repairRead _ _ | .repairZombie _ _ | .erase _ _ => isTrue trivial

def Inv (st : Store) (db : Db) : Prop :=
  ∀ k ∈ db.tombstones,
    (∃ ent, st.executor.reg.get k.2.1 = some ent ∧ ent.isAggregate = true) ∧ Erased db k

variable {st : Store} {db after : Db} {p : Prepared}

theorem Inv.write (h : Inv st db) (htombstones : after.tombstones = db.tombstones)
    (hrows : ∀ r ∈ after.rows, r ∈ db.rows ∨ rowIdentity r ∉ db.tombstones)
    (houtbox : ∀ row ∈ after.outbox, row ∈ db.outbox ∨ row.payload = [] ∨
      eventIdentity row ∉ db.tombstones) : Inv st after := by
  intro k hk
  rw [htombstones] at hk
  obtain ⟨hagg, herased⟩ := h k hk
  refine ⟨hagg, fun r hr hid => ?_, fun row hrow hid => ?_⟩
  · rcases hrows r hr with hold | hnew
    · exact herased.rows r hold hid
    · exact hnew (hid ▸ hk)
  · rcases houtbox row hrow with hold | hempty | hnew
    · exact herased.outbox row hold hid
    · exact hempty
    · exact absurd (hid ▸ hk) hnew

theorem Inv.applied {env : Envelope} (h : Inv st db) (happlied : Applied db p after env) :
    Inv st after := by
  have hident : eventIdentity (outboxRow env) = preparedIdentity p := by
    rw [happlied.env_eq]
    rfl
  refine h.write happlied.tombstones (fun r hr => ?_) fun row hrow => ?_
  · refine (happlied.rows.mem hr).imp_right ?_
    rintro ⟨vals, rfl⟩
    exact happlied.unfenced
  · rw [happlied.outbox] at hrow
    refine (mem_append.mp hrow).imp_right fun hnew => .inr ?_
    rw [mem_singleton.mp hnew, hident]
    exact happlied.unfenced

theorem inv_exec {w : World} (batch : List Request) (h : Inv st w.db) :
    Inv st (exec st w batch).db := by
  unfold exec
  split
  · rename_i after hexec
    obtain ⟨prepared, -, hfold⟩ := bind_eq_ok.mp hexec
    refine foldlM_invariant (P := fun s => Inv st s.db) (fun s p t _ hs hnext => ?_) h hfold
    obtain ⟨env, happly, -⟩ := applyNext_eq_ok hnext
    exact hs.applied (apply_eq_ok happly)
  · exact h

variable {op : Op} {vals : Option Fields} {version : Int}

theorem mem_of_applyChange {r : StoredRow} (h : applyChange db p op version vals = .ok after)
    (hr : r ∈ after.rows) : r ∈ db.rows ∨ rowIdentity r = preparedIdentity p := by
  revert h
  fun_cases applyChange db p op version vals <;> rintro ⟨⟩
  · exact .inl (mem_of_mem_filter hr)
  · refine (mem_append.mp hr).imp_right fun hnew => ?_
    rw [mem_singleton.mp hnew]
    rfl
  all_goals
    obtain ⟨old, hold, rfl⟩ := mem_map.mp hr
    split_ifs
    · exact .inr rfl
    · exact .inl hold

theorem tables_of_applyChange (h : applyChange db p op version vals = .ok after) :
    after.outbox = db.outbox ∧ after.tombstones = db.tombstones := by
  cases op <;> simp only [applyChange] at h
  case create =>
    split_ifs at h
    cases h
    exact ⟨rfl, rfl⟩
  all_goals
    cases h
    exact ⟨rfl, rfl⟩

theorem Inv.materializeOne (h : Inv st db) (hstep : materializeOne db p = .ok after)
    (hfree : preparedIdentity p ∉ db.tombstones) : Inv st after := by
  obtain ⟨written, hwritten, happend⟩ := bind_eq_ok.mp hstep
  obtain ⟨rfl, -⟩ := appendOutbox_eq_ok happend
  obtain ⟨houtbox, htombstones⟩ := tables_of_applyChange hwritten
  refine h.write htombstones (fun r hr => ?_) fun row hrow => ?_
  · refine (mem_of_applyChange hwritten hr).imp_right fun hid => ?_
    rw [hid]
    exact hfree
  · rw [houtbox] at hrow
    refine (mem_append.mp hrow).imp_right fun hnew => .inr ?_
    rw [mem_singleton.mp hnew]
    exact hfree

theorem inv_materialize {w : World} (tenant scope docId entity : String) (vals : Fields)
    (h : Inv st w.db) : Inv st (materialize st w tenant scope docId entity vals).db := by
  unfold materialize
  split
  · exact h
  · rename_i ent hent
    split_ifs with hagg
    · exact h
    · split
      · rename_i db hdb
        refine h.materializeOne hdb fun hmem => ?_
        obtain ⟨⟨found, hfound, hkind⟩, -⟩ := h _ hmem
        have hsame : ent = found := by
          refine Option.some.inj (hent.symm.trans (Eq.trans ?_ hfound))
          exact congrArg _ (Registry.name_of_get hent).symm
        exact hagg (hsame ▸ hkind)
      · exact h

theorem Inv.repairWrite (h : Inv st db) (row : OutboxRow)
    (hrow : row.payload = [] ∨ eventIdentity row ∉ db.tombstones) :
    Inv st (repairWrite db row) := by
  refine h.write rfl (fun r hr => .inl hr) fun other hother => ?_
  refine (mem_upsertOutbox hother).imp_right ?_
  rintro ⟨hid, hpayload⟩
  rw [hpayload, hid]
  exact hrow

variable {w : World} {k : Identity} {r : ErasureRequest}

theorem rows_of_erasable (h : erasable st w k r) {row : StoredRow}
    (hrow : row ∈ w.db.rows) (hid : rowIdentity row = k) : row.scope = r.scopeId := by
  simp only [erasable, Bool.and_eq_true] at h
  have hmem : row ∈ w.db.rows.filter fun row => rowIdentity row == k :=
    mem_filter.mpr ⟨hrow, by simpa using hid⟩
  obtain ⟨⟨hactive, -⟩, -⟩ := h
  split at hactive
  · rename_i hnil
    rw [hnil] at hmem
    cases hmem
  · rename_i only honly
    rw [honly, mem_singleton] at hmem
    rw [hmem]
    exact beq_iff_eq.mp (Bool.and_eq_true_iff.mp hactive).1
  · cases hactive

theorem outbox_of_erasable (h : erasable st w k r) {row : OutboxRow}
    (hrow : row ∈ w.db.outbox) (hid : eventIdentity row = k) : inScope st r.scopeId row := by
  simp only [erasable, Bool.and_eq_true, all_eq_true] at h
  have hscope := h.1.2 row hrow
  simpa [hid] using hscope

theorem erased_erased (h : erasable st w k r) : Erased (erased st w k r).db k := by
  constructor
  · intro row hrow hid
    obtain ⟨hold, hkept⟩ := mem_filter.mp hrow
    rw [hid, rows_of_erasable h hold hid] at hkept
    simp at hkept
  · intro row hrow hid
    obtain ⟨old, hold, rfl⟩ := mem_map.mp hrow
    split_ifs at hid ⊢ with hmatch
    · rfl
    · rw [outbox_of_erasable h hold hid, hid] at hmatch
      simp at hmatch

theorem Erased.erased {other : Identity} (h : Erased w.db other) :
    Erased (erased st w k r).db other := by
  constructor
  · intro row hrow
    exact h.rows row (mem_of_mem_filter hrow)
  · intro row hrow hid
    obtain ⟨old, hold, rfl⟩ := mem_map.mp hrow
    split_ifs at hid ⊢
    · rfl
    · exact h.outbox old hold hid

theorem inv_eraseAggregate (ctx : Context) (h : Inv st w.db) :
    Inv st (eraseAggregate st w ctx r).db := by
  unfold eraseAggregate
  extract_lets k
  split_ifs with hchecks
  · simp only [Bool.and_eq_true] at hchecks
    obtain ⟨⟨⟨-, hkind⟩, -⟩, herasable⟩ := hchecks
    intro other hother
    rcases mem_cons.mp hother with rfl | hold
    · obtain ⟨ent, hent, hagg⟩ := (Option.any_eq_true _ _).mp hkind
      exact ⟨⟨ent, hent, hagg⟩, erased_erased herasable⟩
    · exact ⟨(h other hold).1, (h other hold).2.erased⟩
  · exact h

theorem inv_step (st : Store) {v : World} (a : Action) (h : Inv st w.db) (hok : Fenced w a)
    (hstep : step st w a = some v) : Inv st v.db := by
  revert hok hstep
  fun_cases step st w a <;> intro hok hstep <;> try cases hstep
  · exact inv_exec _ h
  · exact inv_materialize _ _ _ _ _ h
  · unfold upsertEmbedding
    split_ifs <;> exact h
  · unfold upsertGeometry
    split_ifs <;> exact h
  · unfold repairRead
    split <;> exact h
  · obtain ⟨r, hr, rfl⟩ := Option.map_eq_some_iff.mp hstep
    exact h.repairWrite _ (.inr (hok r hr))
  · exact h.repairWrite _ (.inl rfl)
  · exact inv_eraseAggregate _ h

/-- In every fenced run an erased identity has no row and no payload again. -/
theorem erased_stays_erased (st : Store) {t : World} {trace : List Action}
    (hok : Along (step st) Fenced .start trace) (hrun : run (step st) .start trace = some t)
    (tenant entity aggId : String) (herased : (tenant, entity, aggId) ∈ t.db.tombstones) :
    (∀ r ∈ t.db.rows, rowIdentity r ≠ (tenant, entity, aggId)) ∧
      ∀ row ∈ t.db.outbox, eventIdentity row = (tenant, entity, aggId) → row.payload = [] := by
  have hstart : Inv st World.start.db := forall_mem_nil _
  have hstep : ∀ w a v, Inv st w.db → Fenced w a → step st w a = some v → Inv st v.db :=
    fun _ a _ => inv_step st a
  have hinv : Inv st t.db := run_invariant hstep hstart hok hrun
  have h := (hinv _ herased).2
  exact ⟨h.rows, h.outbox⟩

def repairedEarly : List Action :=
  [siteCreated, .repairRead "acme" ⟨"site", "s1", 1, 0⟩, .repairWrite 0, siteErased, siteCreated,
    .repairZombie "acme" ⟨"site", "s1", 0, 1⟩, .upsertEmbedding ⟨("acme", "site", "s1"), "", []⟩]

theorem erased_stays_erased_repairedEarly : ∃ t, Along (step sites) Fenced .start repairedEarly ∧
      run (step sites) .start repairedEarly = some t ∧
      ("acme", "site", "s1") ∈ t.db.tombstones ∧
      (∀ r ∈ t.db.rows, rowIdentity r ≠ ("acme", "site", "s1")) ∧
      ∀ row ∈ t.db.outbox, eventIdentity row = ("acme", "site", "s1") → row.payload = [] := by
  have hok : Along (step sites) Fenced .start repairedEarly := by decide
  exact ⟨_, hok, rfl, by decide, erased_stays_erased sites hok rfl _ _ _ (by decide)⟩

end Fabriq.Exec.Retention
