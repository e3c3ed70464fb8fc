import Fabriq.Analytics.Consumer
import Fabriq.Lib.Separated

namespace Fabriq.Analytics.Reconcile

open Analytics.Consumer Analytics.Redact Lib Lib.Gated Lib.Result
open Core.Schema (Entity)
open Core.Tenant (valid)
open Exec.CommandStore (Db StoredRow)

structure Report where
  checked : Nat
  missing : Nat
  stale : Nat
  healed : Nat

inductive Error
  | watermarks
  | invalidTenant
  | lacksIdOrVersion (entity : String)
  | redact (e : Redact.Error)
  | sink

/-- What the calls of a pass meet: whether the watermarks can be read, how an envelope's writes
end, and when a row is read. -/
structure Calls where
  watermarks : Bool
  write : Envelope → Outcome
  now : StoredRow → Int

def allWatermarks (s : Sink) (tenant : String) : List (FactId × Int) :=
  s.watermarks.filter fun w => w.1.tenantId == tenant

def driftKey (aggregate aggId : String) : String :=
  aggregate ++ "\x00" ++ aggId

def versionsHeld (s : Sink) (tenant : String) : List (String × Int) :=
  (allWatermarks s tenant).foldl
    (fun held w => Assoc.put held (driftKey w.1.aggregate w.1.aggId) w.2) []

def snapshotEnvelope (p : Pipeline) (calls : Calls) (tenant : String) (ent : Entity)
    (row : StoredRow) : Except Error Envelope :=
  if row.id = "" ∨ row.version < 1 then .error (.lacksIdOrVersion ent.name)
  else .ok ⟨tenant, ent.name, row.id, row.version, .updated, p.marshal row.vals, calls.now row⟩

/-- The rows that `SnapshotEntities` streams: those of the aggregates, by id. -/
def snapshotRows (p : Pipeline) (db : Db) (tenant : String) : List (Entity × StoredRow) :=
  (p.executor.reg.filter Entity.isAggregate).flatMap fun ent =>
    ((db.rows.filter fun r => r.tenant == tenant && r.entity == ent.name).insertionSort
      fun a b => a.id ≤ b.id).map fun row => (ent, row)

def heal (p : Pipeline) (calls : Calls) (env : Envelope) (f : Fact) (ev : HistoryEvent)
    (s : Sink) (rep : Report) : Except Error (Sink × Report) :=
  match p.write s (calls.write env) f ev with
  | (after, true) => .ok (after, { rep with healed := rep.healed + 1 })
  | (_, false) => .error .sink

def reconcileEnvelope (p : Pipeline) (calls : Calls) (held : List (String × Int))
    (st : Sink × Report) (env : Envelope) : Except Error (Sink × Report) :=
  match p.apply env with
  | .error e => .error (.redact e)
  | .ok none => .ok st
  | .ok (some (f, ev)) =>
    let rep := { st.2 with checked := st.2.checked + 1 }
    match held.lookup (driftKey env.aggregate env.aggId) with
    | none => heal p calls env f ev st.1 { rep with missing := rep.missing + 1 }
    | some stored =>
      if stored < env.version then
        heal p calls env f ev st.1 { rep with stale := rep.stale + 1 }
      else .ok (st.1, rep)

def reconcileRow (p : Pipeline) (calls : Calls) (tenant : String) (held : List (String × Int))
    (st : Sink × Report) (row : Entity × StoredRow) : Except Error (Sink × Report) := do
  let env ← snapshotEnvelope p calls tenant row.1 row.2
  reconcileEnvelope p calls held st env

def reconcileTenant (p : Pipeline) (calls : Calls) (db : Db) (s : Sink) (tenant : String) :
    Except Error (Sink × Report) :=
  if calls.watermarks then
    if valid tenant then
      (snapshotRows p db tenant).foldlM
        (reconcileRow p calls tenant (versionsHeld s tenant)) (s, ⟨0, 0, 0, 0⟩)
    else .error .invalidTenant
  else .error .watermarks

def projection (p : Pipeline) (row : StoredRow) : Option String :=
  (p.spec row.entity).bind fun spec =>
    (redact p.codec spec p.salt (p.marshal row.vals)).toOption.map p.column

def rowFact (p : Pipeline) (calls : Calls) (row : StoredRow) : Option Fact :=
  (projection p row).map fun payload =>
    ⟨row.tenant, row.entity, row.id, row.version, payload, calls.now row, false⟩

def lags (held : List (String × Int)) (row : StoredRow) : Bool :=
  (held.lookup (driftKey row.entity row.id)).all fun stored => decide (stored < row.version)

variable {p : Pipeline} {calls : Calls} {db : Db} {tenant : String} {s : Sink}
  {held : List (String × Int)} {st st' : Sink × Report} {ent : Entity} {row : StoredRow}
  {k : FactId}

theorem mem_snapshotRows : (ent, row) ∈ snapshotRows p db tenant ↔
      ent ∈ p.executor.reg ∧ ent.isAggregate ∧ row ∈ db.rows ∧ row.tenant = tenant ∧
        row.entity = ent.name := by
  simp only [snapshotRows, List.mem_flatMap, List.mem_filter, List.mem_map,
    List.mem_insertionSort, Bool.and_eq_true, beq_iff_eq, Prod.mk.injEq]
  constructor
  · rintro ⟨_, ⟨hent, hagg⟩, _, ⟨hrow, htenant, hentity⟩, rfl, rfl⟩
    exact ⟨hent, hagg, hrow, htenant, hentity⟩
  · rintro ⟨hent, hagg, hrow, htenant, hentity⟩
    exact ⟨ent, ⟨hent, hagg⟩, row, ⟨hrow, htenant, hentity⟩, rfl, rfl⟩

theorem facts_heal {env : Envelope} {f : Fact} {ev : HistoryEvent} {rep : Report}
    (h : heal p calls env f ev s rep = .ok st') :
    st'.1.facts.lookup k =
      if k = factKey f then some (offerNewer Fact.version (s.facts.lookup k) (p.stored f))
      else s.facts.lookup k := by
  revert h
  fun_cases heal p calls env f ev s rep <;> rintro ⟨⟩
  rename_i hwrite
  have hdone : calls.write env ≠ .upsertFails := by
    intro hfails
    rw [hfails] at hwrite
    simp [Pipeline.write] at hwrite
  have hfacts := @lookup_facts_write p s k f ev _ hdone
  rw [hwrite] at hfacts
  exact hfacts

theorem facts_reconcileRow (hent : row.entity = ent.name) (htenant : row.tenant = tenant)
    (h : reconcileRow p calls tenant held st (ent, row) = .ok st') :
    (p.spec row.entity = none ∧ st'.1.facts = st.1.facts) ∨
      ∃ f, rowFact p calls row = some f ∧ ∀ k, st'.1.facts.lookup k =
        if k = factKey f ∧ lags held row = true then
          some (offerNewer Fact.version (st.1.facts.lookup k) f) else st.1.facts.lookup k := by
  obtain ⟨entity, id, owner, scope, version, vals⟩ := row
  obtain rfl : entity = ent.name := hent
  obtain rfl : owner = tenant := htenant
  obtain ⟨env, henv, h⟩ := bind_eq_ok.mp h
  unfold snapshotEnvelope at henv
  split_ifs at henv with hlacks
  cases henv
  unfold reconcileEnvelope Pipeline.apply at h
  unfold rowFact projection lags
  cases hspec : p.spec ent.name with
  | none =>
    simp only [hspec] at h
    cases h
    exact .inl ⟨rfl, rfl⟩
  | some spec =>
    simp only [hspec, Pipeline.redacted, reduceCtorEq, if_false] at h
    cases hred : redact p.codec spec p.salt (p.marshal vals) with
    | error e =>
      rw [hred] at h
      cases h
    | ok text =>
      simp only [hred] at h
      simp only [Option.bind_some, hred]
      refine .inr ⟨_, rfl, fun k => ?_⟩
      split at h
      · rename_i hnone
        rw [facts_heal h]
        simp [hnone, factKey, Envelope.fact, Pipeline.stored]
      · rename_i stored hstored
        split_ifs at h with hlt
        · rw [facts_heal h]
          simp [hstored, hlt, factKey, Envelope.fact, Pipeline.stored]
        · cases h
          simp [hstored, hlt]

end Fabriq.Analytics.Reconcile
