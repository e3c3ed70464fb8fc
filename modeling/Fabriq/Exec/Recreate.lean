import Fabriq.Exec.CommandStore

namespace Fabriq.Exec.Recreate

open Core.Schema Exec.CommandStore List

def hasRow (db : Db) (p : Prepared) : Bool :=
  db.rows.any fun r => r.entity == p.entity.name && r.id == p.aggId

def sameAggregate (p : Prepared) (row : OutboxRow) : Bool :=
  row.tenantId == p.tenantId && row.aggregate == p.entity.name && row.aggId == p.aggId

def inserts (p : Prepared) : Bool :=
  (p.op == .create || p.op == .upsert) && p.expectedVersion.isNone

def assets : Executor where
  reg := [{ name := "asset", columns := [] }]
  coerce := fun _ vals => some vals

def request (op : Op) (aggId : String) (payload : Option Fields) : Request :=
  ⟨⟨"acme", ""⟩, "new", ⟨"asset", op, aggId, payload, none⟩⟩

def deletedOnce : List (List Request) :=
  [[request .create "a" (some [])], [request .delete "a" none]]

/-- The version of the new event is computed from the missing row, and version 1 is in the
outbox. -/
theorem deletedOnce_not_recreated :
    ∃ p, (request .create "a" (some [])).prepare assets = .ok p ∧ inserts p = true ∧
      hasRow (runBatches assets deletedOnce).db p = false ∧
      (execBatch assets (runBatches assets deletedOnce)
        [request .create "a" (some [])]).isOk = false :=
  ⟨_, rfl, by decide, by decide, by decide⟩

def created (db : Db) (tenant entity aggId : String) : Prop :=
  ∃ row ∈ db.outbox, row.isVersion tenant entity aggId 1 = true

structure Started (db : Db) : Prop where
  rows : ∀ r ∈ db.rows, 1 ≤ r.version ∧ created db r.tenant r.entity r.id
  events : ∀ row ∈ db.outbox, created db row.tenantId row.aggregate row.aggId
  unfenced : db.tombstones = []

variable {db after : Db} {p : Prepared}

theorem isVersion_iff {row : OutboxRow} {tenant entity aggId : String} {version : Int} :
    row.isVersion tenant entity aggId version ↔
      row.tenantId = tenant ∧ row.aggregate = entity ∧ row.aggId = aggId ∧
        row.version = version := by
  simp [OutboxRow.isVersion, and_assoc]

theorem addresses_iff {r : StoredRow} : p.addresses r ↔
      r.entity = p.entity.name ∧ r.id = p.aggId ∧ r.visibleTo p.tenantId p.scopeId := by
  simp [Prepared.addresses, and_assoc]

theorem currentVersion_cases (h : Started db) : currentVersion db p = 0 ∨
      1 ≤ currentVersion db p ∧ created db p.tenantId p.entity.name p.aggId := by
  unfold currentVersion
  split
  · rename_i r hr
    obtain ⟨hpos, hcreated⟩ := h.rows r (mem_of_find?_eq_some hr)
    obtain ⟨hentity, hid, hvisible⟩ := addresses_iff.mp (List.find?_some hr)
    have htenant : r.tenant = p.tenantId := by
      simpa using (Bool.and_eq_true_iff.mp hvisible).1
    rw [hentity, hid, htenant] at hcreated
    exact .inr ⟨hpos, hcreated⟩
  · exact .inl rfl

theorem created.mono {tenant entity aggId : String} (h : created db tenant entity aggId)
    (hsub : db.outbox ⊆ after.outbox) : created after tenant entity aggId := by
  obtain ⟨row, hrow, hversion⟩ := h
  exact ⟨row, hsub hrow, hversion⟩

theorem Started.apply {env : Envelope} (h : Started db)
    (happly : apply db p = .ok (after, env)) : Started after := by
  have happlied := apply_eq_ok happly
  have henv := happlied.env_eq
  have houtbox := happlied.outbox
  have hsub : db.outbox ⊆ after.outbox := houtbox ▸ subset_append_left _ _
  have hcases : currentVersion db p = 0 ∨
      1 ≤ currentVersion db p ∧ created db p.tenantId p.entity.name p.aggId :=
    currentVersion_cases h
  -- Either the aggregate was created before, or this event is its first.
  have hnew : created after p.tenantId p.entity.name p.aggId := by
    rcases hcases with hzero | ⟨-, hcreated⟩
    · refine ⟨outboxRow env, by simp [houtbox], isVersion_iff.mpr ?_⟩
      rw [henv]
      exact ⟨rfl, rfl, rfl, by simp [outboxRow, change, newEnvelope, hzero]⟩
    · exact hcreated.mono hsub
  refine ⟨fun r hr => ?_, fun row hrow => ?_, happlied.tombstones.trans h.unfenced⟩
  · rcases happlied.rows.mem hr with hr | ⟨vals, rfl⟩
    · exact ⟨(h.rows r hr).1, (h.rows r hr).2.mono hsub⟩
    · refine ⟨?_, hnew⟩
      change 1 ≤ currentVersion db p + 1
      omega
  · rw [houtbox, mem_append, mem_singleton] at hrow
    rcases hrow with hrow | rfl
    · exact (h.events row hrow).mono hsub
    · rw [henv]
      exact hnew

theorem started_runBatches (x : Executor) (batches : List (List Request)) :
    Started (runBatches x batches).db := by
  refine runBatches_invariant (P := fun s => Started s.db)
    ⟨by simp [Plane.empty, Db.empty], by simp [Plane.empty, Db.empty], rfl⟩ ?_
  intro s p t _ h hnext
  obtain ⟨env, happly, -⟩ := applyNext_eq_ok hnext
  exact h.apply happly

theorem currentVersion_of_absent (habsent : hasRow db p = false) : currentVersion db p = 0 := by
  have hnone : db.rows.find? p.addresses = none := by
    rw [List.find?_eq_none]
    intro r hr haddr
    obtain ⟨hentity, hid, -⟩ := addresses_iff.mp haddr
    rw [← Bool.not_eq_true, hasRow, any_eq_true] at habsent
    exact habsent ⟨r, hr, by simp [hentity, hid]⟩
  rw [currentVersion, hnone]

theorem isOk_apply_of_absent (hfence : db.tombstones = []) (hinserts : inserts p)
    (habsent : hasRow db p = false) :
    (apply db p).isOk =
      !db.outbox.any fun row => row.isVersion p.tenantId p.entity.name p.aggId 1 := by
  simp only [inserts, Bool.and_eq_true, Bool.or_eq_true, beq_iff_eq,
    Option.isNone_iff_eq_none] at hinserts
  obtain ⟨hop, hexp⟩ := hinserts
  have hinsert : applyChange db p .create 1 (p.stampedValues 1) =
      .ok { db with rows := db.rows ++ [p.row 1 (p.inserted (p.values 1))] } := by
    rw [hasRow] at habsent
    simp [applyChange, habsent, Prepared.values]
  have hcheck : checkVersion p 0 = .ok () := by
    rcases hop with hop | hop <;>
      simp [checkVersion, hop, hexp, pure, Except.pure]
  have hresolve : resolveOp p.op 0 = (.create, .created) := by
    rcases hop with hop | hop <;> simp [resolveOp, hop]
  unfold apply
  simp only [hfence, currentVersion_of_absent habsent, hcheck, hresolve, hinsert,
    appendOutbox, newEnvelope, bind, Except.bind, contains_nil, Bool.false_eq_true,
    if_false, zero_add]
  cases db.outbox.any fun row => row.isVersion p.tenantId p.entity.name p.aggId 1 <;> rfl

/-- After any run, a valid create or upsert of an aggregate without a row commits exactly if the
aggregate has no event. -/
theorem recreate_commits_iff (x : Executor) (batches : List (List Request)) (r : Request)
    {p : Prepared} (hvalid : r.prepare x = .ok p) (hinserts : inserts p = true)
    (habsent : hasRow (runBatches x batches).db p = false) :
    (execBatch x (runBatches x batches) [r]).isOk = true ↔
      ∀ row ∈ (runBatches x batches).db.outbox, sameAggregate p row = false := by
  have hstarted := started_runBatches x batches
  have hexec : (execBatch x (runBatches x batches) [r]).isOk =
      (apply (runBatches x batches).db p).isOk := by
    simp only [execBatch, applyNext, mapM_cons, mapM_nil, hvalid, foldlM_cons,
      foldlM_nil, bind, Except.bind, pure, Except.pure]
    cases apply _ p <;> rfl
  rw [hexec, isOk_apply_of_absent hstarted.unfenced hinserts habsent]
  have hfirst : (∃ row ∈ (runBatches x batches).db.outbox,
        row.isVersion p.tenantId p.entity.name p.aggId 1) ↔
      ∃ row ∈ (runBatches x batches).db.outbox, sameAggregate p row := by
    constructor
    · rintro ⟨row, hrow, hversion⟩
      obtain ⟨htenant, hentity, hid, -⟩ := isVersion_iff.mp hversion
      exact ⟨row, hrow, by simp [sameAggregate, htenant, hentity, hid]⟩
    · rintro ⟨row, hrow, hsame⟩
      have hcreated := hstarted.events row hrow
      simp only [sameAggregate, Bool.and_eq_true, beq_iff_eq] at hsame
      rw [hsame.1.1, hsame.1.2, hsame.2] at hcreated
      exact hcreated
  rw [Bool.not_eq_true', ← Bool.not_eq_true, any_eq_true, hfirst]
  simp

theorem recreate_commits_iff_fresh : (execBatch assets (runBatches assets deletedOnce)
        [request .upsert "b" (some [])]).isOk = true := by
  have hvalid : (request .upsert "b" (some [])).prepare assets = .ok _ := rfl
  refine (recreate_commits_iff assets _ _ hvalid ?_ ?_).mpr ?_
  · decide
  · decide
  · decide

end Fabriq.Exec.Recreate
