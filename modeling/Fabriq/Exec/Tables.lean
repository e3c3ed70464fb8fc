import Fabriq.Exec.LastEvent

/-!
The statements of the command store name the entity's table, and the registry does not compare
tables: where two entities share one, the rows and the events of an aggregate come apart.
-/

namespace Fabriq.Exec.Tables

open Core.Schema Exec.CommandStore Exec.LastEvent Exec.OutboxVersions Lib.Result List

/-- `Binding.Table`, by the name of the entity.  Entities on one table have its columns. -/
abbrev TableOf := String → String

/-- The command as the statements see it: they name the table in place of the entity. -/
def inTable (tables : TableOf) (p : Prepared) : Prepared :=
  { p with entity := { p.entity with name := tables p.entity.name } }

/-- `apply` with the rows addressed by table; the erasure fence and the event go by entity. -/
def applyIn (tables : TableOf) (db : Db) (p : Prepared) : Except Error (Db × Envelope) := do
  if db.tombstones.contains (p.tenantId, p.entity.name, p.aggId) then throw .erased
  let current := currentVersion db (inTable tables p)
  checkVersion p current
  let next := current + 1
  let (op, verb) := resolveOp p.op current
  let vals := p.stampedValues next
  let written ← applyChange db (inTable tables p) op next vals
  let env := newEnvelope p next vals verb
  let after ← appendOutbox written env
  return (after, env)

def applyNextIn (tables : TableOf) (s : Plane) (p : Prepared) : Except Error Plane := do
  let (db, env) ← applyIn tables s.db p
  return ⟨db, s.changes ++ [env]⟩

def execBatchIn (tables : TableOf) (x : Executor) (s : Plane) (batch : List Request) :
    Except Error Plane := do
  let prepared ← batch.mapM (Request.prepare x)
  prepared.foldlM (applyNextIn tables) s

def commitIn (tables : TableOf) (x : Executor) (s : Plane) (batch : List Request) : Plane :=
  match execBatchIn tables x s batch with
  | .ok after => after
  | .error _ => s

def runBatchesIn (tables : TableOf) (x : Executor) (batches : List (List Request)) : Plane :=
  batches.foldl (commitIn tables x) .empty

/-- No two registered entities share a table. -/
def OwnTables (reg : Registry) (tables : TableOf) : Prop :=
  ∀ a b, (reg.get a).isSome → (reg.get b).isSome → tables a = tables b → a = b

/-- The row of the entity's table that stands for a row of the entity. -/
def tabled (tables : TableOf) (r : StoredRow) : StoredRow :=
  { r with entity := tables r.entity }

def inTables (tables : TableOf) (db : Db) : Db :=
  { db with rows := db.rows.map (tabled tables) }

def planeIn (tables : TableOf) (s : Plane) : Plane :=
  ⟨inTables tables s.db, s.changes⟩

/-- What the store holds is of registered entities. -/
structure Registered (reg : Registry) (db : Db) : Prop where
  rows : ∀ r ∈ db.rows, (reg.get r.entity).isSome
  events : ∀ e ∈ db.outbox, (reg.get e.aggregate).isSome

variable {tables : TableOf} {db after : Db} {p : Prepared} {env : Envelope} {x : Executor}
  {r : StoredRow} {s t : Plane}

theorem isSome_of_prepared {batch : List Request} {prepared : List Prepared}
    (h : batch.mapM (Request.prepare x) = .ok prepared) (hp : p ∈ prepared) :
    (x.reg.get p.entity.name).isSome := by
  obtain ⟨q, -, hq⟩ := exists_of_mapM h hp
  rw [(isAggregate_of_prepare hq).1]
  rfl

theorem Registered.apply (h : Registered x.reg db) (hp : (x.reg.get p.entity.name).isSome)
    (happly : apply db p = .ok (after, env)) : Registered x.reg after := by
  have happlied := apply_eq_ok happly
  refine ⟨fun r hr => ?_, fun e he => ?_⟩
  · rcases happlied.rows.mem hr with hold | ⟨vals, rfl⟩
    · exact h.rows r hold
    · exact hp
  · rw [happlied.outbox, mem_append, mem_singleton] at he
    rcases he with hold | rfl
    · exact h.events e hold
    · rw [happlied.env_eq]
      exact hp

theorem registered_empty : Registered x.reg Plane.empty.db := ⟨nofun, nofun⟩

theorem registered_commit (hs : Registered x.reg s.db) (batch : List Request) :
    Registered x.reg (commit x s batch).db := by
  unfold commit
  split
  · rename_i after hrun
    obtain ⟨prepared, hprep, hfold⟩ := bind_eq_ok.mp hrun
    refine foldlM_invariant (P := fun s => Registered x.reg s.db) (fun s p t hp h hnext => ?_)
      hs hfold
    obtain ⟨env, happly, -⟩ := applyNext_eq_ok hnext
    exact h.apply (isSome_of_prepared hprep hp) happly
  · exact hs

theorem registered_runBatches (x : Executor) (batches : List (List Request)) :
    Registered x.reg (runBatches x batches).db := by
  suffices hall : ∀ s, Registered x.reg s.db → Registered x.reg (batches.foldl (commit x) s).db
    from hall .empty registered_empty
  induction batches with
  | nil => exact fun _ hs => hs
  | cons batch rest ih => exact fun s hs => ih _ (registered_commit hs batch)

theorem appendOutbox_inTables {written : Db} : appendOutbox (inTables tables db) env = .ok written ↔
      ∃ w, appendOutbox db env = .ok w ∧ written = inTables tables w := by
  unfold appendOutbox
  change (if db.outbox.any _ then _ else _) = _ ↔ _
  split
  · simp
  · simp only [Except.ok.injEq, exists_eq_left', eq_comm (b := written)]
    rfl

section

variable (hown : OwnTables x.reg tables) (hdb : Registered x.reg db)
  (hp : (x.reg.get p.entity.name).isSome)
include hown hdb hp

theorem tabled_entity (hr : r ∈ db.rows) :
    ((tabled tables r).entity == (inTable tables p).entity.name) = (r.entity == p.entity.name) := by
  rw [Bool.eq_iff_iff, beq_iff_eq, beq_iff_eq]
  exact ⟨hown _ _ (hdb.rows r hr) hp, fun h => congrArg tables h⟩

theorem addresses_tabled (hr : r ∈ db.rows) :
    (inTable tables p).addresses (tabled tables r) = p.addresses r := by
  rw [Prepared.addresses, tabled_entity hown hdb hp hr]
  rfl

theorem currentVersion_inTables :
    currentVersion (inTables tables db) (inTable tables p) = currentVersion db p := by
  have hfind : (inTables tables db).rows.find? (inTable tables p).addresses =
      (db.rows.find? p.addresses).map (tabled tables) := by
    change (db.rows.map (tabled tables)).find? _ = _
    rw [find?_map]
    refine congrArg _ ?_
    rw [← head?_filter, ← head?_filter]
    exact congrArg _ (filter_congr fun r hr => addresses_tabled hown hdb hp hr)
  unfold currentVersion
  rw [hfind]
  cases db.rows.find? p.addresses <;> rfl

theorem applyChange_inTables {op : Op} {version : Int} {vals : Option Fields} {written : Db} :
    applyChange (inTables tables db) (inTable tables p) op version vals = .ok written ↔
      ∃ w, applyChange db p op version vals = .ok w ∧ written = inTables tables w := by
  have haddr := fun r hr => addresses_tabled (r := r) hown hdb hp hr
  have hupdate : (inTables tables db).rows.map (fun r =>
        if (inTable tables p).addresses r then
          (inTable tables p).row version ((inTable tables p).updated r (vals.getD []))
        else r) =
      (db.rows.map fun r =>
        if p.addresses r then p.row version (p.updated r (vals.getD [])) else r).map
          (tabled tables) := by
    rw [inTables, map_map, map_map]
    refine map_congr_left fun r hr => ?_
    simp only [Function.comp_apply, haddr r hr]
    split <;> rfl
  cases op with
  | delete =>
    have hkept : (inTables tables db).rows.filter (fun r => !(inTable tables p).addresses r) =
        (db.rows.filter fun r => !p.addresses r).map (tabled tables) := by
      rw [inTables, filter_map]
      exact congrArg _ (filter_congr fun r hr => congrArg not (haddr r hr))
    simp only [applyChange, hkept, Except.ok.injEq, exists_eq_left', eq_comm (b := written)]
    rfl
  | create =>
    have hany : ((inTables tables db).rows.any fun r =>
          r.entity == (inTable tables p).entity.name && r.id == (inTable tables p).aggId) =
        db.rows.any fun r => r.entity == p.entity.name && r.id == p.aggId := by
      rw [inTables, any_map, Bool.eq_iff_iff, any_eq_true, any_eq_true]
      refine exists_congr fun r => and_congr_right fun hr => ?_
      rw [Function.comp_apply, tabled_entity hown hdb hp hr]
      rfl
    simp only [applyChange, hany]
    split
    · simp
    · simp only [Except.ok.injEq, exists_eq_left', inTables, map_append, map_singleton,
        eq_comm (b := written)]
      rfl
  | update | upsert =>
    simp only [applyChange, hupdate, Except.ok.injEq, exists_eq_left', eq_comm (b := written)]
    rfl

theorem applyIn_inTables {result : Db × Envelope} :
    applyIn tables (inTables tables db) p = .ok result ↔
      ∃ w, apply db p = .ok (w, result.2) ∧ result.1 = inTables tables w := by
  unfold applyIn apply
  rw [currentVersion_inTables hown hdb hp]
  change (if db.tombstones.contains _ then _ else _) = _ ↔ _
  split
  · simp [throw, throwThe, MonadExceptOf.throw, bind, Except.bind]
  · obtain ⟨written, env⟩ := result
    simp only [bind_eq_ok, applyChange_inTables hown hdb hp]
    constructor
    · rintro ⟨⟨⟩, hcheck, _, ⟨w, hw, rfl⟩, a, happend, hresult⟩
      obtain ⟨v, hv, rfl⟩ := appendOutbox_inTables.mp happend
      cases hresult
      exact ⟨v, ⟨⟨⟩, hcheck, w, hw, v, hv, rfl⟩, rfl⟩
    · rintro ⟨v, ⟨⟨⟩, hcheck, w, hw, a, hv, hresult⟩, rfl⟩
      cases hresult
      exact ⟨⟨⟩, hcheck, _, ⟨w, hw, rfl⟩, _, appendOutbox_inTables.mpr ⟨v, hv, rfl⟩, rfl⟩

end

theorem foldlM_inTables (hown : OwnTables x.reg tables) {prepared : List Prepared}
    (hprepared : ∀ p ∈ prepared, (x.reg.get p.entity.name).isSome)
    (hs : Registered x.reg s.db) :
    prepared.foldlM (applyNextIn tables) (planeIn tables s) = .ok t ↔
      ∃ u, prepared.foldlM applyNext s = .ok u ∧ t = planeIn tables u := by
  induction prepared generalizing s with
  | nil => simp [pure, Except.pure, eq_comm]
  | cons p rest ih =>
    have hp := hprepared p mem_cons_self
    have hrest := fun q hq => hprepared q (mem_cons_of_mem p hq)
    rw [foldlM_cons, foldlM_cons, bind_eq_ok]
    constructor
    · rintro ⟨t', hnext, hrun⟩
      obtain ⟨⟨db, env⟩, happly, hnext⟩ := bind_eq_ok.mp hnext
      cases hnext
      obtain ⟨w, happly, hw⟩ := (applyIn_inTables hown hs hp).mp happly
      obtain rfl : db = inTables tables w := hw
      obtain ⟨u, hu, rfl⟩ := (ih hrest (s := ⟨w, s.changes ++ [env]⟩) (hs.apply hp happly)).mp hrun
      exact ⟨u, bind_eq_ok.mpr ⟨_, bind_eq_ok.mpr ⟨_, happly, rfl⟩, hu⟩, rfl⟩
    · rintro ⟨u, hrun, rfl⟩
      obtain ⟨t', hnext, hrun⟩ := bind_eq_ok.mp hrun
      obtain ⟨⟨w, env⟩, happly, hnext⟩ := bind_eq_ok.mp hnext
      cases hnext
      have hw : applyIn tables (planeIn tables s).db p = .ok (inTables tables w, env) :=
        (applyIn_inTables hown hs hp).mpr ⟨w, happly, rfl⟩
      exact ⟨_, bind_eq_ok.mpr ⟨_, hw, rfl⟩, (ih hrest (hs.apply hp happly)).mpr ⟨u, hrun, rfl⟩⟩

theorem commit_inTables (hown : OwnTables x.reg tables) (hs : Registered x.reg s.db)
    (batch : List Request) :
    commitIn tables x (planeIn tables s) batch = planeIn tables (commit x s batch) := by
  have hexec : ∀ t, execBatchIn tables x (planeIn tables s) batch = .ok t ↔
      ∃ u, execBatch x s batch = .ok u ∧ t = planeIn tables u := by
    intro t
    unfold execBatchIn execBatch
    cases hprep : batch.mapM (Request.prepare x) with
    | error e => simp [bind, Except.bind]
    | ok prepared => exact foldlM_inTables hown (fun p hp => isSome_of_prepared hprep hp) hs
  unfold commitIn commit
  cases hplain : execBatch x s batch with
  | ok u => rw [(hexec (planeIn tables u)).mpr ⟨u, hplain, rfl⟩]
  | error e =>
    cases htabled : execBatchIn tables x (planeIn tables s) batch with
    | error e => rfl
    | ok t =>
      obtain ⟨u, hu, -⟩ := (hexec t).mp htabled
      rw [hplain] at hu
      cases hu

/-- Where entities have tables of their own, a run is the run that finds rows by entity. -/
theorem runBatches_inTables (hown : OwnTables x.reg tables) (batches : List (List Request)) :
    runBatchesIn tables x batches = planeIn tables (runBatches x batches) := by
  suffices hall : ∀ s, Registered x.reg s.db →
      batches.foldl (commitIn tables x) (planeIn tables s) =
        planeIn tables (batches.foldl (commit x) s) from hall .empty registered_empty
  induction batches with
  | nil => exact fun _ _ => rfl
  | cons batch rest ih =>
    intro s hs
    rw [foldl_cons, foldl_cons, commit_inTables hown hs]
    exact ih _ (registered_commit hs batch)

theorem rowIdentity_tabled (hown : OwnTables x.reg tables) (hdb : Registered x.reg db)
    (hr : r ∈ db.rows) {tenant aggregate aggId : String} (hget : (x.reg.get aggregate).isSome) :
    rowIdentity (tabled tables r) = (tenant, tables aggregate, aggId) ↔
      rowIdentity r = (tenant, aggregate, aggId) := by
  simp only [rowIdentity, Prod.mk.injEq]
  refine and_congr_right fun _ => and_congr_left fun _ => ?_
  exact ⟨hown _ _ (hdb.rows r hr) hget, fun h => congrArg tables h⟩

/-- Where entities have tables of their own: after any run, the events of an aggregate are numbered
from 1 in the order of their commits, and a row of the aggregate holds the number of the last. -/
theorem outbox_versions_gapless {tables : TableOf} {x : Executor} (hown : OwnTables x.reg tables)
    (batches : List (List Request)) (tenant aggregate aggId : String) :
    ∃ k : Nat, (events (runBatchesIn tables x batches).db (tenant, aggregate, aggId)).map
        OutboxRow.version = (List.range k).map (fun i : Nat => (i : Int) + 1) ∧
      ((x.reg.get aggregate).isSome → ∀ r ∈ (runBatchesIn tables x batches).db.rows,
        rowIdentity r = (tenant, tables aggregate, aggId) → r.version = k) := by
  have h := gapless_runBatches x batches
  have hdb := registered_runBatches x batches
  rw [runBatches_inTables hown]
  refine ⟨_, h.numbered (tenant, aggregate, aggId), fun hget row hrow hid => ?_⟩
  obtain ⟨r, hr, rfl⟩ := mem_map.mp hrow
  have hversion := h.version r hr
  rw [(rowIdentity_tabled hown hdb hr hget).mp hid] at hversion
  exact hversion

/-- Two entities, and the bindings that give each of them a table and both the same one. -/
def pages : Executor where
  reg := [{ name := "page", columns := ["body"] }, { name := "draft", columns := ["body"] }]
  coerce := fun _ vals => some vals

def ownTable (entity : String) : String := "cms_" ++ entity

def oneTable (_ : String) : String := "cms_pages"

theorem ownTables_pages : OwnTables pages.reg ownTable :=
  fun _ _ _ _ h => (String.append_right_inj _).mp h

def write (entity : String) (op : Op) (payload : Option Fields) : Request :=
  ⟨⟨"acme", ""⟩, "new", ⟨entity, op, "a", payload, none⟩⟩

def draftOfPage : List (List Request) :=
  [[write "page" .create (some [])], [write "draft" .update (some [])]]

/-- The update of the draft finds the page's row at version 1. -/
theorem oneTable_not_gapless : ¬ ∃ k : Nat,
    (events (runBatchesIn oneTable pages draftOfPage).db ("acme", "draft", "a")).map
      OutboxRow.version = (List.range k).map (fun i : Nat => (i : Int) + 1) := by
  have hevents : (events (runBatchesIn oneTable pages draftOfPage).db
      ("acme", "draft", "a")).map OutboxRow.version = [2] := by decide
  rw [hevents]
  rintro ⟨k, hk⟩
  cases k with
  | zero => cases hk
  | succ k => simp [List.range_succ_eq_map] at hk

theorem ownTable_gapless : OwnTables pages.reg ownTable ∧ ∃ k : Nat,
    (events (runBatchesIn ownTable pages draftOfPage).db ("acme", "page", "a")).map
        OutboxRow.version = (List.range k).map (fun i : Nat => (i : Int) + 1) ∧
      ((pages.reg.get "page").isSome → ∀ r ∈ (runBatchesIn ownTable pages draftOfPage).db.rows,
        rowIdentity r = ("acme", ownTable "page", "a") → r.version = k) :=
  ⟨ownTables_pages, outbox_versions_gapless ownTables_pages draftOfPage "acme" "page" "a"⟩

/-- No update is lost where entities have tables of their own: after any run, a command is refused
once its aggregate has moved past the version that the command expects. -/
theorem stale_version_refused {tables : TableOf} {x : Executor} (hown : OwnTables x.reg tables)
    (batches : List (List Request)) {p : Prepared} (hp : (x.reg.get p.entity.name).isSome)
    {v : Int} {e : OutboxRow} (hv : p.expectedVersion = some v)
    (he : e ∈ events (runBatchesIn tables x batches).db (preparedIdentity p))
    (hpast : v < e.version) : (applyIn tables (runBatchesIn tables x batches).db p).isOk = false := by
  rw [runBatches_inTables hown] at he ⊢
  cases happly : applyIn tables (planeIn tables (runBatches x batches)).db p with
  | error err => rfl
  | ok result =>
    obtain ⟨w, happly, -⟩ :=
      (applyIn_inTables hown (registered_runBatches x batches) hp).mp happly
    have h := gapless_runBatches x batches
    have hle : e.version ≤ _ := h.numbered.le_length he
    have hnext := h.next_eq (apply_eq_ok happly)
    rw [currentVersion_of_expected happly hv, events] at hnext
    omega

theorem stale_version_refused_page : OwnTables pages.reg ownTable ∧
    (applyIn ownTable (runBatchesIn ownTable pages draftOfPage).db
      ⟨.update, some 0, { name := "page", columns := ["body"] }, "acme", "", "a", some []⟩).isOk =
        false :=
  ⟨ownTables_pages,
    stale_version_refused ownTables_pages draftOfPage rfl rfl mem_cons_self (by decide)⟩

/-- Where entities have tables of their own: after any run, an aggregate has a row exactly if its
last event is no delete, and no event follows a delete. -/
theorem journal_of_rows {tables : TableOf} {x : Executor} (hown : OwnTables x.reg tables)
    (batches : List (List Request)) :
    (∀ e ∈ (runBatchesIn tables x batches).db.outbox, IsLast (runBatchesIn tables x batches).db e →
      (Stored (runBatchesIn tables x batches).db (e.tenantId, tables e.aggregate, e.aggId) ↔
        e.verb ≠ .deleted)) ∧
    ∀ e ∈ (runBatchesIn tables x batches).db.outbox, e.verb = .deleted →
      IsLast (runBatchesIn tables x batches).db e := by
  have h := ended_runBatches x batches
  have hdb := registered_runBatches x batches
  rw [runBatches_inTables hown]
  refine ⟨fun e he hlast => ?_, fun e he hverb => (h.deleted e he hverb).1⟩
  have hstored : Stored (planeIn tables (runBatches x batches)).db
      (e.tenantId, tables e.aggregate, e.aggId) ↔
        Stored (runBatches x batches).db (eventIdentity e) := by
    constructor
    · rintro ⟨_, hrow, hid⟩
      obtain ⟨r, hr, rfl⟩ := mem_map.mp hrow
      exact ⟨r, hr, (rowIdentity_tabled hown hdb hr (hdb.events e he)).mp hid⟩
    · rintro ⟨r, hr, hid⟩
      exact ⟨_, mem_map_of_mem hr, (rowIdentity_tabled hown hdb hr (hdb.events e he)).mpr hid⟩
  rw [hstored]
  exact ⟨fun hrow hverb => (h.deleted e he hverb).2 hrow, h.stored e he hlast⟩

theorem journal_of_rows_pages : OwnTables pages.reg ownTable ∧
    ∀ e ∈ (runBatchesIn ownTable pages draftOfPage).db.outbox,
      IsLast (runBatchesIn ownTable pages draftOfPage).db e →
        (Stored (runBatchesIn ownTable pages draftOfPage).db
          (e.tenantId, ownTable e.aggregate, e.aggId) ↔ e.verb ≠ .deleted) :=
  ⟨ownTables_pages, (journal_of_rows ownTables_pages draftOfPage).1⟩

end Fabriq.Exec.Tables
