import Fabriq.Exec.OutboxVersions

namespace Fabriq.Exec.LastEvent

open Core.Schema Exec.CommandStore Exec.OutboxVersions Exec.Recreate Lib.KeyedLog Lib.Result List

def Stored (db : Db) (k : Identity) : Prop :=
  ∃ r ∈ db.rows, rowIdentity r = k

def IsLast (db : Db) (e : OutboxRow) : Prop :=
  e.version = (events db (eventIdentity e)).length

/-- A delete is the last event of an aggregate without a row, and an aggregate whose last
event is none has one. -/
structure Ended (db : Db) : Prop where
  deleted : ∀ e ∈ db.outbox, e.verb = .deleted → IsLast db e ∧ ¬ Stored db (eventIdentity e)
  stored : ∀ e ∈ db.outbox, IsLast db e → e.verb ≠ .deleted → Stored db (eventIdentity e)

variable {db after : Db} {p : Prepared} {env : Envelope} {k : Identity}

theorem exists_addressed (hrow : currentVersion db p ≠ 0) : ∃ r ∈ db.rows, p.addresses r := by
  unfold currentVersion at hrow
  split at hrow
  · rename_i r hr
    exact ⟨r, mem_of_find?_eq_some hr, List.find?_some hr⟩
  · exact absurd rfl hrow

theorem stored_of_currentVersion (hrow : currentVersion db p ≠ 0) :
    Stored db (preparedIdentity p) := by
  obtain ⟨r, hr, haddr⟩ := exists_addressed hrow
  exact ⟨r, hr, rowIdentity_of_addresses haddr⟩

variable {verb : Verb}

theorem mem_rows_of_ne {rows : List StoredRow} (hrew : Rewrites db p verb rows) {r : StoredRow}
    (hr : r ∈ db.rows) (hne : rowIdentity r ≠ preparedIdentity p) : r ∈ rows := by
  have haddr : ¬ p.addresses r := fun h => hne (rowIdentity_of_addresses h)
  cases hrew with
  | created => exact mem_append_left _ hr
  | updated => exact mem_map.mpr ⟨r, hr, if_neg haddr⟩
  | deleted => exact mem_filter.mpr ⟨hr, by simpa using haddr⟩

theorem stored_after_of_ne (h : Gapless db) (hrew : Rewrites db p verb after.rows)
    (hk : k ≠ preparedIdentity p) : Stored after k ↔ Stored db k := by
  constructor
  · rintro ⟨r, hr, rfl⟩
    rcases h.version_after hrew hr with ⟨hold, -⟩ | ⟨hid, -⟩
    · exact ⟨r, hold, rfl⟩
    · exact absurd hid hk
  · rintro ⟨r, hr, rfl⟩
    exact ⟨r, mem_rows_of_ne hrew hr hk, rfl⟩

theorem stored_after_self (h : Gapless db) (hrew : Rewrites db p verb after.rows) :
    Stored after (preparedIdentity p) ↔ verb ≠ .deleted := by
  unfold Stored
  generalize hrows : after.rows = rows at hrew
  cases hrew with
  | created =>
    refine iff_of_true ⟨_, mem_append_right _ (mem_singleton_self _), rfl⟩ (by simp)
  | updated hrow =>
    obtain ⟨r, hr, haddr⟩ := exists_addressed hrow
    refine iff_of_true ⟨_, mem_map.mpr ⟨r, hr, if_pos haddr⟩, rfl⟩ (by simp)
  | deleted hrow =>
    refine iff_of_false ?_ (by simp)
    rintro ⟨r, hr, hid⟩
    obtain ⟨hold, hkept⟩ := mem_filter.mp hr
    rw [h.addresses_of_identity hrow hold hid] at hkept
    cases hkept

variable {e : OutboxRow}

theorem Ended.verb_ne (hgapless : Gapless db) (h : Ended db) (happlied : Applied db p after env)
    (he : e ∈ db.outbox) (hk : eventIdentity e = preparedIdentity p) :
    e.verb ≠ .deleted := by
  intro hverb
  by_cases hzero : currentVersion db p = 0
  · have hmem : e ∈ events db (preparedIdentity p) := mem_history.mpr ⟨he, hk⟩
    rw [hgapless.events_eq_nil happlied hzero] at hmem
    simp at hmem
  · exact (h.deleted e he hverb).2 (hk ▸ stored_of_currentVersion hzero)

theorem eventIdentity_outboxRow (happlied : Applied db p after env) :
    eventIdentity (outboxRow env) = preparedIdentity p := by
  rw [happlied.env_eq]
  rfl

theorem isLast_outboxRow (h : Gapless db) (happlied : Applied db p after env) :
    IsLast after (outboxRow env) := by
  have hversion : (outboxRow env).version = currentVersion db p + 1 := by
    rw [happlied.env_eq]
    rfl
  rw [IsLast, eventIdentity_outboxRow happlied, events_after_self happlied, hversion,
    h.next_eq happlied]
  push_cast
  rfl

theorem isLast_after_of_ne (happlied : Applied db p after env)
    (hk : eventIdentity e ≠ preparedIdentity p) : IsLast after e ↔ IsLast db e := by
  rw [IsLast, IsLast, events_after_of_ne happlied hk]

theorem not_isLast_after (h : Gapless db) (happlied : Applied db p after env) (he : e ∈ db.outbox)
    (hk : eventIdentity e = preparedIdentity p) : ¬ IsLast after e := by
  have hle : e.version ≤ (events db (preparedIdentity p)).length :=
    h.numbered.le_length (mem_history.mpr ⟨he, hk⟩)
  rw [IsLast, hk, events_after_self happlied]
  push_cast
  omega

theorem Ended.apply (hgapless : Gapless db) (h : Ended db) (happlied : Applied db p after env) :
    Ended after := by
  have hself : Stored after (preparedIdentity p) ↔ (outboxRow env).verb ≠ .deleted :=
    stored_after_self hgapless happlied.rows
  have hnew := eventIdentity_outboxRow happlied
  refine ⟨fun e he hverb => ?_, fun e he hlast hverb => ?_⟩
  · rw [happlied.outbox, mem_append, mem_singleton] at he
    rcases he with he | rfl
    · have hk : eventIdentity e ≠ preparedIdentity p := fun hk =>
        h.verb_ne hgapless happlied he hk hverb
      rw [isLast_after_of_ne happlied hk, stored_after_of_ne hgapless happlied.rows hk]
      exact h.deleted e he hverb
    · rw [hnew, hself]
      exact ⟨isLast_outboxRow hgapless happlied, fun hne => hne hverb⟩
  · rw [happlied.outbox, mem_append, mem_singleton] at he
    rcases he with he | rfl
    · have hk : eventIdentity e ≠ preparedIdentity p := fun hk =>
        not_isLast_after hgapless happlied he hk hlast
      rw [stored_after_of_ne hgapless happlied.rows hk]
      exact h.stored e he ((isLast_after_of_ne happlied hk).mp hlast) hverb
    · rw [hnew, hself]
      exact hverb

theorem isAggregate_of_prepare {x : Executor} {r : Request} (h : r.prepare x = .ok p) :
    x.reg.get p.entity.name = some p.entity ∧ p.entity.isAggregate := by
  obtain ⟨entity, hentity, h⟩ := bind_eq_ok.mp h
  obtain ⟨aggId, -, h⟩ := bind_eq_ok.mp h
  obtain ⟨vals, -, h⟩ := bind_eq_ok.mp h
  cases h
  have hget := lookupEntity_eq_ok hentity
  refine ⟨Registry.name_of_get hget ▸ hget, ?_⟩
  unfold lookupEntity at hentity
  rw [hget] at hentity
  by_contra hagg
  simp [hagg] at hentity

theorem rows_of_aggregates (x : Executor) (batches : List (List Request)) :
    ∀ r ∈ (runBatches x batches).db.rows,
      ∃ ent, x.reg.get r.entity = some ent ∧ ent.isAggregate := by
  refine runBatches_invariant (P := fun s => ∀ r ∈ s.db.rows,
    ∃ ent, x.reg.get r.entity = some ent ∧ ent.isAggregate) (forall_mem_nil _) ?_
  rintro s p t ⟨batch, -, request, -, hprepare⟩ h hnext r hr
  obtain ⟨env, happly, -⟩ := applyNext_eq_ok hnext
  rcases (apply_eq_ok happly).rows.mem hr with hold | ⟨vals, rfl⟩
  · exact h r hold
  · exact ⟨p.entity, isAggregate_of_prepare hprepare⟩

theorem ended_empty : Ended Db.empty := ⟨forall_mem_nil _, forall_mem_nil _⟩

theorem ended_runBatches (x : Executor) (batches : List (List Request)) :
    Ended (runBatches x batches).db := by
  refine (runBatches_invariant (P := fun s => Gapless s.db ∧ Ended s.db)
    ⟨gapless_empty, ended_empty⟩ ?_).2
  rintro s p t _ ⟨hgapless, h⟩ hnext
  obtain ⟨env, happly, -⟩ := applyNext_eq_ok hnext
  exact ⟨hgapless.apply (apply_eq_ok happly), h.apply hgapless (apply_eq_ok happly)⟩

end Fabriq.Exec.LastEvent
