import Fabriq.Exec.Recreate
import Fabriq.Lib.KeyedLog

namespace Fabriq.Exec.OutboxVersions

open Core.Schema Exec.CommandStore Exec.Recreate Lib.KeyedLog Lib.Result List

abbrev Identity := String × String × String

def eventIdentity (row : OutboxRow) : Identity :=
  (row.tenantId, row.aggregate, row.aggId)

/-- An aggregate and a version of it: the key of `one_event_per_version`. -/
abbrev Change := Identity × Int

def rowChange (row : OutboxRow) : Change :=
  (eventIdentity row, row.version)

def rowIdentity (r : StoredRow) : Identity :=
  (r.tenant, r.entity, r.id)

def rowKey (r : StoredRow) : String × String :=
  (r.entity, r.id)

def preparedIdentity (p : Prepared) : Identity :=
  (p.tenantId, p.entity.name, p.aggId)

def events (db : Db) (k : Identity) : List OutboxRow :=
  history eventIdentity db.outbox k

/-- The outbox numbers the events of every aggregate, and a row holds the number of the
last one. -/
structure Gapless (db : Db) : Prop where
  numbered : Numbered eventIdentity OutboxRow.version db.outbox
  keys : (db.rows.map rowKey).Nodup
  version : ∀ r ∈ db.rows, r.version = (events db (rowIdentity r)).length
  started : ∀ r ∈ db.rows, r.version ≠ 0

variable {db after : Db} {p : Prepared} {env : Envelope}

variable {r : StoredRow}

theorem rowIdentity_of_addresses (h : p.addresses r) : rowIdentity r = preparedIdentity p := by
  obtain ⟨hentity, hid, hvisible⟩ := addresses_iff.mp h
  have htenant : r.tenant = p.tenantId := by
    simpa using (Bool.and_eq_true_iff.mp hvisible).1
  rw [rowIdentity, hentity, hid, htenant, preparedIdentity]

section

variable (h : Gapless db)
include h

theorem Gapless.currentVersion_eq (hrow : currentVersion db p ≠ 0) :
    currentVersion db p = (events db (preparedIdentity p)).length := by
  unfold currentVersion at hrow ⊢
  split at hrow
  · rename_i r hr
    rw [← rowIdentity_of_addresses (List.find?_some hr)]
    exact h.version r (mem_of_find?_eq_some hr)
  · exact absurd rfl hrow

theorem Gapless.addresses_of_identity (hrow : currentVersion db p ≠ 0)
    (hr : r ∈ db.rows) (hid : rowIdentity r = preparedIdentity p) :
    p.addresses r := by
  unfold currentVersion at hrow
  split at hrow
  · rename_i s hs
    have hsame : rowIdentity r = rowIdentity s :=
      hid.trans (rowIdentity_of_addresses (List.find?_some hs)).symm
    have heq : r = s := inj_on_of_nodup_map h.keys hr (mem_of_find?_eq_some hs)
      (congrArg Prod.snd hsame)
    exact heq ▸ List.find?_some hs
  · exact absurd rfl hrow

section

variable (happlied : Applied db p after env)
include happlied

theorem Gapless.events_eq_nil
    (hzero : currentVersion db p = 0) : events db (preparedIdentity p) = [] := by
  by_contra hne
  obtain ⟨row, hrow⟩ := exists_mem_of_ne_nil _ hne
  obtain ⟨first, hfirst, hone⟩ := h.numbered.exists_first hrow
  obtain ⟨hmem, hident⟩ := mem_history.mp hfirst
  have hfresh := happlied.fresh first hmem
  simp only [eventIdentity, preparedIdentity, Prod.mk.injEq] at hident
  rw [hzero, zero_add, ← Bool.not_eq_true, isVersion_iff] at hfresh
  exact hfresh ⟨hident.1, hident.2.1, hident.2.2, hone⟩

theorem Gapless.next_eq :
    currentVersion db p + 1 = (events db (preparedIdentity p)).length + 1 := by
  by_cases hzero : currentVersion db p = 0
  · rw [hzero, h.events_eq_nil happlied hzero]
    rfl
  · rw [h.currentVersion_eq hzero]

omit h in
theorem events_after_self :
    (events after (preparedIdentity p)).length = (events db (preparedIdentity p)).length + 1 := by
  have hident : eventIdentity (outboxRow env) = preparedIdentity p := by
    rw [happlied.env_eq]
    rfl
  rw [events, happlied.outbox, ← hident, history_append_self, length_append]
  rfl

omit h in
theorem events_after_of_ne {k : Identity}
    (hk : k ≠ preparedIdentity p) : events after k = events db k := by
  have hident : eventIdentity (outboxRow env) = preparedIdentity p := by
    rw [happlied.env_eq]
    rfl
  rw [events, happlied.outbox, history_append_of_ne (hident ▸ hk), events]

end

theorem Gapless.version_after {verb : Verb} {rows : List StoredRow}
    (hrew : Rewrites db p verb rows) (hr : r ∈ rows) :
    r ∈ db.rows ∧ rowIdentity r ≠ preparedIdentity p ∨
      rowIdentity r = preparedIdentity p ∧ r.version = currentVersion db p + 1 := by
  cases hrew with
  | created hzero habsent =>
    rcases mem_append.mp hr with hold | hnew
    · refine Or.inl ⟨hold, fun hid => habsent r hold ?_⟩
      simp only [rowIdentity, preparedIdentity, Prod.mk.injEq] at hid
      exact hid.2
    · rw [mem_singleton.mp hnew, hzero]
      exact .inr ⟨rfl, rfl⟩
  | updated hrow =>
    obtain ⟨s, hs, rfl⟩ := mem_map.mp hr
    split_ifs with haddr
    · exact .inr ⟨rfl, rfl⟩
    · exact .inl ⟨hs, fun hid => haddr (h.addresses_of_identity hrow hs hid)⟩
  | deleted hrow =>
    obtain ⟨hold, hkept⟩ := mem_filter.mp hr
    refine Or.inl ⟨hold, fun hid => ?_⟩
    rw [h.addresses_of_identity hrow hold hid] at hkept
    cases hkept

theorem Gapless.keys_after {verb : Verb} {rows : List StoredRow}
    (hrew : Rewrites db p verb rows) : (rows.map rowKey).Nodup := by
  cases hrew with
  | created _ habsent =>
    rw [map_append, map_singleton]
    refine nodup_append.mpr ⟨h.keys, nodup_singleton _, ?_⟩
    rintro _ hold _ hnew rfl
    obtain ⟨r, hr, hkey⟩ := mem_map.mp hold
    rw [mem_singleton.mp hnew] at hkey
    exact habsent r hr (Prod.mk.inj hkey)
  | updated =>
    -- A rewritten row keeps the entity and the id it was found by.
    rw [map_map]
    refine (map_congr_left fun r _ => ?_) ▸ h.keys
    rw [Function.comp_apply]
    split_ifs with haddr
    · obtain ⟨hentity, hid, -⟩ := addresses_iff.mp haddr
      exact congrArg₂ Prod.mk hentity hid
    · rfl
  | deleted => exact h.keys.sublist (filter_sublist.map _)

theorem Gapless.apply (happlied : Applied db p after env) : Gapless after := by
  have hnext := h.next_eq happlied
  refine ⟨?_, h.keys_after happlied.rows, fun r hr => ?_, fun r hr => ?_⟩
  · rw [happlied.outbox]
    refine h.numbered.append ?_
    rw [happlied.env_eq]
    exact hnext
  · rcases h.version_after happlied.rows hr with ⟨hold, hne⟩ | ⟨hid, hversion⟩
    · rw [events_after_of_ne happlied hne]
      exact h.version r hold
    · rw [hid, hversion, events_after_self happlied, hnext]
      push_cast
      rfl
  · rcases h.version_after happlied.rows hr with ⟨hold, -⟩ | ⟨-, hversion⟩
    · exact h.started r hold
    · omega

end

theorem gapless_empty : Gapless Db.empty := ⟨numbered_nil, .nil, forall_mem_nil _, forall_mem_nil _⟩

theorem gapless_runBatches (x : Executor) (batches : List (List Request)) :
    Gapless (runBatches x batches).db := by
  refine runBatches_invariant (P := fun s => Gapless s.db) gapless_empty ?_
  intro s p t _ h hnext
  obtain ⟨env, happly, -⟩ := applyNext_eq_ok hnext
  exact h.apply (apply_eq_ok happly)

theorem currentVersion_of_expected {v : Int} {r : Db × Envelope} (h : apply db p = .ok r)
    (hv : p.expectedVersion = some v) : currentVersion db p = v := by
  unfold apply at h
  split at h
  · simp [throw, throwThe, MonadExceptOf.throw, bind, Except.bind] at h
  · obtain ⟨_, hcheck, -⟩ := bind_eq_ok.mp h
    by_contra hne
    unfold checkVersion at hcheck
    simp only [hv, if_pos (Ne.symm hne)] at hcheck
    repeat' split at hcheck
    all_goals simp [throw, throwThe, MonadExceptOf.throw, bind, Except.bind] at hcheck

end Fabriq.Exec.OutboxVersions
