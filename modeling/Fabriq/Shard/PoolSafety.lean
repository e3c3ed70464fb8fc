import Mathlib.Data.List.Perm.Subperm
import Fabriq.Shard.PoolInvariant

namespace Fabriq.Shard.PoolManager

open Lib.Assoc Lib.Machine List Option

variable {cap : Nat} {w w' : World} {order : List String}

def Idle (entries : List (String × PoolEntry)) (v : String × PoolEntry) : Prop :=
  entries.lookup v.1 = some v.2 ∧ v.2.stack.isSome = true ∧ v.2.refs = 0

variable {best : Option (String × PoolEntry)} {entries : List (String × PoolEntry)}

theorem idle_scanIdle (hbest : ∀ v ∈ best, Idle entries v) (id : String) :
    ∀ v ∈ scanIdle entries best id, Idle entries v := by
  fun_cases scanIdle entries best id <;> try exact hbest
  all_goals
    have hidle := ‹¬ (_ || _) = true›
    rintro v ⟨⟩
    simp only [Bool.or_eq_true, isNone_iff_eq_none, decide_eq_true_eq, not_or] at hidle
    exact ⟨‹_›, isSome_iff_ne_none.mpr hidle.1, by dsimp only; omega⟩

theorem idle_foldl (hbest : ∀ v ∈ best, Idle entries v) :
    ∀ v ∈ order.foldl (scanIdle entries) best, Idle entries v := by
  induction order generalizing best with
  | nil => exact hbest
  | cons id rest ih => exact ih (idle_scanIdle hbest id)

/-- A step closes an open stack only with no lease of its shard outstanding. -/
def ClosesIdle (w w' : World) : Prop :=
  ∀ (k : Nat) (id : String), w.allStacks[k]? = some ⟨id, true⟩ →
    w'.allStacks[k]? = some ⟨id, true⟩ ∨ w.outstanding id = 0

theorem closesIdle_of_eq (h : w'.allStacks = w.allStacks) : ClosesIdle w w' :=
  fun _ _ hk => .inl (h ▸ hk)

/-- What evictions leave: leases and calls, and every entry that is not ready. -/
structure Evicted (w w' : World) : Prop where
  leases : w'.leases = w.leases
  calls : w'.calls = w.calls
  kept : ∀ id, (∀ e, w.entries.lookup id = some e → e.stack = none) →
    w'.entries.lookup id = w.entries.lookup id
  closes : ClosesIdle w w'

theorem Evicted.refl (w : World) : Evicted w w := ⟨rfl, rfl, fun _ _ => rfl, closesIdle_of_eq rfl⟩

theorem Evicted.trans {u : World} (h : Evicted w w') (h' : Evicted w' u) : Evicted w u where
  leases := h'.leases.trans h.leases
  calls := h'.calls.trans h.calls
  kept id hid := (h'.kept id (h.kept id hid ▸ hid)).trans (h.kept id hid)
  closes k id hk := by
    rcases h.closes k id hk with hopen | hout
    · rw [World.outstanding, ← h.leases]
      exact h'.closes k id hopen
    · exact .inr hout

theorem getElem?_closeStack {allStacks : List Stack} {k : Nat} (j : Nat) (id : String) :
    (closeStack allStacks (some k))[j]? = some ⟨id, true⟩ ↔
      j ≠ k ∧ allStacks[j]? = some ⟨id, true⟩ := by
  rw [closeStack, getElem?_modify]
  by_cases hjk : j = k
  · simp [hjk]
  · simp [hjk, Ne.symm hjk]

theorem evicted_evictIdle (h : Linked cap w) (hevict : evictIdleLocked w order = some w') :
    Linked cap w' ∧ Evicted w w' := by
  obtain ⟨⟨id, e⟩, hvictim, rfl⟩ := map_eq_some_iff.mp hevict
  obtain ⟨hlookup, hready, hrefs⟩ : w.entries.lookup id = some e ∧ e.stack.isSome ∧
      e.refs = 0 := idle_foldl (by simp) _ hvictim
  obtain ⟨k, hk⟩ := isSome_iff_exists.mp hready
  obtain ⟨slot, hslot⟩ := h.slots id
  obtain rfl := hslot.eq_ready ((hslot.stack_eq hlookup).trans hk)
  have hheld : w.held id = [] := by
    rw [← length_eq_zero_iff, ← hslot.refs, refs_eq hlookup]
    exact hrefs
  have hmine : ∀ (j : Nat) (id' : String), w.allStacks[j]? = some ⟨id', true⟩ →
      j = k → id' = id := by
    rintro j id' hj rfl
    rw [(hslot.opened j).mpr rfl] at hj
    cases hj
    rfl
  refine ⟨h.update id .idle (fun id' hid => ⟨lookup_drop.trans (if_neg hid),
    fun _ _ => Iff.rfl, fun j => ?_, rfl⟩) ⟨?_, hslot.dialer, fun j => ?_, ?_, ?_⟩
    (nodup_drop h.nodup) ?_, rfl, rfl, fun id' hid => ?_, fun j id' hj => ?_⟩
  · rw [hk, getElem?_closeStack]
    exact and_iff_right_of_imp fun hj hjk => hid (hmine j id' hj hjk)
  · rw [lookup_drop, if_pos rfl]
    rfl
  · rw [hk, getElem?_closeStack, hslot.opened]
    refine iff_of_false (fun hj => hj.1 (some.inj hj.2).symm) (by simp [Slot.opened])
  · rw [World.refs, lookup_drop, if_pos rfl]
    exact (congrArg length hheld).symm
  · intro l hl
    have hl' : l ∈ w.held id := hl
    rw [hheld] at hl'
    cases hl'
  · have hcount := countP_drop h.nodup (mem_of_lookup hlookup) fun x => x.2.live
    exact Nat.le_trans (Nat.le.intro hcount.symm) h.capacity
  · refine lookup_drop.trans (if_neg ?_)
    rintro rfl
    rw [hid e hlookup] at hk
    cases hk
  · by_cases hjk : j = k
    · rw [hmine j id' hj hjk, outstanding_eq, hheld]
      exact .inr rfl
    · refine .inl ?_
      rw [hk, getElem?_closeStack]
      exact ⟨hjk, hj⟩

variable {orders : List (List String)}

theorem evicted_ensureCapacity {room : Bool} (hlinked : Linked cap w)
    (h : ensureCapacity cap w orders = some (w', room)) :
    Linked cap w' ∧ Evicted w w' ∧ (room → liveCountLocked w'.entries < cap) := by
  revert h
  fun_induction ensureCapacity cap w orders <;> intro h <;> try cases h
  · rename_i hroom
    exact ⟨hlinked, .refl _, fun _ => hroom⟩
  · exact ⟨hlinked, .refl _, nofun⟩
  · rename_i hevict ih
    obtain ⟨hlinked', hevicted⟩ := evicted_evictIdle hlinked hevict
    obtain ⟨hl, he, hroom⟩ := ih hlinked' h
    exact ⟨hl, hevicted.trans he, hroom⟩

variable {i : Nat} {id : String} {e : PoolEntry} {old : Call}

/-- The entry of a shard and the call that dials it change together, from one slot to another
without a ready stack. -/
theorem Linked.redial {slot : Slot} {c : Call} (h : Linked cap w) (slot' : Slot)
    (hcall : w.calls[i]? = some old) (hslot : Slotted w id slot)
    (hold : ∀ j r, slot.dialer = some (j, r) → j = i)
    (hcalls : ∀ id' ≠ id, ∀ r, c.dialer = some (id', r) ↔ old.dialer = some (id', r))
    (hnew : ∀ j r, slot'.dialer = some (j, r) ↔ j = i ∧ c.dialer = some (id, r))
    (hopened : slot'.opened = slot.opened) (hstack : slot'.stack = slot.stack)
    (he : (e.stack, e.dialing) = (slot'.stack, slot'.dialer.map Prod.fst))
    (hrefs : e.refs = w.refs id) (hcap : liveCountLocked (w.setEntry id e).entries ≤ cap) :
    Linked cap ((w.setEntry id e).setCall i c) := by
  have hcall' : (w.setEntry id e).calls[i]? = some old := hcall
  refine h.update id slot' (fun id' hid => ?_) ⟨?_, fun j r => ?_, fun k => ?_, ?_, ?_⟩
    (nodup_put h.nodup) hcap
  · exact (sameAt_setEntry hid).trans (sameAt_setCall hcall' (hcalls id' hid))
  · change ((w.setEntry id e).entries.lookup id).elim _ _ = _
    rw [lookup_setEntry]
    exact he
  · rw [dialer_setCall hcall', hnew]
    split
    · rename_i hji
      exact (and_iff_right hji).symm
    · rename_i hji
      exact iff_of_false (fun hj => hji (hold j r ((hslot.dialer j r).mp hj))) fun hj => hji hj.1
  · rw [hopened]
    exact hslot.opened k
  · exact (refs_eq lookup_setEntry).trans (hrefs.trans hslot.refs)
  · rw [hstack]
    exact hslot.leased

theorem Linked.startDial (h : Linked cap w) (hcall : w.calls[i]? = some old)
    (hold : old.dialer = none) (hstack : e.stack = none)
    (hentry : ∀ f, w.entries.lookup id = some f → f.stack = none ∧ f.dialing = none)
    (hrefs : e.refs = w.refs id) (hroom : liveCountLocked w.entries < cap) :
    Linked cap ((w.setEntry id { e with dialing := some i }).setCall i (.dialing id)) := by
  obtain ⟨slot, hslot⟩ := h.slots id
  obtain rfl := hslot.eq_idle hentry
  refine h.redial (e := { e with dialing := some i }) (.dialing i none) hcall hslot
    (by simp [Slot.dialer]) (fun id' hid r => ?_) (fun j r => ?_) rfl rfl ?_ hrefs ?_
  · rw [hold]
    simp [Call.dialer, Ne.symm hid]
  · simp [Slot.dialer, Call.dialer, eq_comm]
  · rw [hstack]
    rfl
  · have hcount := liveCount_setEntry h.nodup id { e with dialing := some i }
    have hone : (if ({ e with dialing := some i } : PoolEntry).live then 1 else 0) ≤ 1 := by
      split <;> omega
    omega

theorem Linked.dialed (h : Linked cap w) (hcall : w.calls[i]? = some (.dialing id)) :
    Linked cap { w with
      allStacks := w.allStacks ++ [⟨id, true⟩]
      calls := w.calls.set i (.dialed id (some w.allStacks.length)) } := by
  have hstack : ∀ (k : Nat) (id' : String), (w.allStacks ++ [⟨id, true⟩])[k]? = some ⟨id', true⟩ ↔
      w.allStacks[k]? = some ⟨id', true⟩ ∨ k = w.allStacks.length ∧ id' = id := by
    intro k id'
    rcases Nat.lt_trichotomy k w.allStacks.length with hlt | rfl | hlt
    · simp [getElem?_append_left hlt, Nat.ne_of_lt hlt]
    · simp [eq_comm]
    · rw [getElem?_eq_none (by simpa [Nat.succ_le_iff] using hlt),
        getElem?_eq_none (Nat.le_of_lt hlt)]
      simp [Nat.ne_of_gt hlt]
  obtain ⟨slot, hslot⟩ := h.slots id
  obtain rfl := hslot.eq_dialing (dialer_eq hcall)
  refine h.update id (.dialing i (some w.allStacks.length)) (fun id' hid => ?_)
    ⟨hslot.entry, fun j r => ?_, fun k => ?_, hslot.refs, hslot.leased⟩ h.nodup h.capacity
  · have hset : SameAt w (w.setCall i (.dialed id (some w.allStacks.length))) id' :=
      sameAt_setCall hcall fun r => by simp [Call.dialer, Ne.symm hid]
    refine ⟨hset.entry, hset.dialer, fun k => ?_, hset.held⟩
    rw [hstack]
    simp [hid]
  · change (w.setCall i _).dialer j = _ ↔ _
    rw [dialer_setCall hcall]
    split
    · rename_i hji
      simp [Call.dialer, Slot.dialer, hji]
    · rename_i hji
      rw [hslot.dialer]
      simp [Slot.dialer, Ne.symm hji]
  · rw [hstack, hslot.opened]
    simp [Slot.opened, eq_comm]

variable {cfg : Config} {a : Action}

structure Kept (cap : Nat) (w w' : World) : Prop where
  linked : Linked cap w'
  closes : ClosesIdle w w'

section

variable (hlinked : Linked cfg.cap w)
include hlinked

theorem kept_setCall {c : Call} (hcall : w.calls[i]? = some old)
    (hsame : c.dialer = old.dialer) : Kept cfg.cap w (w.setCall i c) :=
  ⟨hlinked.setCall hcall hsame, closesIdle_of_eq rfl⟩

theorem kept_startDial (hcall : w.calls[i]? = some (.trying id))
    (hentry : ∀ f, w.entries.lookup id = some f → f.stack = none ∧ f.dialing = none)
    (hstack : e.stack = none) (hrefs : e.refs = w.refs id)
    (hstep : startDial cfg w i id e orders = some w') : Kept cfg.cap w w' := by
  obtain ⟨⟨u, room⟩, hroom, rfl⟩ := map_eq_some_iff.mp hstep
  obtain ⟨hlinked', hevicted, hlt⟩ := evicted_ensureCapacity hlinked hroom
  have hcall' : u.calls[i]? = some (.trying id) := hevicted.calls ▸ hcall
  have hkept := hevicted.kept id fun f hf => (hentry f hf).1
  cases room with
  | false => exact ⟨hlinked'.setCall hcall' rfl, hevicted.closes⟩
  | true =>
    refine ⟨hlinked'.startDial hcall' rfl hstack (hkept ▸ hentry) ?_ (hlt rfl), hevicted.closes⟩
    rw [hrefs, World.refs, World.refs, hkept]

theorem kept_tryAcquire {now : Nat}
    (hcall : w.calls[i]? = some (.trying id)) (hstep : tryAcquire cfg w i id now orders = some w') :
    Kept cfg.cap w w' := by
  revert hstep
  fun_cases tryAcquire cfg w i id now orders <;> intro hstep <;> try cases hstep
  · rename_i hnone
    refine kept_startDial hlinked hcall (by simp [hnone]) rfl ?_ hstep
    rw [World.refs, hnone]
    rfl
  · rename_i e he k hk
    obtain ⟨slot, hslot⟩ := hlinked.slots id
    obtain rfl := hslot.eq_ready ((hslot.stack_eq he).trans hk)
    have hdialing : e.dialing = none := by
      simpa [he, Slot.dialer, hk, Slot.stack] using hslot.entry
    refine ⟨hlinked.handOut hcall (by simp [Call.dialer]) hslot (by simp [Slot.dialer]) rfl
      ⟨hk, hdialing, congrArg (· + 1) (refs_eq he).symm⟩ fun l hl => ?_, closesIdle_of_eq rfl⟩
    exact (some.inj (hslot.leased l hl)).symm
  · exact kept_setCall hlinked hcall rfl
  · exact kept_setCall hlinked hcall rfl
  · rename_i he hk hdialing _
    refine kept_startDial hlinked hcall (fun f hf => ?_) hk (refs_eq he).symm hstep
    rw [← some.inj (he.symm.trans hf)]
    exact ⟨hk, hdialing⟩

theorem updateDialed_eq {r : Option Nat} (hcall : w.calls[i]? = some (.dialed id r))
    (f : PoolEntry → PoolEntry) :
    Slotted w id (.dialing i r) ∧ ∃ e, w.entries.lookup id = some e ∧ e.stack = none ∧
      w.updateDialed i id f = w.setEntry id (f e) := by
  obtain ⟨slot, hslot⟩ := hlinked.slots id
  obtain rfl := hslot.eq_dialing (dialer_eq hcall)
  obtain ⟨e, he, -⟩ := hslot.live (by simp)
  have hentry := hslot.entry
  rw [he] at hentry
  obtain ⟨hstack, hdialing⟩ : e.stack = none ∧ e.dialing = some i := Prod.mk.inj hentry
  refine ⟨hslot, e, he, hstack, ?_⟩
  simp only [World.updateDialed, he, if_pos hdialing]

theorem kept_recordFailure (hcall : w.calls[i]? = some (.dialed id none)) (now : Nat) :
    Kept cfg.cap w (recordFailure cfg w i id now) := by
  obtain ⟨hslot, e, he, hstack, hupdate⟩ := updateDialed_eq hlinked hcall _
  rw [recordFailure, hupdate]
  refine ⟨hlinked.redial (e := e.dialFailed cfg now) .idle hcall hslot (by simp [Slot.dialer])
    (fun id' hid r => ?_) (by simp [Slot.dialer, Call.dialer]) rfl rfl ?_ (refs_eq he).symm
    (hlinked.capacity_setEntry hslot (by simp) _), closesIdle_of_eq rfl⟩
  · simp [Call.dialer, Ne.symm hid]
  · exact congrArg (·, none) hstack

theorem kept_recordSuccess {k : Nat}
    (hcall : w.calls[i]? = some (.dialed id (some k))) (now : Nat) :
    Kept cfg.cap w (recordSuccess w i id k now) := by
  obtain ⟨hslot, e, he, hstack, hupdate⟩ := updateDialed_eq hlinked hcall _
  rw [recordSuccess, hupdate]
  have hheld := held_eq_nil hslot rfl
  refine ⟨hlinked.handOut hcall (by simp [Call.dialer, eq_comm]) hslot
    (by simp [Slot.dialer, eq_comm]) rfl ⟨rfl, rfl, ?_⟩ (by simp [hheld]), closesIdle_of_eq rfl⟩
  rw [hslot.refs, hheld]
  rfl

theorem kept_step (hstep : step cfg w a = some w') : Kept cfg.cap w w' := by
  revert hstep
  fun_cases step cfg w a <;> intro hstep <;> try cases hstep
  · rename_i shardId
    refine ⟨hlinked.frame rfl fun id => ⟨rfl, fun j r => ?_, fun _ => Iff.rfl, rfl⟩,
      closesIdle_of_eq rfl⟩
    simp only [World.dialer]
    rw [getElem?_append]
    split
    · rfl
    · rename_i hlt
      rw [getElem?_eq_none (Nat.le_of_not_lt hlt)]
      cases hnew : [Call.trying shardId][j - w.calls.length]? with
      | none => rfl
      | some c =>
        obtain rfl := mem_singleton.mp (mem_of_getElem? hnew)
        rfl
  · rename_i hcall
    exact kept_tryAcquire hlinked hcall hstep
  · rename_i hcall _ _
    exact kept_setCall hlinked hcall rfl
  · rename_i hcall
    exact kept_setCall hlinked hcall rfl
  · rename_i hcall
    exact kept_setCall hlinked hcall rfl
  · rename_i hcall
    exact kept_setCall hlinked hcall rfl
  · rename_i id hcall
    refine ⟨hlinked.dialed hcall, fun k id' hk => .inl ?_⟩
    rw [List.getElem?_append_left (List.getElem?_eq_some_iff.mp hk).1]
    exact hk
  · rename_i hcall _
    exact kept_setCall hlinked hcall rfl
  · rename_i hcall
    exact kept_recordFailure hlinked hcall _
  · rename_i hcall
    exact kept_recordSuccess hlinked hcall _
  · obtain ⟨l, hl, rfl⟩ := map_eq_some_iff.mp hstep
    refine ⟨hlinked.release hl, closesIdle_of_eq ?_⟩
    fun_cases release <;> rfl

end

structure PoolOk (cap : Nat) (w : World) : Prop where
  refs : ∀ id, w.refs id = w.outstanding id
  leased : ∀ l ∈ w.leases, l.released = false → w.allStacks[l.stack]? = some ⟨l.shardId, true⟩
  capacity : ∀ ids : List String, ids.Nodup →
    (∀ id ∈ ids, (∃ k : Nat, w.allStacks[k]? = some ⟨id, true⟩) ∨
      ∃ i : Nat, w.calls[i]? = some (.dialing id)) → ids.length ≤ cap
  oneDial : ∀ (i j : Nat) (id : String), w.calls[i]? = some (.dialing id) →
    w.calls[j]? = some (.dialing id) → i = j
  oneStack : ∀ (k l : Nat) (id : String), w.allStacks[k]? = some ⟨id, true⟩ →
    w.allStacks[l]? = some ⟨id, true⟩ → k = l

theorem Linked.live (h : Linked cap w) (hid : (∃ k : Nat, w.allStacks[k]? = some ⟨id, true⟩) ∨
      ∃ i : Nat, w.calls[i]? = some (.dialing id)) : ∃ e, (id, e) ∈ w.entries ∧ e.live := by
  obtain ⟨slot, hslot⟩ := h.slots id
  have hne : slot ≠ .idle := by
    rintro rfl
    rcases hid with ⟨k, hk⟩ | ⟨i, hi⟩
    · cases (hslot.opened k).mp hk
    · cases (hslot.dialer i none).mp (dialer_eq hi)
  obtain ⟨e, he, hlive⟩ := hslot.live hne
  exact ⟨e, mem_of_lookup he, hlive⟩

theorem Linked.length_le (h : Linked cap w) {ids : List String} (hnodup : ids.Nodup)
    (hids : ∀ id ∈ ids, (∃ k : Nat, w.allStacks[k]? = some ⟨id, true⟩) ∨
      ∃ i : Nat, w.calls[i]? = some (.dialing id)) : ids.length ≤ cap := by
  have hsub : ids ⊆ (w.entries.filter fun e => e.2.live).map Prod.fst := by
    intro id hid
    obtain ⟨e, he, hlive⟩ := h.live (hids id hid)
    exact mem_map.mpr ⟨(id, e), mem_filter.mpr ⟨he, hlive⟩, rfl⟩
  have hlength := (subperm_of_subset hnodup hsub).length_le
  rw [length_map, ← countP_eq_length_filter] at hlength
  exact Nat.le_trans hlength h.capacity

theorem Linked.poolOk (h : Linked cap w) : PoolOk cap w where
  refs id := by
    obtain ⟨slot, hslot⟩ := h.slots id
    rw [hslot.refs, outstanding_eq]
  leased l hl hrel := by
    obtain ⟨slot, hslot⟩ := h.slots l.shardId
    obtain rfl := hslot.eq_ready (hslot.leased l (mem_held.mpr ⟨hl, rfl, hrel⟩))
    exact (hslot.opened l.stack).mpr rfl
  capacity ids hnodup hids := h.length_le hnodup hids
  oneDial i j id hi hj := by
    obtain ⟨slot, hslot⟩ := h.slots id
    have hdialer := (hslot.dialer i none).mp (dialer_eq hi)
    rw [(hslot.dialer j none).mp (dialer_eq hj)] at hdialer
    cases hdialer
    rfl
  oneStack k l id hk hl := by
    obtain ⟨slot, hslot⟩ := h.slots id
    exact some.inj (((hslot.opened k).mp hk).symm.trans ((hslot.opened l).mp hl))

theorem linked_newPool (cap : Nat) : Linked cap newPool where
  nodup := nodup_nil
  slots id := ⟨.idle, rfl, by simp [newPool, World.dialer, Slot.dialer],
    by simp [newPool, Slot.opened], rfl, by simp [World.held, newPool]⟩
  capacity := Nat.zero_le cap

/-- In every interleaving the pool keeps its counts, its capacity and one dial and one stack for
each shard, and closes only shards that nobody holds. -/
theorem pool_safe {cfg : Config} {actions : List Action} {w : World}
    (hrun : run (step cfg) newPool actions = some w) :
    PoolOk cfg.cap w ∧ ∀ a w', step cfg w a = some w' → ClosesIdle w w' := by
  have hkeep : ∀ w a w', Linked cfg.cap w → step cfg w a = some w' → Linked cfg.cap w' :=
    fun w a w' h hstep => (kept_step h hstep).linked
  have hlinked := run_preserves hkeep (linked_newPool cfg.cap) hrun
  exact ⟨hlinked.poolOk, fun a w' hstep => (kept_step hlinked hstep).closes⟩

def busyPool : List Action :=
  [.acquire "a", .acquire "a", .tryAcquire 0 1 [], .tryAcquire 1 1 [], .dial 0 true, .record 0 2,
    .proceed 1, .tryAcquire 1 3 [], .acquire "b", .tryAcquire 2 3 [["a"]], .release 0 4,
    .release 0 5, .release 1 5, .proceed 2, .tryAcquire 2 6 [["a"]], .dial 2 false, .record 2 7]

theorem pool_safe_busyPool :
    ∃ w, run (step ⟨1, 2⟩) newPool busyPool = some w ∧ w.leases.length = 2 ∧ PoolOk 1 w ∧
      ∀ a w', step ⟨1, 2⟩ w a = some w' → ClosesIdle w w' := by
  refine ⟨_, rfl, by decide, ?_⟩
  exact pool_safe (show run (step ⟨1, 2⟩) newPool busyPool = some _ from rfl)

end Fabriq.Shard.PoolManager
