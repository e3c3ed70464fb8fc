import Fabriq.Shard.PoolManager

/-!
What every interleaving keeps of the pool: each shard has a slot, which ties its entry, the calls
that dial it, its open stacks and its leases together.
-/

namespace Fabriq.Shard.PoolManager

open List Option Lib.Assoc

/-- The shard that a call dials for, with the stack that it has already opened. -/
def Call.dialer : Call → Option (String × Option Nat)
  | .dialing shardId => some (shardId, none)
  | .dialed shardId stack => some (shardId, stack)
  | _ => none

namespace World

def dialer (w : World) (i : Nat) : Option (String × Option Nat) :=
  w.calls[i]?.bind Call.dialer

def refs (w : World) (id : String) : Nat :=
  (w.entries.lookup id).elim 0 PoolEntry.refs

def outstanding (w : World) (id : String) : Nat :=
  w.leases.countP fun l => l.shardId == id && !l.released

def held (w : World) (id : String) : List Lease :=
  w.leases.filter fun l => l.shardId == id && !l.released

end World

/-- What the pool has for a shard: nothing, a call that dials it with the stack that it has
opened, or an open stack. -/
inductive Slot
  | idle
  | dialing (i : Nat) (r : Option Nat)
  | ready (k : Nat)

namespace Slot

def stack : Slot → Option Nat
  | .ready k => some k
  | _ => none

def dialer : Slot → Option (Nat × Option Nat)
  | .dialing i r => some (i, r)
  | _ => none

def opened : Slot → Option Nat
  | .idle => none
  | .dialing _ r => r
  | .ready k => some k

end Slot

structure Slotted (w : World) (id : String) (slot : Slot) : Prop where
  entry : (w.entries.lookup id).elim (none, none) (fun e => (e.stack, e.dialing)) =
    (slot.stack, slot.dialer.map Prod.fst)
  dialer : ∀ i r, w.dialer i = some (id, r) ↔ slot.dialer = some (i, r)
  opened : ∀ k, w.allStacks[k]? = some ⟨id, true⟩ ↔ slot.opened = some k
  refs : w.refs id = (w.held id).length
  leased : ∀ l ∈ w.held id, slot.stack = some l.stack

structure Linked (cap : Nat) (w : World) : Prop where
  nodup : (w.entries.map Prod.fst).Nodup
  slots : ∀ id, ∃ slot, Slotted w id slot
  capacity : liveCountLocked w.entries ≤ cap

structure SameAt (w w' : World) (id : String) : Prop where
  entry : w'.entries.lookup id = w.entries.lookup id
  dialer : ∀ i r, w'.dialer i = some (id, r) ↔ w.dialer i = some (id, r)
  opened : ∀ k : Nat, w'.allStacks[k]? = some ⟨id, true⟩ ↔ w.allStacks[k]? = some ⟨id, true⟩
  held : w'.held id = w.held id

variable {cap i j k now : Nat} {w w' : World} {c old : Call} {id id' : String} {slot : Slot}
  {e e' : PoolEntry} {l : Lease} {r : Option Nat}

theorem SameAt.trans {u : World} (h : SameAt w w' id) (h' : SameAt w' u id) : SameAt w u id where
  entry := h'.entry.trans h.entry
  dialer i r := (h'.dialer i r).trans (h.dialer i r)
  opened k := (h'.opened k).trans (h.opened k)
  held := h'.held.trans h.held

section

variable (h : Slotted w id slot)
include h

theorem Slotted.frame (hsame : SameAt w w' id) : Slotted w' id slot where
  entry := hsame.entry ▸ h.entry
  dialer i r := (hsame.dialer i r).trans (h.dialer i r)
  opened k := (hsame.opened k).trans (h.opened k)
  refs := by
    rw [World.refs, hsame.entry, hsame.held]
    exact h.refs
  leased := hsame.held ▸ h.leased

omit h in
theorem Linked.update (h : Linked cap w) (id : String) (slot : Slot)
    (hother : ∀ id' ≠ id, SameAt w w' id') (hself : Slotted w' id slot)
    (hnodup : (w'.entries.map Prod.fst).Nodup)
    (hcap : liveCountLocked w'.entries ≤ cap) : Linked cap w' := by
  refine ⟨hnodup, fun id' => ?_, hcap⟩
  rcases eq_or_ne id' id with rfl | hne
  · exact ⟨slot, hself⟩
  · obtain ⟨other, hslot⟩ := h.slots id'
    exact ⟨other, hslot.frame (hother id' hne)⟩

omit h in
theorem Linked.frame (h : Linked cap w) (hentries : w'.entries = w.entries)
    (hsame : ∀ id, SameAt w w' id) : Linked cap w' := by
  refine ⟨hentries ▸ h.nodup, fun id => ?_, hentries ▸ h.capacity⟩
  obtain ⟨slot, hslot⟩ := h.slots id
  exact ⟨slot, hslot.frame (hsame id)⟩

theorem Slotted.eq_idle
    (he : ∀ f, w.entries.lookup id = some f → f.stack = none ∧ f.dialing = none) :
    slot = .idle := by
  have hentry := h.entry
  cases hf : w.entries.lookup id with
  | none =>
    rw [hf] at hentry
    cases slot <;> simp_all [Slot.stack, Slot.dialer]
  | some f =>
    cases slot <;> simp_all [Slot.stack, Slot.dialer]

theorem Slotted.eq_ready (hk : slot.stack = some k) : slot = .ready k := by
  cases slot with
  | ready k' => exact congrArg _ (some.inj hk)
  | idle | dialing => cases hk

theorem Slotted.stack_eq (he : w.entries.lookup id = some e) : slot.stack = e.stack := by
  have hentry := h.entry
  rw [he] at hentry
  exact (congrArg Prod.fst hentry).symm

theorem Slotted.eq_dialing (hi : w.dialer i = some (id, r)) : slot = .dialing i r := by
  have hdialer := (h.dialer i r).mp hi
  cases slot with
  | dialing i' r' =>
    cases hdialer
    rfl
  | idle | ready => cases hdialer

theorem Slotted.live (hne : slot ≠ .idle) : ∃ e, w.entries.lookup id = some e ∧ e.live := by
  have hentry := h.entry
  cases he : w.entries.lookup id with
  | none =>
    rw [he] at hentry
    cases slot <;> simp_all [Slot.stack, Slot.dialer]
  | some e =>
    refine ⟨e, rfl, ?_⟩
    cases slot <;> simp_all [Slot.stack, Slot.dialer, PoolEntry.live]

omit h in
theorem mem_held : l ∈ w.held id ↔ l ∈ w.leases ∧ l.shardId = id ∧ l.released = false := by
  simp [World.held]

omit h in
theorem outstanding_eq (w : World) (id : String) : w.outstanding id = (w.held id).length :=
  countP_eq_length_filter

theorem held_eq_nil (hnone : slot.stack = none) : w.held id = [] := by
  refine eq_nil_iff_forall_not_mem.mpr fun l hl => ?_
  exact absurd ((h.leased l hl).symm.trans hnone) (by simp)

end

theorem dialer_setCall (h : w.calls[i]? = some old) (j : Nat) :
    (w.setCall i c).dialer j = if j = i then c.dialer else w.dialer j := by
  have hlt : i < w.calls.length := (List.getElem?_eq_some_iff.mp h).1
  by_cases hji : j = i
  · subst hji
    simp [World.dialer, World.setCall, hlt]
  · simp [World.dialer, World.setCall, Ne.symm hji, hji]

theorem dialer_eq (h : w.calls[i]? = some old) : w.dialer i = old.dialer := by
  simp [World.dialer, h]

theorem sameAt_setCall (hcall : w.calls[i]? = some old)
    (hsame : ∀ r, c.dialer = some (id, r) ↔ old.dialer = some (id, r)) :
    SameAt w (w.setCall i c) id := by
  refine ⟨rfl, fun j r => ?_, fun _ => Iff.rfl, rfl⟩
  rw [dialer_setCall hcall]
  split
  · rename_i hji
    rw [hsame, hji, dialer_eq hcall]
  · rfl

theorem Linked.setCall (h : Linked cap w) (hcall : w.calls[i]? = some old)
    (hsame : c.dialer = old.dialer) : Linked cap (w.setCall i c) :=
  h.frame rfl fun _ => sameAt_setCall hcall fun _ => by rw [hsame]

theorem sameAt_setEntry (hid : id' ≠ id) : SameAt w (w.setEntry id e) id' :=
  ⟨lookup_put.trans (if_neg hid), fun _ _ => Iff.rfl, fun _ => Iff.rfl, rfl⟩

theorem lookup_setEntry : (w.setEntry id e).entries.lookup id = some e :=
  lookup_put.trans (if_pos rfl)

theorem liveCount_setEntry (hnodup : (w.entries.map Prod.fst).Nodup) (id : String) (e : PoolEntry) :
    liveCountLocked (w.setEntry id e).entries +
        ((w.entries.lookup id).elim 0 fun f => if f.live then 1 else 0) =
      liveCountLocked w.entries + if e.live then 1 else 0 :=
  countP_put hnodup fun x => x.2.live

theorem Linked.capacity_setEntry (h : Linked cap w) (hslot : Slotted w id slot)
    (hne : slot ≠ .idle) (e : PoolEntry) : liveCountLocked (w.setEntry id e).entries ≤ cap := by
  obtain ⟨f, hf, hlive⟩ := hslot.live hne
  have hcount := liveCount_setEntry h.nodup id e
  rw [hf, elim_some, if_pos hlive] at hcount
  have hcap := h.capacity
  have hone : (if e.live then 1 else 0) ≤ 1 := by
    split <;> omega
  omega

theorem refs_eq (he : w.entries.lookup id = some e) : w.refs id = e.refs := by
  rw [World.refs, he]
  rfl

theorem held_handOut (shardId : String) : (w.handOut i shardId k).held id =
      w.held id ++ if id = shardId then [⟨shardId, k, false⟩] else [] := by
  rw [World.held, World.handOut, filter_append]
  by_cases hid : id = shardId
  · simp [hid, World.held]
  · simp [hid, Ne.symm hid, World.held]

/-- A shard is handed out: by the call that has dialed it, or while it is ready. -/
theorem Linked.handOut (h : Linked cap w) (hcall : w.calls[i]? = some old)
    (hold : ∀ id' r, old.dialer = some (id', r) → id' = id) (hslot : Slotted w id slot)
    (hdialer : ∀ j r, slot.dialer = some (j, r) → j = i) (hopened : slot.opened = some k)
    (he : e.stack = some k ∧ e.dialing = none ∧ e.refs = w.refs id + 1)
    (hleased : ∀ l ∈ w.held id, l.stack = k) : Linked cap ((w.setEntry id e).handOut i id k) := by
  have hcall' : (w.setEntry id e).calls[i]? = some old := hcall
  have hne : slot ≠ .idle := by
    rintro rfl
    cases hopened
  have hdial : ∀ j, ((w.setEntry id e).handOut i id k).dialer j =
      if j = i then none else w.dialer j := dialer_setCall hcall'
  refine h.update id (.ready k) (fun id' hid => ?_) ⟨?_, fun j r => ?_, fun l => ?_, ?_, ?_⟩
    (nodup_put h.nodup) (h.capacity_setEntry hslot hne e)
  · have hset := (sameAt_setEntry (e := e) hid).trans (sameAt_setCall (w := w.setEntry id e)
      (c := .acquired w.leases.length) hcall' fun r => iff_of_false (by simp [Call.dialer])
        fun hr => hid (hold id' r hr))
    refine ⟨hset.entry, hset.dialer, hset.opened, ?_⟩
    rw [held_handOut, if_neg hid, append_nil]
    rfl
  · change ((w.setEntry id e).entries.lookup id).elim _ _ = _
    rw [lookup_setEntry, elim_some, he.1, he.2.1]
    rfl
  · refine iff_of_false (fun hj => ?_) (by simp [Slot.dialer])
    rw [hdial] at hj
    split at hj
    · cases hj
    · rename_i hji
      exact hji (hdialer j r ((hslot.dialer j r).mp hj))
  · exact (hslot.opened l).trans (by rw [hopened]; rfl)
  · rw [held_handOut, if_pos rfl, length_append]
    exact (refs_eq lookup_setEntry).trans (he.2.2.trans (congrArg (· + 1) hslot.refs))
  · intro l hl
    rw [held_handOut, if_pos rfl] at hl
    rcases mem_append.mp hl with hl | hl
    · exact congrArg some (hleased l hl).symm
    · rw [mem_singleton.mp hl]
      rfl

theorem exists_split (hl : w.leases[j]? = some l) :
    ∃ before after, w.leases = before ++ l :: after ∧
      ∀ l', w.leases.set j l' = before ++ l' :: after := by
  obtain ⟨hlt, rfl⟩ := List.getElem?_eq_some_iff.mp hl
  refine ⟨w.leases.take j, w.leases.drop (j + 1), ?_, fun l' => ?_⟩
  · rw [getElem_cons_drop, take_append_drop]
  · rw [set_eq_take_append_cons_drop, if_pos hlt]

theorem Linked.release (h : Linked cap w) (hl : w.leases[j]? = some l) :
    Linked cap (release w j l now) := by
  rw [PoolManager.release]
  split
  · exact h
  · rename_i hopen
    have hrel : l.released = false := by simpa using hopen
    obtain ⟨slot, hslot⟩ := h.slots l.shardId
    have hstack := hslot.leased l (mem_held.mpr ⟨mem_of_getElem? hl, rfl, hrel⟩)
    have hne : slot ≠ .idle := by
      rintro rfl
      cases hstack
    obtain ⟨e, he, -⟩ := hslot.live hne
    obtain ⟨before, after, hsplit, hset⟩ := exists_split hl
    have hrefs := (refs_eq he).symm.trans hslot.refs
    simp only [World.held, hsplit, filter_append, filter_cons, hrel, beq_self_eq_true,
      Bool.not_false, Bool.and_self, if_true, length_append, length_cons] at hrefs
    rw [he, hset]
    dsimp only
    rw [if_pos (by omega)]
    refine h.update _ slot (fun id' hid => ?_)
      ⟨?_, hslot.dialer, hslot.opened, ?_, fun l' hl' => hslot.leased l' ?_⟩
      (nodup_put h.nodup) (h.capacity_setEntry hslot hne _)
    · refine ⟨lookup_put.trans (if_neg hid), fun _ _ => Iff.rfl, fun _ => Iff.rfl, ?_⟩
      simp [World.held, World.setEntry, hsplit, Ne.symm hid]
    · have hentry := hslot.entry
      rw [he] at hentry
      rw [lookup_setEntry]
      exact hentry
    · rw [refs_eq lookup_setEntry]
      simp only [World.held, World.setEntry, filter_append, filter_cons, Bool.not_true,
        Bool.and_false, Bool.false_eq_true, if_false, length_append]
      omega
    · have hsub := mem_held.mp hl'
      refine mem_held.mpr ⟨?_, hsub.2⟩
      have hmem : l' ∈ before ++ { l with released := true } :: after := hsub.1
      rw [hsplit]
      simp only [mem_append, mem_cons] at hmem ⊢
      rcases hmem with hmem | rfl | hmem
      · exact .inl hmem
      · exact absurd hsub.2.2 (by simp)
      · exact .inr (.inr hmem)

end Fabriq.Shard.PoolManager
