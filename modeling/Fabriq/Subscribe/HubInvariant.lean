import Fabriq.Subscribe.Hub

/-!
What holds of every channel in every state of the hub: the subscribers of its record are
exactly the subscriptions to it whose Go channel is open.
-/

namespace Fabriq.Subscribe

open Lib Lib.Assoc Lib.Machine List

structure RecordOk (cs : ChannelState) : Prop where
  keys : (cs.subs.map Prod.fst).Nodup
  lt_nextSub : ∀ e ∈ cs.subs, e.1 < cs.nextSub
  raw_pending : cs.raw = true → cs.pending = []

structure ChannelOk (h : Hub) (channel : String) : Prop where
  openAt_iff : ∀ id k, OpenAt h.subscriptions channel id k ↔
    ∃ cs, h.record channel = some cs ∧ (id, k) ∈ cs.subs
  record : ∀ cs, h.record channel = some cs → RecordOk cs

def WellFormed (h : Hub) : Prop :=
  ∀ channel, ChannelOk h channel

variable {cs : ChannelState} {subscriptions : List Subscription}

theorem send_channel (raw : Bool) (d : Delta) (s : Subscription) :
    (s.send raw d).channel = s.channel := by
  rw [Subscription.send]
  split
  · rfl
  · split <;> rfl

theorem send_id (raw : Bool) (d : Delta) (s : Subscription) : (s.send raw d).id = s.id := by
  rw [Subscription.send]
  split
  · rfl
  · split <;> rfl

theorem send_cancelled (raw : Bool) (d : Delta) (s : Subscription) :
    (s.send raw d).cancelled = s.cancelled := by
  rw [Subscription.send]
  split
  · rfl
  · split <;> rfl

theorem send_closed (raw : Bool) (d : Delta) (s : Subscription) :
    (s.send raw d).closed = (s.closed || raw && !s.hasRoom) := by
  rw [Subscription.send]
  by_cases hroom : s.hasRoom
  · simp [hroom]
  · cases raw <;> simp [hroom, Subscription.close]

theorem getElem?_sendAll (d : Delta) (k : Nat) : (sendAll cs subscriptions d)[k]? =
      subscriptions[k]?.map fun s => if k ∈ cs.handles then s.send cs.raw d else s := by
  rw [sendAll, getElem?_mapIdx]

variable {k id : Nat}

theorem openAt_sendAll {channel : String} (d : Delta) :
    OpenAt (sendAll cs subscriptions d) channel id k ↔ OpenAt subscriptions channel id k ∧
        (cs.raw → k ∈ cs.handles → subscriptions[k]?.any Subscription.hasRoom) := by
  simp only [OpenAt, getElem?_sendAll]
  cases hsub : subscriptions[k]? with
  | none => simp
  | some s =>
    by_cases hk : k ∈ cs.handles
    · cases hraw : cs.raw with
      | false => simp [hk, send_channel, send_id, send_closed]
      | true => simp [hk, send_channel, send_id, send_closed, and_assoc]
    · simp [hk]

theorem handles_afterSend_subset : (cs.afterSend subscriptions).handles ⊆ cs.handles := by
  rw [ChannelState.afterSend]
  split
  · exact map_subset _ (filter_subset_self _)
  · exact List.Subset.refl _

theorem afterSend_conflated (hraw : cs.raw = false) : cs.afterSend subscriptions = cs := by
  simp [ChannelState.afterSend, hraw]

theorem mem_subs_afterSend (hraw : cs.raw) {e : Nat × Nat} : e ∈ (cs.afterSend subscriptions).subs ↔
      e ∈ cs.subs ∧ subscriptions[e.2]?.any Subscription.hasRoom := by
  simp [ChannelState.afterSend, hraw]

theorem RecordOk.afterSend (h : RecordOk cs) : RecordOk (cs.afterSend subscriptions) := by
  cases hraw : cs.raw with
  | false => rwa [afterSend_conflated hraw]
  | true =>
    rw [ChannelState.afterSend, if_pos hraw]
    have hsub := filter_sublist
      (p := fun e : Nat × Nat => subscriptions[e.2]?.any Subscription.hasRoom) (l := cs.subs)
    exact ⟨(hsub.map _).nodup h.keys, fun e he => h.lt_nextSub e (hsub.subset he),
      h.raw_pending⟩

theorem deliverLocked_conflated (hraw : cs.raw = false) (deltas : List Delta) :
    (deliverLocked cs subscriptions deltas).1 = cs ∧
      ∀ channel id k, OpenAt (deliverLocked cs subscriptions deltas).2 channel id k ↔
        OpenAt subscriptions channel id k := by
  induction deltas generalizing subscriptions with
  | nil => exact ⟨rfl, fun _ _ _ => Iff.rfl⟩
  | cons d rest ih =>
    rw [deliverLocked, afterSend_conflated hraw]
    refine ⟨ih.1, fun channel id k => (ih.2 channel id k).trans ?_⟩
    rw [openAt_sendAll]
    simp [hraw]

theorem getElem?_deliverLocked (deltas : List Delta) (hk : k ∉ cs.handles) :
    (deliverLocked cs subscriptions deltas).2[k]? = subscriptions[k]? := by
  induction deltas generalizing cs subscriptions with
  | nil => rfl
  | cons d rest ih =>
    rw [deliverLocked, ih fun hmem => hk (handles_afterSend_subset hmem), getElem?_sendAll]
    simp [hk]

variable {h h' : Hub} {channel : String}

variable {other : String}

theorem OpenAt.unique {id' : Nat} (h₁ : OpenAt subscriptions channel id k)
    (h₂ : OpenAt subscriptions other id' k) :
    channel = other ∧ id = id' := by
  obtain ⟨s, hs, rfl, rfl, -⟩ := h₁
  obtain ⟨s', hs', rfl, rfl, -⟩ := h₂
  obtain rfl := Option.some.inj (hs.symm.trans hs')
  exact ⟨rfl, rfl⟩

theorem ChannelOk.of_some (hrecord : h.record channel = some cs) (hcs : RecordOk cs)
    (hsubs : ∀ id k, OpenAt h.subscriptions channel id k ↔ (id, k) ∈ cs.subs) :
    ChannelOk h channel where
  openAt_iff id k := by simp [hsubs, hrecord]
  record cs' hcs' := by
    obtain rfl := Option.some.inj (hrecord.symm.trans hcs')
    exact hcs

theorem ChannelOk.of_none (hrecord : h.record channel = none)
    (hsubs : ∀ id k, ¬ OpenAt h.subscriptions channel id k) : ChannelOk h channel where
  openAt_iff id k := by simp [hsubs, hrecord]
  record cs' hcs' := by simp [hrecord] at hcs'

theorem recordOk_newRecord (raw : Bool) : RecordOk (h.newRecord raw) :=
  ⟨nodup_nil, fun _ he => absurd he not_mem_nil, fun _ => rfl⟩

theorem record_release (cur : ChannelState) (hother : other ≠ channel) :
    (h.release channel cur).record other = h.record other := by
  rw [Hub.release]
  split_ifs <;> simp [hother]

theorem subscriptions_release (cur : ChannelState) :
    (h.release channel cur).subscriptions = h.subscriptions := by
  rw [Hub.release]
  split_ifs <;> simp [Hub.setRecord, Hub.deleteRecord]

theorem channelOk_release {cur : ChannelState} (hcur : RecordOk cur)
    (hsubs : ∀ id k, OpenAt h.subscriptions channel id k ↔ (id, k) ∈ cur.subs) :
    ChannelOk (h.release channel cur) channel := by
  have hopen : ∀ id k, OpenAt (h.release channel cur).subscriptions channel id k ↔
      (id, k) ∈ cur.subs := fun id k => by rw [subscriptions_release, hsubs]
  by_cases hempty : cur.subs = []
  · by_cases hpending : cur.pending = []
    · refine ChannelOk.of_none (by simp [Hub.release, hempty, hpending]) fun id k => ?_
      rw [hopen, hempty]
      exact not_mem_nil
    · have hrecord : (h.release channel cur).record channel =
          some { cur with pumpCancel := none } := by
        simp [Hub.release, hempty, hpending]
      exact ChannelOk.of_some hrecord ⟨hcur.keys, hcur.lt_nextSub, hcur.raw_pending⟩ hopen
  · have hrecord : (h.release channel cur).record channel = some cur := by
      simp [Hub.release, hempty]
    exact ChannelOk.of_some hrecord hcur hopen

theorem openAt_closeSubscriber {handle : Option Nat} {c : String} :
    OpenAt (h.closeSubscriber handle).subscriptions c id k ↔
      OpenAt h.subscriptions c id k ∧ handle ≠ some k := by
  cases handle with
  | none => simp [Hub.closeSubscriber]
  | some i => simp [Hub.closeSubscriber, openAt_modify_close, eq_comm]

theorem RecordOk.lookup_eq_some_iff (hcs : RecordOk cs) :
    cs.subs.lookup id = some k ↔ (id, k) ∈ cs.subs :=
  Assoc.lookup_eq_some_iff hcs.keys

theorem record_deliver {deltas : List Delta} : (h.deliver channel cs deltas).record other =
      if other = channel then some (deliverLocked cs h.subscriptions deltas).1
      else h.record other :=
  record_setRecord

theorem Subscription.receive_eq (s : Subscription) :
    s.receive.channel = s.channel ∧ s.receive.id = s.id ∧ s.receive.closed = s.closed ∧
      s.receive.cancelled = s.cancelled := by
  rw [Subscription.receive]
  split <;> exact ⟨rfl, rfl, rfl, rfl⟩

theorem wellFormed_newHub (tailer : Bool) : WellFormed (newHub tailer) := by
  intro c
  refine ChannelOk.of_none rfl fun id k => ?_
  rintro ⟨sub, hsub, -⟩
  simp [newHub] at hsub

section

variable (hwf : WellFormed h)
include hwf

theorem WellFormed.openAt_iff_mem (hrecord : h.record channel = some cs)
    (id k : Nat) : OpenAt h.subscriptions channel id k ↔ (id, k) ∈ cs.subs := by
  rw [(hwf channel).openAt_iff]
  simp [hrecord]

theorem WellFormed.not_openAt (hrecord : h.record channel = none)
    (id k : Nat) : ¬ OpenAt h.subscriptions channel id k := by
  rw [(hwf channel).openAt_iff]
  simp [hrecord]

theorem WellFormed.update (channel : String)
    (hrecord : ∀ other, other ≠ channel → h'.record other = h.record other)
    (hopen : ∀ other, other ≠ channel → ∀ id k,
      OpenAt h'.subscriptions other id k ↔ OpenAt h.subscriptions other id k)
    (hhere : ChannelOk h' channel) : WellFormed h' := by
  intro other
  by_cases hother : other = channel
  · exact hother ▸ hhere
  · exact ⟨fun id k => by rw [hopen other hother, hrecord other hother, (hwf other).openAt_iff],
      fun cs hcs => (hwf other).record cs (hrecord other hother ▸ hcs)⟩

theorem WellFormed.attach (hcs : RecordOk cs)
    (hsubs : ∀ id k, OpenAt h.subscriptions channel id k ↔ (id, k) ∈ cs.subs) (buffer : Nat) :
    WellFormed (h.attach channel cs buffer) := by
  refine hwf.update channel (fun other hother => ?_) (fun other hother id k => ?_) ?_
  · exact record_setRecord.trans (if_neg hother)
  · simp [Hub.attach, openAt_concat, Ne.symm hother]
  · refine ChannelOk.of_some (record_setRecord.trans (if_pos rfl)) ?_ fun id k => ?_
    · refine ⟨nodup_put hcs.keys, fun e he => ?_, hcs.raw_pending⟩
      rcases mem_put.mp he with rfl | ⟨hmem, -⟩
      · exact Nat.lt_succ_self _
      · exact Nat.lt_succ_of_lt (hcs.lt_nextSub e hmem)
    · simp only [Hub.attach, openAt_concat, hsubs, mem_put, Prod.mk.injEq, true_and]
      have hlt : (id, k) ∈ cs.subs → id ≠ cs.nextSub := fun hmem =>
        Nat.ne_of_lt (hcs.lt_nextSub _ hmem)
      constructor
      · rintro (hmem | ⟨rfl, rfl⟩)
        · exact .inr ⟨hmem, hlt hmem⟩
        · exact .inl ⟨rfl, rfl⟩
      · rintro (⟨rfl, rfl⟩ | ⟨hmem, -⟩)
        · exact .inr ⟨rfl, rfl⟩
        · exact .inl hmem

theorem WellFormed.create (hnone : h.record channel = none) (raw : Bool)
    (n : Nat) : WellFormed ((h.startPump channel).attach channel (h.newRecord raw) n) := by
  have hpump : WellFormed (h.startPump channel) := fun other =>
    ⟨fun id k => by rw [subscriptions_startPump, record_startPump, (hwf other).openAt_iff],
      fun cs hcs => (hwf other).record cs (record_startPump ▸ hcs)⟩
  refine hpump.attach (recordOk_newRecord raw) (fun id k => ?_) n
  rw [subscriptions_startPump]
  exact iff_of_false (hwf.not_openAt hnone id k) not_mem_nil

theorem WellFormed.congr (hrecord : ∀ c, h'.record c = h.record c)
    (hopen : ∀ c id k, OpenAt h'.subscriptions c id k ↔ OpenAt h.subscriptions c id k) :
    WellFormed h' := by
  intro c
  refine ⟨fun id k => ?_, fun cs hcs => (hwf c).record cs (hrecord c ▸ hcs)⟩
  rw [hopen, hrecord, (hwf c).openAt_iff]

theorem WellFormed.detach {cur : ChannelState} (hrecord : h.record channel = some cur) (id : Nat) :
    WellFormed ((h.closeSubscriber (cur.subs.lookup id)).release channel
      { cur with subs := drop cur.subs id }) := by
  have hcur := (hwf channel).record cur hrecord
  have hsubs := hwf.openAt_iff_mem hrecord
  refine hwf.update channel (fun other hother => ?_) (fun other hother id' k => ?_) ?_
  · rw [record_release _ hother, record_closeSubscriber]
  · rw [subscriptions_release, openAt_closeSubscriber]
    refine and_iff_left_of_imp fun hopen hlookup => ?_
    have hhere := (hsubs id k).mpr (hcur.lookup_eq_some_iff.mp hlookup)
    exact hother (hhere.unique hopen).1.symm
  · refine channelOk_release ⟨nodup_drop hcur.keys, fun e he => ?_, hcur.raw_pending⟩
      fun id' k => ?_
    · exact hcur.lt_nextSub e (mem_drop.mp he).1
    · rw [openAt_closeSubscriber, hsubs, mem_drop]
      refine and_congr_right fun hmem => not_congr ?_
      rw [hcur.lookup_eq_some_iff]
      constructor
      · intro hid
        exact (((hsubs id' k).mpr hmem).unique ((hsubs id k).mpr hid)).2
      · rintro rfl
        exact hmem

theorem WellFormed.mark (i : Nat) : WellFormed (h.markCancelled i) :=
  hwf.congr (fun _ => rfl) fun _ _ _ => openAt_modify (fun _ => rfl) (fun _ => rfl) fun _ => rfl

section

variable (hrecord : h.record channel = some cs)
include hrecord

theorem WellFormed.setPending {pending : Pending} (hraw : cs.raw → pending = []) :
    WellFormed (h.setRecord channel { cs with pending := pending }) := by
  refine hwf.update channel (fun other hother => record_setRecord.trans (if_neg hother))
    (fun _ _ _ _ => Iff.rfl) ?_
  have hcs := (hwf channel).record cs hrecord
  exact ChannelOk.of_some (record_setRecord.trans (if_pos rfl))
    ⟨hcs.keys, hcs.lt_nextSub, hraw⟩ fun id k => hwf.openAt_iff_mem hrecord id k

theorem WellFormed.deliver_one (d : Delta) : WellFormed (h.deliver channel cs [d]) := by
  have hcs := (hwf channel).record cs hrecord
  have hsubs := hwf.openAt_iff_mem hrecord
  have hopen : ∀ c id k, OpenAt (h.deliver channel cs [d]).subscriptions c id k ↔
      OpenAt h.subscriptions c id k ∧
        (cs.raw → k ∈ cs.handles → h.subscriptions[k]?.any _) :=
    fun c id k => openAt_sendAll d
  refine hwf.update channel (fun other hother => record_deliver.trans (if_neg hother))
    (fun other hother id k => ?_) ?_
  · rw [hopen]
    refine and_iff_left_of_imp fun hk _ hmem => absurd ?_ hother
    obtain ⟨e, he, rfl⟩ := mem_map.mp hmem
    exact (hk.unique ((hsubs e.1 e.2).mpr he)).1
  · refine ChannelOk.of_some (record_deliver.trans (if_pos rfl)) hcs.afterSend fun id k => ?_
    rw [hopen, hsubs]
    change _ ↔ (id, k) ∈ (cs.afterSend h.subscriptions).subs
    cases hraw : cs.raw with
    | false => simp [afterSend_conflated hraw]
    | true =>
      rw [mem_subs_afterSend hraw]
      refine and_congr_right fun hmem => ⟨fun hroom => ?_, fun hroom _ _ => hroom⟩
      exact hroom rfl (mem_map_of_mem hmem)

theorem WellFormed.deliverPending :
    (h.deliverPending channel cs).record channel = some { cs with pending := [] } ∧
      ∀ c id k, OpenAt (h.deliverPending channel cs).subscriptions c id k ↔
        OpenAt h.subscriptions c id k := by
  rw [Hub.deliverPending, record_deliver, if_pos rfl]
  by_cases hraw : cs.raw
  · rw [((hwf channel).record cs hrecord).raw_pending hraw]
    exact ⟨rfl, fun _ _ _ => Iff.rfl⟩
  · have hconflated : { cs with pending := [] }.raw = false := by simpa using hraw
    obtain ⟨hsame, hopen⟩ := deliverLocked_conflated hconflated _
    exact ⟨congrArg some hsame, hopen⟩

theorem WellFormed.flush_some : h.flush channel =
      if cs.subs = [] then (h.deliverPending channel cs).deleteRecord channel
      else h.deliverPending channel cs := by
  simp [Hub.flush, hrecord, (hwf.deliverPending hrecord).1]

end

theorem WellFormed.flush (hcs : h.record channel = some cs) : WellFormed (h.flush channel) := by
  obtain ⟨hrecord, hopen⟩ := hwf.deliverPending hcs
  have hsubs := hwf.openAt_iff_mem hcs
  have hok := (hwf channel).record cs hcs
  have hother : ∀ other, other ≠ channel →
      (h.deliverPending channel cs).record other = h.record other :=
    fun other hother => record_deliver.trans (if_neg hother)
  rw [hwf.flush_some hcs]
  split
  · rename_i hempty
    refine hwf.update channel (fun other hne => ?_) (fun other _ id k => hopen other id k) ?_
    · rw [record_deleteRecord, if_neg hne, hother other hne]
    · refine ChannelOk.of_none (by simp) fun id k => ?_
      have hnot : (id, k) ∉ cs.subs := by simp [hempty]
      exact fun h => hnot ((hsubs id k).mp ((hopen channel id k).mp h))
  · refine hwf.update channel hother (fun other _ id k => hopen other id k) ?_
    exact ChannelOk.of_some hrecord ⟨hok.keys, hok.lt_nextSub, fun _ => rfl⟩ fun id k =>
      (hopen channel id k).trans (hsubs id k)

theorem WellFormed.close : WellFormed h.close := by
  rw [Hub.close]
  split
  · exact hwf
  · intro c
    refine ChannelOk.of_none rfl fun id k => ?_
    rintro ⟨sub, hsub, rfl, rfl, hclosed⟩
    rw [getElem?_mapIdx, Option.map_eq_some_iff] at hsub
    obtain ⟨s, hs, rfl⟩ := hsub
    split at hclosed
    · simp [Subscription.close] at hclosed
    · rename_i hnot
      obtain ⟨cs, hcs, hmem⟩ := ((hwf s.channel).openAt_iff s.id k).mp ⟨s, hs, rfl, rfl, hclosed⟩
      refine hnot (mem_flatMap.mpr ⟨(s.channel, cs), mem_of_lookup hcs, ?_⟩)
      exact mem_map_of_mem hmem

theorem WellFormed.receive (i : Nat) : WellFormed (h.receive i) :=
  hwf.congr (fun _ => rfl) fun _ _ _ => openAt_modify (fun s => s.receive_eq.1)
    (fun s => s.receive_eq.2.1) fun s => s.receive_eq.2.2.1

theorem WellFormed.step {a : Action} (hstep : step h a = some h') : WellFormed h' := by
  cases step_effect hstep with
  | same => exact hwf
  | join n hcs => exact hwf.attach ((hwf _).record _ hcs) (hwf.openAt_iff_mem hcs) n
  | create n _ hnone => exact hwf.create hnone _ n
  | mark i => exact hwf.mark i
  | detach hcur => exact (hwf.mark _).detach hcur _
  | send _ hcs => exact hwf.deliver_one hcs _
  | conflate hcs hraw => exact hwf.setPending hcs fun h => by rw [hraw] at h; cases h
  | flush hcs => exact hwf.flush hcs
  | receive i => exact hwf.receive i
  | close => exact hwf.close

end

theorem wellFormed_run {tailer : Bool} {trace : List Action}
    (hrun : run step (newHub tailer) trace = some h) : WellFormed h :=
  run_preserves (fun _ _ _ hwf hstep => hwf.step hstep) (wellFormed_newHub tailer) hrun

/-- In every run, a Go channel is open exactly while the record of its channel names it, under an
id that the record has given to no other. -/
theorem record_names_open : (∀ tailer trace h, run step (newHub tailer) trace = some h →
      ∀ channel id k, OpenAt h.subscriptions channel id k ↔
        ∃ cs, h.record channel = some cs ∧ (id, k) ∈ cs.subs) ∧
    ∀ tailer trace h, run step (newHub tailer) trace = some h →
      ∀ channel cs, h.record channel = some cs →
        (cs.subs.map Prod.fst).Nodup ∧ ∀ e ∈ cs.subs, e.1 < cs.nextSub := by
  refine ⟨fun _ _ _ hrun channel => (wellFormed_run hrun channel).openAt_iff, ?_⟩
  intro _ _ _ hrun channel cs hcs
  have hok := (wellFormed_run hrun channel).record cs hcs
  exact ⟨hok.keys, hok.lt_nextSub⟩

end Fabriq.Subscribe
