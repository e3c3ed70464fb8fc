import Mathlib.Data.List.Count
import Fabriq.Subscribe.HubInvariant

/-!
The tail pumps of a hub: which channels have one, as records come and go.
-/

namespace Fabriq.Subscribe.PumpLifecycle

open Lib Lib.Machine List

def runningOn (pumps : List Pump) (channel : String) : Nat :=
  pumps.countP fun p => p.channel == channel && p.running

/-- A channel with a subscriber has one running pump, and no channel has two. -/
def OnePump (h : Hub) : Prop :=
  ∀ channel, runningOn h.pumps channel ≤ 1 ∧
    ∀ cs, h.record channel = some cs → cs.subs ≠ [] → runningOn h.pumps channel = 1

/-- No subscriber comes to a record that a cancel has left to its pending deltas, and no flush to
one whose subscribers have all overflowed; the hub is not closed. -/
def PumpOk (h : Hub) : Action → Prop
  | .subscribe channel _ _ => ∀ cs ∈ h.record channel, cs.subs = [] → cs.pending = []
  | .flush channel => ∀ cs ∈ h.record channel, cs.subs = [] → cs.pending ≠ []
  | .close => False
  | _ => True

instance (h : Hub) : ∀ a, Decidable (PumpOk h a)
  | .subscribe channel _ _ =>
    inferInstanceAs (Decidable (∀ cs ∈ h.record channel, cs.subs = [] → cs.pending = []))
  | .flush channel =>
    inferInstanceAs (Decidable (∀ cs ∈ h.record channel, cs.subs = [] → cs.pending ≠ []))
  | .close => inferInstanceAs (Decidable False)
  | .cancel _ | .publish _ _ | .publishRaw _ _ | .receive _ => inferInstanceAs (Decidable True)

def assetDelta (version : Int) : Delta :=
  ⟨"", "asset", "a1", version, ""⟩

/-- The last subscriber leaves within the conflation window, and another finds the record, whose
pump has been stopped. -/
def leftPending : List Action :=
  [.subscribe "changes" 8 false, .publish "changes" (assetDelta 1), .cancel 0,
    .subscribe "changes" 8 false]

/-- A flush deletes the record of an overflowed subscriber without stopping the pump: the next
one starts a second. -/
def overflowed : List Action :=
  [.subscribe "doc" 1 true, .publish "doc" (assetDelta 1), .publish "doc" (assetDelta 2), .flush "doc",
    .subscribe "doc" 8 true]

def leftPendingEnd : Hub :=
  ⟨true, [("changes", ⟨[(1, 1)], 2, [("asset/a1", assetDelta 1)], none, false⟩)],
    [⟨"changes", 0, true, 8, [], [], true⟩, ⟨"changes", 1, false, 8, [], [], false⟩],
    [⟨"changes", false⟩], false⟩

def overflowedEnd : Hub :=
  ⟨true, [("doc", ⟨[(0, 1)], 1, [], some 1, true⟩)],
    [⟨"doc", 0, false, 1, [assetDelta 1], [], true⟩, ⟨"doc", 0, false, 8, [], [], false⟩],
    [⟨"doc", true⟩, ⟨"doc", true⟩], false⟩

theorem no_pump_and_two_pumps :
    (run step (newHub true) leftPending = some leftPendingEnd ∧ ¬ OnePump leftPendingEnd) ∧
      run step (newHub true) overflowed = some overflowedEnd ∧ ¬ OnePump overflowedEnd := by
  refine ⟨⟨by decide, fun hone => ?_⟩, by decide, fun hone => ?_⟩
  · have hnone := (hone "changes").2 _ rfl (by decide)
    revert hnone
    decide
  · have htwo := (hone "doc").1
    revert htwo
    decide

variable {pumps : List Pump} {channel other : String} {p : Nat}

def stop (pumps : List Pump) (p : Nat) : List Pump :=
  pumps.modify p fun q => { q with running := false }

section

variable (hp : pumps[p]? = some ⟨channel, true⟩)
include hp

theorem stop_eq_set : stop pumps p = pumps.set p ⟨channel, false⟩ := by
  rw [stop, modify_eq_set_getElem?, hp]
  rfl

omit hp in
theorem runningOn_concat : runningOn (pumps ++ [⟨channel, true⟩]) other =
      runningOn pumps other + if channel = other then 1 else 0 := by
  simp [runningOn, countP_append, countP_singleton]

theorem runningOn_stop :
    runningOn (stop pumps p) other = runningOn pumps other - if channel = other then 1 else 0 := by
  obtain ⟨hlt, hget⟩ := List.getElem?_eq_some_iff.mp hp
  rw [stop_eq_set hp, runningOn, countP_set hlt, hget]
  simp [runningOn]

theorem getElem?_stop {q : Nat} (hq : pumps[q]? = some ⟨other, true⟩) (hother : other ≠ channel) :
    (stop pumps p)[q]? = some ⟨other, true⟩ := by
  have hpq : p ≠ q := by
    rintro rfl
    rw [hp] at hq
    exact hother (congrArg Pump.channel (Option.some.inj hq)).symm
  rw [stop_eq_set hp, getElem?_set_ne hpq, hq]

end

/-- The record that a cancel has left to its pending deltas has no pump; any other has the one pump
that runs on its channel, and has lost its subscribers only if raw. -/
def Pumped (pumps : List Pump) (channel : String) : Option ChannelState → Prop
  | none => runningOn pumps channel = 0
  | some cs =>
    if cs.subs = [] ∧ cs.pending ≠ [] then cs.pumpCancel = none ∧ runningOn pumps channel = 0
    else (∃ p, cs.pumpCancel = some p ∧ pumps[p]? = some ⟨channel, true⟩) ∧
      runningOn pumps channel = 1 ∧ (cs.subs = [] → cs.raw = true)

structure Inv (h : Hub) : Prop where
  tailer : h.tailer = true
  pumped : ∀ channel, Pumped h.pumps channel (h.record channel)

variable {h h' : Hub} {cs cs' : ChannelState}

theorem Inv.onePump (hinv : Inv h) : OnePump h := by
  intro channel
  have hp := hinv.pumped channel
  cases hrecord : h.record channel with
  | none =>
    rw [hrecord, Pumped] at hp
    exact ⟨by omega, fun cs hcs => by cases hcs⟩
  | some cs =>
    rw [hrecord, Pumped] at hp
    split at hp
    · rename_i hleft
      refine ⟨by omega, fun cs' hcs' hsubs => ?_⟩
      cases hcs'
      exact absurd hleft.1 hsubs
    · exact ⟨by omega, fun _ _ _ => hp.2.1⟩

theorem pumped_running (hp : ∃ p, cs.pumpCancel = some p ∧ pumps[p]? = some ⟨channel, true⟩)
    (hcount : runningOn pumps channel = 1) (hraw : cs.subs = [] → cs.raw)
    (hnot : ¬ (cs.subs = [] ∧ cs.pending ≠ [])) : Pumped pumps channel (some cs) := by
  rw [Pumped, if_neg hnot]
  exact ⟨hp, hcount, hraw⟩

theorem Pumped.running (hp : Pumped pumps channel (some cs))
    (hnot : ¬ (cs.subs = [] ∧ cs.pending ≠ [])) :
    (∃ p, cs.pumpCancel = some p ∧ pumps[p]? = some ⟨channel, true⟩) ∧
      runningOn pumps channel = 1 ∧ (cs.subs = [] → cs.raw) := by
  rwa [Pumped, if_neg hnot] at hp

theorem Inv.setRecord (hinv : Inv h) (channel : String) (htailer : h'.tailer = h.tailer)
    (hpumps : h'.pumps = h.pumps)
    (hother : ∀ other, other ≠ channel → h'.record other = h.record other)
    (hhere : Pumped h.pumps channel (h'.record channel)) : Inv h' where
  tailer := htailer.trans hinv.tailer
  pumped other := by
    by_cases hoc : other = channel
    · subst hoc
      exact hpumps ▸ hhere
    · rw [hpumps, hother other hoc]
      exact hinv.pumped other

theorem Inv.setPumps (hinv : Inv h) (channel : String) (htailer : h'.tailer = h.tailer)
    (hother : ∀ other, other ≠ channel → h'.record other = h.record other)
    (hcount : ∀ other, other ≠ channel → runningOn h'.pumps other = runningOn h.pumps other)
    (hget : ∀ other, other ≠ channel → ∀ q : Nat, h.pumps[q]? = some ⟨other, true⟩ →
      h'.pumps[q]? = some ⟨other, true⟩)
    (hhere : Pumped h'.pumps channel (h'.record channel)) : Inv h' where
  tailer := htailer.trans hinv.tailer
  pumped other := by
    by_cases hoc : other = channel
    · subst hoc
      exact hhere
    · have hp := hinv.pumped other
      rw [hother other hoc]
      cases hrecord : h.record other with
      | none =>
        rw [hrecord, Pumped] at hp
        rw [Pumped, hcount other hoc, hp]
      | some cs =>
        rw [hrecord, Pumped] at hp
        rw [Pumped, hcount other hoc]
        split at hp
        · rename_i hleft
          rwa [if_pos hleft]
        · rename_i hleft
          obtain ⟨⟨q, hq, hpump⟩, hrest⟩ := hp
          rw [if_neg hleft]
          exact ⟨⟨q, hq, hget other hoc q hpump⟩, hrest⟩

theorem Inv.join (hinv : Inv h) (hcs : h.record channel = some cs)
    (hok : cs.subs = [] → cs.pending = []) (n : Nat) : Inv (h.attach channel cs n) := by
  refine hinv.setRecord channel rfl rfl
    (fun other hother => record_setRecord.trans (if_neg hother)) ?_
  have hleft : ¬ (cs.subs = [] ∧ cs.pending ≠ []) := fun h => h.2 (hok h.1)
  obtain ⟨hp, hcount, -⟩ := (hcs ▸ hinv.pumped channel).running hleft
  change Pumped h.pumps channel (Hub.record (Hub.setRecord _ _ _) _)
  rw [record_setRecord, if_pos rfl]
  exact pumped_running hp hcount (fun hnil => by cases hnil) fun hnil => by cases hnil.1

theorem Inv.create (hinv : Inv h) (hnone : h.record channel = none) (raw : Bool) (n : Nat) :
    Inv ((h.startPump channel).attach channel (h.newRecord raw) n) := by
  have hpumps : (h.startPump channel).pumps = h.pumps ++ [⟨channel, true⟩] := by
    simp [Hub.startPump, hinv.tailer]
  have hzero : Pumped h.pumps channel none := hnone ▸ hinv.pumped channel
  refine hinv.setPumps channel ?_ (fun other hother => ?_) (fun other hother => ?_)
    (fun other hother q hq => ?_) ?_
  · simp [Hub.attach, Hub.setRecord, Hub.startPump, hinv.tailer]
  · exact (record_setRecord.trans (if_neg hother)).trans record_startPump
  · change runningOn (h.startPump channel).pumps other = _
    rw [hpumps, runningOn_concat, if_neg (Ne.symm hother), Nat.add_zero]
  · change (h.startPump channel).pumps[q]? = _
    rw [hpumps, List.getElem?_append_left (List.getElem?_eq_some_iff.mp hq).1, hq]
  · change Pumped (h.startPump channel).pumps channel (Hub.record (Hub.setRecord _ _ _) _)
    rw [record_setRecord, if_pos rfl, hpumps]
    refine pumped_running ⟨h.pumps.length, ?_, by simp⟩ ?_ (fun hnil => by cases hnil)
      fun hnil => by cases hnil.1
    · simp [Hub.newRecord, hinv.tailer]
    · rw [runningOn_concat, if_pos rfl, Nat.add_eq_right]
      exact hzero

theorem tailer_release (cur : ChannelState) : (h.release channel cur).tailer = h.tailer := by
  rw [Hub.release]
  cases cur.pumpCancel <;> split_ifs <;> rfl

theorem tailer_closeSubscriber (handle : Option Nat) :
    (h.closeSubscriber handle).tailer = h.tailer := by
  cases handle <;> rfl

theorem pumps_closeSubscriber (handle : Option Nat) :
    (h.closeSubscriber handle).pumps = h.pumps := by
  cases handle <;> rfl

theorem Inv.release {cur : ChannelState} (hinv : Inv h) (hcs : h.record channel = some cs)
    (hcancel : cur.pumpCancel = cs.pumpCancel) (hsubs : cs.subs = [] → cur.subs = []) :
    Inv (h.release channel cur) := by
  have hp : Pumped h.pumps channel (some cs) := hcs ▸ hinv.pumped channel
  by_cases hempty : cur.subs = []
  · have hstop : (h.release channel cur).pumps = (h.stopPump cs.pumpCancel).pumps := by
      rw [Hub.release, if_pos hempty, hcancel]
      split <;> rfl
    have hafter : runningOn (h.stopPump cs.pumpCancel).pumps channel = 0 →
        Pumped (h.release channel cur).pumps channel ((h.release channel cur).record channel) := by
      intro hzero
      rw [hstop, Hub.release, if_pos hempty]
      split
      · rwa [record_deleteRecord, if_pos rfl]
      · rename_i hleft
        rw [record_setRecord, if_pos rfl, Pumped, if_pos ⟨hempty, hleft⟩]
        exact ⟨rfl, hzero⟩
    by_cases hleft : cs.subs = [] ∧ cs.pending ≠ []
    · rw [Pumped, if_pos hleft] at hp
      have hsame : (h.release channel cur).pumps = h.pumps := by rw [hstop, hp.1]; rfl
      refine hinv.setRecord channel (tailer_release cur)
        hsame (fun other hother => record_release cur hother) ?_
      rw [← hsame]
      exact hafter (by rw [hp.1]; exact hp.2)
    · obtain ⟨⟨p, hpump, hget⟩, hcount, -⟩ := hp.running hleft
      have hpumps : (h.stopPump cs.pumpCancel).pumps = stop h.pumps p := by rw [hpump]; rfl
      refine hinv.setPumps channel (tailer_release cur)
        (fun other hother => record_release cur hother) (fun other hother => ?_)
        (fun other hother q hq => ?_) (hafter ?_)
      · rw [hstop, hpumps, runningOn_stop hget, if_neg (Ne.symm hother), Nat.sub_zero]
      · rw [hstop, hpumps]
        exact getElem?_stop hget hq hother
      · rw [hpumps, runningOn_stop hget, hcount, if_pos rfl]
  · -- The record had this subscriber before, so its pump runs on.
    have hleft : ¬ (cs.subs = [] ∧ cs.pending ≠ []) := fun h => hempty (hsubs h.1)
    obtain ⟨⟨p, hpump, hget⟩, hcount, -⟩ := hp.running hleft
    rw [Hub.release, if_neg hempty]
    refine hinv.setRecord channel rfl rfl
      (fun other hother => record_setRecord.trans (if_neg hother)) ?_
    rw [record_setRecord, if_pos rfl]
    exact pumped_running ⟨p, hcancel.trans hpump, hget⟩ hcount (fun hnil => absurd hnil hempty)
      fun hnil => hempty hnil.1

theorem Inv.detach {cur : ChannelState} (hinv : Inv h) (hcur : h.record channel = some cur)
    (id : Nat) :
    Inv ((h.closeSubscriber (cur.subs.lookup id)).release channel
      { cur with subs := Assoc.drop cur.subs id }) := by
  have hclose : Inv (h.closeSubscriber (cur.subs.lookup id)) := by
    refine ⟨(tailer_closeSubscriber _).trans hinv.tailer, fun channel => ?_⟩
    rw [pumps_closeSubscriber, record_closeSubscriber]
    exact hinv.pumped channel
  refine hclose.release ((record_closeSubscriber _).trans hcur) rfl fun hnil => ?_
  simp [hnil, Assoc.drop]

theorem Pumped.afterSend (hp : Pumped pumps channel (some cs)) (hcs : RecordOk cs)
    (subscriptions : List Subscription) :
    Pumped pumps channel (some (cs.afterSend subscriptions)) := by
  cases hraw : cs.raw with
  | false => rwa [afterSend_conflated hraw]
  | true =>
    have hpending := hcs.raw_pending hraw
    obtain ⟨hpump, hcount, -⟩ := hp.running fun h => h.2 hpending
    rw [ChannelState.afterSend, if_pos hraw]
    exact pumped_running hpump hcount (fun _ => hraw) fun h => h.2 hpending

theorem Inv.deliver_one (hinv : Inv h) (hwf : WellFormed h) (hcs : h.record channel = some cs)
    (d : Delta) : Inv (h.deliver channel cs [d]) := by
  refine hinv.setRecord channel rfl rfl
    (fun other hother => record_deliver.trans (if_neg hother)) ?_
  rw [record_deliver, if_pos rfl]
  exact (hcs ▸ hinv.pumped channel : Pumped h.pumps channel (some cs)).afterSend
    ((hwf channel).record cs hcs) _

theorem offer_ne_nil (pending : Pending) (d : Delta) : offer pending d ≠ [] := by
  rw [offer]
  split
  · rename_i prev hprev
    split
    · exact cons_ne_nil _ _
    · exact ne_nil_of_mem (Assoc.mem_of_lookup hprev)
  · exact cons_ne_nil _ _

theorem Inv.conflate (hinv : Inv h) (hcs : h.record channel = some cs) (hraw : cs.raw = false)
    (d : Delta) : Inv (h.setRecord channel { cs with pending := offer cs.pending d }) := by
  refine hinv.setRecord channel rfl rfl
    (fun other hother => record_setRecord.trans (if_neg hother)) ?_
  have hp : Pumped h.pumps channel (some cs) := hcs ▸ hinv.pumped channel
  rw [record_setRecord, if_pos rfl]
  by_cases hempty : cs.subs = []
  · by_cases hpending : cs.pending = []
    -- A conflated record without subscribers has deltas pending.
    · have hmode := (hp.running fun h => h.2 hpending).2.2 hempty
      rw [hraw] at hmode
      cases hmode
    · rw [Pumped, if_pos ⟨hempty, hpending⟩] at hp
      rw [Pumped, if_pos ⟨hempty, offer_ne_nil _ _⟩]
      exact hp
  · obtain ⟨hpump, hcount, -⟩ := hp.running fun h => hempty h.1
    exact pumped_running hpump hcount (fun hnil => absurd hnil hempty) fun h => hempty h.1

theorem Inv.flush (hinv : Inv h) (hwf : WellFormed h) (hcs : h.record channel = some cs)
    (hok : cs.subs = [] → cs.pending ≠ []) : Inv (h.flush channel) := by
  have hp : Pumped h.pumps channel (some cs) := hcs ▸ hinv.pumped channel
  have hother : ∀ other, other ≠ channel →
      (h.deliverPending channel cs).record other = h.record other :=
    fun other hother => record_deliver.trans (if_neg hother)
  rw [hwf.flush_some hcs]
  split
  · rename_i hempty
    rw [Pumped, if_pos ⟨hempty, hok hempty⟩] at hp
    refine hinv.setRecord channel rfl rfl (fun other hne => ?_) ?_
    · rw [record_deleteRecord, if_neg hne, hother other hne]
    · rw [record_deleteRecord, if_pos rfl]
      exact hp.2
  · rename_i hempty
    obtain ⟨hpump, hcount, -⟩ := hp.running fun h => hempty h.1
    refine hinv.setRecord channel rfl rfl hother ?_
    rw [(hwf.deliverPending hcs).1]
    exact pumped_running hpump hcount (fun hnil => absurd hnil hempty) fun h => hempty h.1

theorem inv_step {a : Action} (hinv : Inv h) (hwf : WellFormed h) (hok : PumpOk h a)
    (hstep : step h a = some h') : Inv h' := by
  have hmark : ∀ i, Inv (h.markCancelled i) := fun _ => ⟨hinv.tailer, hinv.pumped⟩
  cases step_effect hstep with
  | same => exact hinv
  | join n hcs => exact hinv.join hcs (hok _ hcs) n
  | create n _ hnone => exact hinv.create hnone _ n
  | mark i => exact hmark i
  | detach hcur => exact (hmark _).detach hcur _
  | send _ hcs => exact hinv.deliver_one hwf hcs _
  | conflate hcs hraw => exact hinv.conflate hcs hraw _
  | flush hcs => exact hinv.flush hwf hcs (hok _ hcs)
  | receive => exact ⟨hinv.tailer, hinv.pumped⟩
  | close => exact absurd hok id

theorem inv_newHub : Inv (newHub true) := ⟨rfl, fun _ => rfl⟩

/-- In a hub with a tailer, a channel with a subscriber has one running pump and no channel has
two, after every such run. -/
theorem onePump_run {trace : List Action} {h : Hub} (hok : Along step PumpOk (newHub true) trace)
    (hrun : run step (newHub true) trace = some h) : OnePump h := by
  have hstep : ∀ s a t, WellFormed s ∧ Inv s → PumpOk s a → step s a = some t →
      WellFormed t ∧ Inv t := fun s a t hs hok hstep =>
    ⟨hs.1.step hstep, inv_step hs.2 hs.1 hok hstep⟩
  exact (run_invariant hstep ⟨wellFormed_newHub true, inv_newHub⟩ hok hrun).2.onePump

def orderly : List Action :=
  [.subscribe "changes" 8 false, .publish "changes" (assetDelta 1), .cancel 0, .flush "changes",
    .subscribe "changes" 8 false, .subscribe "doc" 1 true, .publish "doc" (assetDelta 1),
    .publishRaw "doc" (assetDelta 2), .cancel 2, .subscribe "doc" 8 true, .subscribe "doc" 8 true,
    .cancel 3, .flush "changes"]

theorem onePump_run_orderly :
    ∃ h, run step (newHub true) orderly = some h ∧ h.pumps.length = 4 ∧ OnePump h := by
  have hok : Along step PumpOk (newHub true) orderly := by decide
  exact ⟨_, rfl, by decide, onePump_run hok rfl⟩

end Fabriq.Subscribe.PumpLifecycle
