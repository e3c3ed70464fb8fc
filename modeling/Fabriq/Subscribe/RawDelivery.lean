import Fabriq.Subscribe.HubInvariant

/-!
A raw subscriber gets the frames published after it attached, in order and without a gap, until
its channel is closed.
-/

namespace Fabriq.Subscribe.RawDelivery

open Lib Lib.Machine List Option

def published (channel : String) : Action → Option Delta
  | .publish c d | .publishRaw c d => if c = channel then some d else none
  | _ => none

def publishedTo (channel : String) (trace : List Action) : List Delta :=
  trace.filterMap (published channel)

/-- What was sent to a subscription: the frames its reader took and those still buffered. -/
def frames (s : Subscription) : List Delta :=
  s.received ++ s.queue

variable {h h' : Hub} {i : Nat}

/-- The `i`th subscription got no frame and was not opened again. -/
def Kept (h h' : Hub) (i : Nat) : Prop :=
  ∀ sub, h.subscriptions[i]? = some sub → ∃ sub', h'.subscriptions[i]? = some sub' ∧
    sub'.channel = sub.channel ∧ frames sub' = frames sub ∧
      (sub'.closed = false → sub.closed = false)

def SameMode (h h' : Hub) : Prop :=
  ∀ channel cs cs', h.record channel = some cs → h'.record channel = some cs' →
    cs'.raw = cs.raw

theorem Kept.of_eq (heq : h'.subscriptions[i]? = h.subscriptions[i]?) : Kept h h' i :=
  fun sub hsub => ⟨sub, heq.trans hsub, rfl, rfl, id⟩

theorem Kept.modify {f : Subscription → Subscription} {j : Nat}
    (hsubs : h'.subscriptions = h.subscriptions.modify j f)
    (hchannel : ∀ s, (f s).channel = s.channel) (hframes : ∀ s, frames (f s) = frames s)
    (hclosed : ∀ s, (f s).closed = false → s.closed = false) : Kept h h' i := by
  intro sub hsub
  rw [hsubs, getElem?_modify, hsub]
  by_cases hji : j = i
  · exact ⟨f sub, by simp [hji], hchannel sub, hframes sub, hclosed sub⟩
  · exact ⟨sub, by simp [hji], rfl, rfl, id⟩

theorem Kept.trans {h'' : Hub} (h₁ : Kept h h' i) (h₂ : Kept h' h'' i) : Kept h h'' i := by
  intro sub hsub
  obtain ⟨sub', hsub', hchannel, hframes, hclosed⟩ := h₁ sub hsub
  obtain ⟨sub'', hsub'', hchannel', hframes', hclosed'⟩ := h₂ sub' hsub'
  exact ⟨sub'', hsub'', hchannel'.trans hchannel, hframes'.trans hframes,
    fun h => hclosed (hclosed' h)⟩

theorem SameMode.of_eq (heq : ∀ channel, h'.record channel = h.record channel) : SameMode h h' := by
  intro channel cs cs' hcs hcs'
  rw [heq channel, hcs] at hcs'
  exact congrArg ChannelState.raw (some.inj hcs').symm

theorem SameMode.of_channel (channel : String)
    (hother : ∀ other, other ≠ channel → h'.record other = h.record other)
    (hhere : ∀ cs cs', h.record channel = some cs → h'.record channel = some cs' →
      cs'.raw = cs.raw) : SameMode h h' := by
  intro other cs cs' hcs hcs'
  by_cases hoc : other = channel
  · subst hoc
    exact hhere cs cs' hcs hcs'
  · rw [hother other hoc, hcs] at hcs'
    exact congrArg ChannelState.raw (some.inj hcs').symm

variable {buffer : Int} {channel : String} {cs cs₀ : ChannelState}

theorem attach_kept {g : Hub} (hg : g.subscriptions = h.subscriptions)
    (cs : ChannelState) (n : Nat) : Kept h (g.attach channel cs n) i := by
  intro sub hs
  refine ⟨sub, ?_, rfl, rfl, id⟩
  rw [Hub.attach, hg]
  exact (List.getElem?_append_left (List.getElem?_eq_some_iff.mp hs).1).trans hs

theorem closeSubscriber_kept (handle : Option Nat) : Kept h (h.closeSubscriber handle) i := by
  cases handle with
  | none => exact Kept.of_eq rfl
  | some k => exact Kept.modify rfl (fun _ => rfl) (fun _ => rfl) fun s hs => by cases hs

theorem markCancelled_kept (j : Nat) : Kept h (h.markCancelled j) i :=
  Kept.modify rfl (fun _ => rfl) (fun _ => rfl) fun _ => id

theorem release_sameMode (cur : ChannelState)
    (hcur : h.record channel = some cs) (hraw : cur.raw = cs.raw) :
    SameMode h (h.release channel cur) := by
  refine SameMode.of_channel channel (fun other hother => record_release _ hother)
    fun old new hold hnew => ?_
  obtain rfl := some.inj (hcur.symm.trans hold)
  rw [Hub.release] at hnew
  split_ifs at hnew <;> simp at hnew
  · rw [← hnew, hraw]
  · rw [← hnew, hraw]

theorem detach_kept (hcs : h.record channel = some cs) (id : Nat) :
    Kept h ((h.closeSubscriber (cs.subs.lookup id)).release channel
      { cs with subs := Assoc.drop cs.subs id }) i ∧
    SameMode h ((h.closeSubscriber (cs.subs.lookup id)).release channel
      { cs with subs := Assoc.drop cs.subs id }) := by
  refine ⟨(closeSubscriber_kept _).trans (Kept.of_eq (by rw [subscriptions_release])),
    fun other old new hold hnew => ?_⟩
  rw [← record_closeSubscriber _] at hcs hold
  exact release_sameMode { cs with subs := Assoc.drop cs.subs id } hcs rfl other old new hold hnew

theorem deliverLocked_raw (cs : ChannelState) (subscriptions : List Subscription)
    (deltas : List Delta) : (deliverLocked cs subscriptions deltas).1.raw = cs.raw := by
  induction deltas generalizing cs subscriptions with
  | nil => rfl
  | cons d rest ih =>
    rw [deliverLocked, ih, ChannelState.afterSend]
    split <;> rfl

theorem setRecord_sameMode {cs' : ChannelState}
    (hrecord : h.record channel = some cs) (hmode : cs'.raw = cs.raw) :
    SameMode h (h.setRecord channel cs') := by
  refine SameMode.of_channel channel (fun other hother => record_setRecord.trans (if_neg hother)) ?_
  intro old new hold hnew
  obtain rfl := some.inj (hrecord.symm.trans hold)
  rw [← some.inj ((record_setRecord.trans (if_pos rfl)).symm.trans hnew), hmode]

theorem deliver_sameMode (deltas : List Delta)
    (hrecord : h.record channel = some cs) (hmode : cs₀.raw = cs.raw) :
    SameMode h (h.deliver channel cs₀ deltas) :=
  setRecord_sameMode hrecord ((deliverLocked_raw _ _ _).trans hmode)

theorem deliver_kept (hwf : WellFormed h)
    (hrecord : h.record channel = some cs) (hsubs : cs₀.subs = cs.subs)
    (hnot : ∀ id, ¬ OpenAt h.subscriptions channel id i) (deltas : List Delta) :
    Kept h (h.deliver channel cs₀ deltas) i := by
  refine Kept.of_eq (getElem?_deliverLocked deltas fun hmem => ?_)
  obtain ⟨e, he, rfl⟩ := mem_map.mp hmem
  exact hnot e.1 ((hwf.openAt_iff_mem hrecord e.1 e.2).mpr (hsubs ▸ he))

theorem flush_sameMode (hwf : WellFormed h)
    (hcs : h.record channel = some cs) : SameMode h (h.flush channel) := by
  have hsent : SameMode h (h.deliverPending channel cs) := deliver_sameMode _ hcs rfl
  rw [hwf.flush_some hcs]
  split
  · refine SameMode.of_channel channel (fun other hother => ?_) fun old new _ hnew => ?_
    · rw [record_deleteRecord, if_neg hother]
      exact record_deliver.trans (if_neg hother)
    · simp at hnew
  · exact hsent

theorem flush_kept (hwf : WellFormed h) (hcs : h.record channel = some cs)
    (hraw : ∀ id, OpenAt h.subscriptions channel id i → cs.raw) :
    Kept h (h.flush channel) i := by
  have hsent : Kept h (h.deliverPending channel cs) i := by
    by_cases hopen : ∃ id, OpenAt h.subscriptions channel id i
    · obtain ⟨id, hopen⟩ := hopen
      rw [Hub.deliverPending, ((hwf channel).record cs hcs).raw_pending (hraw id hopen)]
      exact Kept.of_eq rfl
    · apply deliver_kept hwf hcs
      · rfl
      · exact not_exists.mp hopen
  rw [hwf.flush_some hcs]
  split
  · exact hsent.trans (Kept.of_eq rfl)
  · exact hsent

theorem close_kept : Kept h h.close i ∧ SameMode h h.close := by
  rw [Hub.close]
  split
  · exact ⟨Kept.of_eq rfl, SameMode.of_eq fun _ => rfl⟩
  · refine ⟨fun sub hsub => ?_, fun channel cs cs' _ hcs' => by cases hcs'⟩
    simp only [getElem?_mapIdx, hsub, map_some, some.injEq, exists_eq_left']
    split
    · exact ⟨rfl, rfl, fun h => by cases h⟩
    · exact ⟨rfl, rfl, id⟩

theorem frames_receive (s : Subscription) : frames s.receive = frames s := by
  rw [Subscription.receive, frames, frames]
  split
  · rename_i d rest hqueue
    simp [hqueue]
  · rfl

theorem receive_kept (j : Nat) : Kept h (h.receive j) i :=
  Kept.modify rfl (fun s => s.receive_eq.1) frames_receive fun s hs => by
    rwa [s.receive_eq.2.2.1] at hs

/-- The `i`th subscription is to a raw channel on which `sent` has been published since: while open
it has all of it, and a part from the start in any case. -/
structure Follows (channel : String) (i : Nat) (sent : List Delta) (h : Hub)
    (sub : Subscription) : Prop where
  get : h.subscriptions[i]? = some sub
  channel_eq : sub.channel = channel
  isPrefix : frames sub <+: sent
  complete : sub.closed = false → frames sub = sent
  raw : sub.closed = false → ∀ cs, h.record channel = some cs → cs.raw = true
  running : sub.closed = false → h.closed = false

variable {sent : List Delta} {sub : Subscription}

theorem published_of {a : Action} {c : String} {d : Delta}
    (ha : a = .publish c d ∨ a = .publishRaw c d) :
    published channel a = if c = channel then some d else none := by
  rcases ha with rfl | rfl <;> rfl

section

variable (hf : Follows channel i sent h sub)
include hf

theorem Follows.openAt (hopen : sub.closed = false) : OpenAt h.subscriptions channel sub.id i :=
  ⟨sub, hf.get, hf.channel_eq, rfl, hopen⟩

section

variable (hwf : WellFormed h)
include hwf

theorem Follows.kept (hkept : Kept h h' i) (hmode : SameMode h h') {new : List Delta}
    (hnew : sub.closed = false → new = []) (hrunning : h.closed = false → h'.closed = false ∨
      ∀ s, h'.subscriptions[i]? = some s → s.closed) :
    ∃ sub', Follows channel i (sent ++ new) h' sub' := by
  obtain ⟨sub', hget, hchannel, hframes, hclosed⟩ := hkept sub hf.get
  refine ⟨sub', hget, hchannel.trans hf.channel_eq, ?_, fun hopen => ?_, fun hopen cs hcs => ?_,
    fun hopen => ?_⟩
  · exact hframes ▸ hf.isPrefix.trans (prefix_append _ _)
  · rw [hframes, hf.complete (hclosed hopen), hnew (hclosed hopen), append_nil]
  · obtain ⟨old, hold, -⟩ := ((hwf channel).openAt_iff sub.id i).mp (hf.openAt (hclosed hopen))
    exact (hmode channel old cs hold hcs).trans (hf.raw (hclosed hopen) old hold)
  · rcases hrunning (hf.running (hclosed hopen)) with hrun | hall
    · exact hrun
    · simp [hall sub' hget] at hopen

theorem Follows.deliver (hrecord : h.record channel = some cs) (d : Delta) :
    ∃ sub', Follows channel i (sent ++ [d]) (h.deliver channel cs [d]) sub' := by
  have hmode : SameMode h (h.deliver channel cs [d]) := deliver_sameMode [d] hrecord rfl
  cases hclosed : sub.closed with
  | true =>
    refine hf.kept hwf (deliver_kept hwf hrecord rfl (fun id hopen => ?_) _) hmode
      (fun h => by simp [hclosed] at h) fun h => .inl h
    obtain ⟨s, hs, -, -, hopen⟩ := hopen
    rw [hf.get] at hs
    simp [← some.inj hs, hclosed] at hopen
  | false =>
    have hraw := hf.raw hclosed cs hrecord
    have hmem : i ∈ cs.handles := mem_map_of_mem (f := Prod.snd)
      ((hwf.openAt_iff_mem hrecord _ _).mp (hf.openAt hclosed))
    have hget : (h.deliver channel cs [d]).subscriptions[i]? = some (sub.send cs.raw d) := by
      change (sendAll cs h.subscriptions d)[i]? = _
      simp [getElem?_sendAll, hf.get, hmem]
    have hrec : ∀ cs', (h.deliver channel cs [d]).record channel = some cs' →
        cs'.raw := fun cs' hcs' => (hmode channel cs cs' hrecord hcs').trans hraw
    have hall := hf.complete hclosed
    by_cases hroom : sub.hasRoom
    · have hframes : frames (sub.send cs.raw d) = sent ++ [d] := by
        simp [Subscription.send, hroom, frames, ← hall]
      exact ⟨_, hget, (send_channel _ _ _).trans hf.channel_eq, hframes ▸ prefix_rfl,
        fun _ => hframes, fun _ => hrec, fun _ => hf.running hclosed⟩
    · have hsend : sub.send cs.raw d = sub.close := by
        simp [Subscription.send, hroom, hraw]
      rw [hsend] at hget
      refine ⟨_, hget, hf.channel_eq, ?_, fun h => ?_, fun h => ?_, fun h => ?_⟩
      · exact (hall ▸ prefix_append _ _ : frames sub <+: sent ++ [d])
      all_goals cases h

omit hwf in
theorem Follows.elsewhere {c : String} (hc : c ≠ channel)
    (id : Nat) : ¬ OpenAt h.subscriptions c id i := by
  rintro ⟨s, hs, rfl, -, -⟩
  rw [hf.get] at hs
  exact hc (some.inj hs ▸ hf.channel_eq)

theorem Follows.same {a : Action}
    (hunheard : ∀ c d, a = .publish c d ∨ a = .publishRaw c d → h.closed ∨ h.record c = none)
    (hopen : sub.closed = false) : (published channel a).toList = [] := by
  have hhere : ∀ d, ¬ (a = .publish channel d ∨ a = .publishRaw channel d) := by
    intro d ha
    rcases hunheard channel d ha with hclosed | hnone
    · rw [hf.running hopen] at hclosed
      cases hclosed
    · exact hwf.not_openAt hnone _ _ (hf.openAt hopen)
  cases a with
  | publish c d | publishRaw c d =>
    have hc : c ≠ channel := by
      rintro rfl
      exact hhere d (by simp)
    simp [published, hc]
  | subscribe | cancel | flush | receive | close => rfl

theorem follows_step {a : Action} (hstep : step h a = some h') :
    ∃ sub', Follows channel i (sent ++ (published channel a).toList) h' sub' := by
  have hrunning : a ≠ .close → h.closed = false → h'.closed = false ∨
      ∀ s, h'.subscriptions[i]? = some s → s.closed :=
    fun ha hrun => .inl ((closed_step hstep ha).trans hrun)
  cases step_effect hstep with
  | same hunheard =>
    exact hf.kept hwf (Kept.of_eq rfl) (SameMode.of_eq fun _ => rfl) (hf.same hwf hunheard)
      fun h => .inl h
  | @join c _ cs n hcs =>
    refine hf.kept hwf (attach_kept rfl cs n) (SameMode.of_channel c (fun other hother => ?_)
      fun old new hold hnew => ?_) (fun _ => rfl) (hrunning (by simp))
    · exact record_setRecord.trans (if_neg hother)
    · have hmode := some.inj ((record_setRecord.trans (if_pos rfl)).symm.trans hnew)
      rw [← hmode, some.inj (hcs.symm.trans hold)]
  | @create c _ raw n _ hnone =>
    refine hf.kept hwf (attach_kept subscriptions_startPump _ n)
      (SameMode.of_channel c (fun other hother => ?_) fun old new hold => ?_) (fun _ => rfl)
      (hrunning (by simp))
    · exact (record_setRecord.trans (if_neg hother)).trans record_startPump
    · simp [hnone] at hold
  | mark j =>
    exact hf.kept hwf (markCancelled_kept j) (SameMode.of_eq fun _ => rfl) (fun _ => rfl)
      (hrunning (by simp))
  | @detach j _ _ hcur =>
    obtain ⟨hkept, hmode⟩ := detach_kept (h := h.markCancelled j) (i := i) hcur _
    exact hf.kept hwf ((markCancelled_kept j).trans hkept) hmode (fun _ => rfl) (hrunning (by simp))
  | @send _ c d cs ha hcs =>
    rw [published_of ha]
    by_cases hc : c = channel
    · subst hc
      rw [if_pos rfl]
      exact hf.deliver hwf hcs d
    · rw [if_neg hc]
      exact hf.kept hwf (deliver_kept hwf hcs rfl (hf.elsewhere hc) _)
        (deliver_sameMode _ hcs rfl) (fun _ => rfl) fun h => .inl h
  | @conflate c d cs hcs hraw =>
    have hkept : Kept h (h.setRecord c { cs with pending := offer cs.pending d }) i :=
      Kept.of_eq rfl
    refine hf.kept hwf hkept (setRecord_sameMode hcs rfl) (fun hopen => ?_) fun h => .inl h
    have hc : c ≠ channel := by
      rintro rfl
      rw [hf.raw hopen cs hcs] at hraw
      cases hraw
    simp [published, hc]
  | @flush c cs hcs =>
    refine hf.kept hwf (flush_kept hwf hcs fun id hopen => ?_) (flush_sameMode hwf hcs)
      (fun _ => rfl) (hrunning (by simp))
    have hc : c = channel := by_contra fun hc => hf.elsewhere hc id hopen
    obtain ⟨s, hs, -, -, hopen⟩ := hopen
    obtain rfl := some.inj (hf.get.symm.trans hs)
    exact hf.raw hopen cs (hc ▸ hcs)
  | receive j =>
    exact hf.kept hwf (receive_kept j) (SameMode.of_eq fun _ => rfl) (fun _ => rfl)
      (hrunning (by simp))
  | close =>
    obtain ⟨hkept, hmode⟩ := close_kept (h := h) (i := i)
    refine hf.kept hwf hkept hmode (fun _ => rfl) fun hrun => .inr fun s hs => ?_
    by_contra hopen
    have hnone : h.close.record s.channel = none := by simp [Hub.close, hrun, Hub.record]
    exact hwf.close.not_openAt hnone _ _ ⟨s, hs, rfl, rfl, by simpa using hopen⟩

theorem follows_run {trace : List Action} (hrun : run step h trace = some h') :
    ∃ sub', Follows channel i (sent ++ publishedTo channel trace) h' sub' := by
  induction trace generalizing h sent sub with
  | nil =>
    cases hrun
    exact ⟨sub, by simpa [publishedTo] using hf⟩
  | cons a rest ih =>
    obtain ⟨g, hstep, hrest⟩ := run_cons_eq_some.mp hrun
    obtain ⟨sub', hf'⟩ := follows_step hf hwf hstep
    obtain ⟨sub'', hf''⟩ := ih hf' (hwf.step hstep) hrest
    refine ⟨sub'', ?_⟩
    have hsplit : publishedTo channel (a :: rest) =
        (published channel a).toList ++ publishedTo channel rest := by
      cases hd : published channel a <;> simp [publishedTo, hd]
    rwa [hsplit, ← append_assoc]

end

end

theorem follows_subscribe (hsub : h.subscribe channel buffer true = .ok h') :
    ∃ sub, Follows channel h.subscriptions.length [] h' sub := by
  have hattach : ∀ (g : Hub) cs n, g.subscriptions = h.subscriptions → g.closed = h.closed →
      h.closed = false → cs.raw →
        ∃ sub, Follows channel h.subscriptions.length [] (g.attach channel cs n) sub := by
    intro g cs n hg hgc hrun hraw
    refine ⟨⟨channel, cs.nextSub, false, n, [], [], false⟩, ?_, rfl, prefix_rfl,
      fun _ => rfl, fun _ cs' hcs' => ?_, fun _ => hgc.trans hrun⟩
    · simp [Hub.attach, hg]
    · rw [← some.inj ((record_setRecord.trans (if_pos rfl)).symm.trans hcs')]
      exact hraw
  revert hsub
  fun_cases h.subscribe channel buffer true <;> rintro ⟨⟩
  · rename_i hrun cs _ hraw
    exact hattach h cs _ rfl rfl (by simpa using hrun) (by simpa using hraw)
  · rename_i hrun _
    exact hattach _ _ _ subscriptions_startPump closed_startPump (by simpa using hrun) rfl

/-- What the reader of a raw subscription has taken, followed by what it will still find in its
Go channel, is a part from the start of the frames published since; all of them, as long as the
Go channel is not closed. -/
theorem raw_frames_gap_free {tailer : Bool} {before after : List Action} {s s' t : Hub}
    {channel : String} {buffer : Int} (hbefore : run step (newHub tailer) before = some s)
    (hsub : s.subscribe channel buffer true = .ok s') (hafter : run step s' after = some t) :
    ∃ sub, t.subscriptions[s.subscriptions.length]? = some sub ∧
      sub.received ++ sub.queue <+: publishedTo channel after ∧
        (sub.closed = false → sub.received ++ sub.queue = publishedTo channel after) := by
  obtain ⟨sub₀, hf₀⟩ := follows_subscribe hsub
  have hstep : step s (.subscribe channel buffer true) = some s' := by
    rw [step, hsub]
    rfl
  have hwf : WellFormed s' := (wellFormed_run hbefore).step hstep
  obtain ⟨sub, hf⟩ := follows_run hf₀ hwf hafter
  exact ⟨sub, hf.get, hf.isPrefix, hf.complete⟩

def frame (version : Int) : Delta :=
  ⟨"", "page", "D1", version, ""⟩

def slowReader : List Action :=
  [.publish "doc" (frame 1), .receive 0, .publishRaw "doc" (frame 2), .receive 0,
    .publish "other" (frame 7), .publish "doc" (frame 3), .publish "doc" (frame 4),
    .publish "doc" (frame 5), .receive 0]

def slowReaderStart : Hub :=
  ⟨true, [("doc", ⟨[(0, 0)], 1, [], some 0, true⟩)], [⟨"doc", 0, false, 1, [], [], false⟩],
    [⟨"doc", true⟩], false⟩

def slowReaderEnd : Hub :=
  ⟨true, [("doc", ⟨[], 1, [], some 0, true⟩)],
    [⟨"doc", 0, false, 1, [], [frame 1, frame 2, frame 3], true⟩], [⟨"doc", true⟩], false⟩

theorem raw_frames_gap_free_slowReader :
    (newHub true).subscribe "doc" 1 true = .ok slowReaderStart ∧
      run step slowReaderStart slowReader = some slowReaderEnd ∧
      ∃ sub, slowReaderEnd.subscriptions[0]? = some sub ∧
        sub.received = [frame 1, frame 2, frame 3] ∧
          sub.received ++ sub.queue <+: publishedTo "doc" slowReader := by
  have hbefore : run step _ [] = some (newHub true) := rfl
  have hsub : (newHub true).subscribe "doc" 1 true = .ok slowReaderStart := rfl
  have hafter : run step slowReaderStart slowReader = some slowReaderEnd := by decide
  obtain ⟨sub, hget, hpre, -⟩ := raw_frames_gap_free hbefore hsub hafter
  exact ⟨hsub, hafter, sub, hget, by cases hget; rfl, hpre⟩

end Fabriq.Subscribe.RawDelivery
