import Fabriq.Subscribe.HubInvariant

/-!
Whose channel a cancel function closes.  Ids count from zero in every record, so one that outlives
its record may name a subscriber of the next.
-/

namespace Fabriq.Subscribe.CancelFrame

open Lib Lib.Machine List Option

def Attached (h : Hub) (channel : String) (id k : Nat) : Prop :=
  ∃ cs, h.record channel = some cs ∧ (id, k) ∈ cs.subs

/-- The cancel function of the `i`th subscription leaves every other one, its Go channel included,
as it was, and attached where it was. -/
def TouchesOnlyOwn (h : Hub) (i : Nat) : Prop :=
  ∀ j, j ≠ i → (h.cancel i).subscriptions[j]? = h.subscriptions[j]? ∧
    ∀ channel id, Attached (h.cancel i) channel id j ↔ Attached h channel id j

/-- A subscription that creates the record of a channel comes after the cancels of all that
were made to the channel before. -/
def CreateOk (h : Hub) : Action → Prop
  | .subscribe channel _ _ => h.closed = false → h.record channel = none →
      ∀ sub ∈ h.subscriptions, sub.channel = channel → sub.cancelled = true
  | _ => True

instance (h : Hub) : ∀ a, Decidable (CreateOk h a)
  | .subscribe channel _ _ => inferInstanceAs (Decidable (h.closed = false →
      h.record channel = none → ∀ sub ∈ h.subscriptions, sub.channel = channel →
        sub.cancelled = true))
  | .cancel _ | .publish _ _ | .publishRaw _ _ | .flush _ | .receive _ | .close =>
    inferInstanceAs (Decidable True)

def page (version : Int) : Delta :=
  ⟨"", "page", "D1", version, ""⟩

/-- The first subscriber overflows, a flush deletes the record without it, and the second
subscriber gets id 0 again. -/
def restarted : List Action :=
  [.subscribe "doc" 1 true, .publish "doc" (page 1), .publish "doc" (page 2), .flush "doc",
    .subscribe "doc" 8 true]

def restartedHub : Hub :=
  ⟨false, [("doc", ⟨[(0, 1)], 1, [], none, true⟩)],
    [⟨"doc", 0, false, 1, [page 1], [], true⟩, ⟨"doc", 0, false, 8, [], [], false⟩], [], false⟩

theorem restarted_cancel_closes_other :
    run step (newHub false) restarted = some restartedHub ∧ ¬ TouchesOnlyOwn restartedHub 0 := by
  refine ⟨by decide, fun htouch => ?_⟩
  have hsame := (htouch 1 (by decide)).1
  revert hsame
  decide

variable {h h' : Hub}

/-- The id of a subscription that may still be cancelled is its own in the current record. -/
def Owned (h : Hub) : Prop :=
  ∀ (k : Nat) sub, h.subscriptions[k]? = some sub → sub.cancelled = false →
    ∀ cs, h.record sub.channel = some cs →
      sub.id < cs.nextSub ∧ ∀ k', (sub.id, k') ∈ cs.subs → k' = k

structure Shrinks (h h' : Hub) : Prop where
  records : ∀ channel cs', h'.record channel = some cs' →
    ∃ cs, h.record channel = some cs ∧ cs'.nextSub = cs.nextSub ∧ cs'.subs ⊆ cs.subs
  subscriptions : ∀ (k : Nat) sub', h'.subscriptions[k]? = some sub' →
    ∃ sub, h.subscriptions[k]? = some sub ∧ sub'.channel = sub.channel ∧ sub'.id = sub.id ∧
      (sub'.cancelled = false → sub.cancelled = false)

theorem Shrinks.owned (hs : Shrinks h h') (hown : Owned h) : Owned h' := by
  intro k sub' hsub' hcanc cs' hcs'
  obtain ⟨sub, hsub, hchannel, hid, hlive⟩ := hs.subscriptions k sub' hsub'
  obtain ⟨cs, hcs, hnext, hsubs⟩ := hs.records _ cs' hcs'
  obtain ⟨hlt, huniq⟩ := hown k sub hsub (hlive hcanc) cs (hchannel ▸ hcs)
  rw [hid, hnext]
  exact ⟨hlt, fun k' hk' => huniq k' (hsubs hk')⟩

theorem shrinks_refl : Shrinks h h := ⟨fun _ cs hcs => ⟨cs, hcs, rfl, List.Subset.refl _⟩,
    fun _ sub hsub => ⟨sub, hsub, rfl, rfl, id⟩⟩

theorem Shrinks.trans {h'' : Hub} (h₁ : Shrinks h h') (h₂ : Shrinks h' h'') : Shrinks h h'' where
  records channel cs'' hcs'' := by
    obtain ⟨cs', hcs', hnext', hsubs'⟩ := h₂.records channel cs'' hcs''
    obtain ⟨cs, hcs, hnext, hsubs⟩ := h₁.records channel cs' hcs'
    exact ⟨cs, hcs, hnext'.trans hnext, List.Subset.trans hsubs' hsubs⟩
  subscriptions k sub'' hsub'' := by
    obtain ⟨sub', hsub', hchannel', hid', hlive'⟩ := h₂.subscriptions k sub'' hsub''
    obtain ⟨sub, hsub, hchannel, hid, hlive⟩ := h₁.subscriptions k sub' hsub'
    exact ⟨sub, hsub, hchannel'.trans hchannel, hid'.trans hid, fun h => hlive (hlive' h)⟩

theorem Shrinks.modify {f : Subscription → Subscription} {j : Nat}
    (hrecord : ∀ channel, h'.record channel = h.record channel)
    (hsubs : h'.subscriptions = h.subscriptions.modify j f)
    (hchannel : ∀ s, (f s).channel = s.channel) (hid : ∀ s, (f s).id = s.id)
    (hlive : ∀ s, (f s).cancelled = false → s.cancelled = false) : Shrinks h h' where
  records channel cs' hcs' := ⟨cs', hrecord channel ▸ hcs', rfl, List.Subset.refl _⟩
  subscriptions k sub' hsub' := by
    rw [hsubs, List.getElem?_modify, Option.map_eq_map, Option.map_eq_some_iff] at hsub'
    obtain ⟨sub, hsub, rfl⟩ := hsub'
    refine ⟨sub, hsub, ?_⟩
    split
    · exact ⟨hchannel sub, hid sub, hlive sub⟩
    · exact ⟨rfl, rfl, id⟩

variable {channel : String} {cs cur : ChannelState}

theorem Shrinks.setRecord {cs' : ChannelState}
    (hrecord : h.record channel = some cs) (hnext : cs'.nextSub = cs.nextSub)
    (hsubs : cs'.subs ⊆ cs.subs) : Shrinks h (h.setRecord channel cs') where
  records other new hnew := by
    rw [record_setRecord] at hnew
    split at hnew
    · rename_i hother
      cases hnew
      exact ⟨cs, hother ▸ hrecord, hnext, hsubs⟩
    · exact ⟨new, hnew, rfl, List.Subset.refl _⟩
  subscriptions _ sub hsub := ⟨sub, hsub, rfl, rfl, id⟩

theorem Shrinks.deleteRecord (channel : String) : Shrinks h (h.deleteRecord channel) where
  records other new hnew := by
    rw [record_deleteRecord] at hnew
    split at hnew
    · cases hnew
    · exact ⟨new, hnew, rfl, List.Subset.refl _⟩
  subscriptions _ sub hsub := ⟨sub, hsub, rfl, rfl, id⟩

theorem Shrinks.stopPump (pump : Option Nat) : Shrinks h (h.stopPump pump) where
  records _ new hnew := ⟨new, record_stopPump pump ▸ hnew, rfl, List.Subset.refl _⟩
  subscriptions _ sub hsub := ⟨sub, subscriptions_stopPump pump ▸ hsub, rfl, rfl, id⟩

theorem Shrinks.closeSubscriber (handle : Option Nat) : Shrinks h (h.closeSubscriber handle) := by
  cases handle with
  | none => exact shrinks_refl
  | some k => exact Shrinks.modify (fun _ => rfl) rfl (fun _ => rfl) (fun _ => rfl) fun _ => id

theorem Shrinks.release (hrecord : h.record channel = some cs) (hnext : cur.nextSub = cs.nextSub)
    (hsubs : cur.subs ⊆ cs.subs) : Shrinks h (h.release channel cur) := by
  rw [Hub.release]
  split_ifs
  · exact (Shrinks.stopPump _).trans (Shrinks.deleteRecord channel)
  · refine (Shrinks.stopPump _).trans (Shrinks.setRecord ?_ hnext hsubs)
    rw [record_stopPump, hrecord]
  · exact Shrinks.setRecord hrecord hnext hsubs

theorem Shrinks.mark (i : Nat) : Shrinks h (h.markCancelled i) :=
  Shrinks.modify (fun _ => rfl) rfl (fun _ => rfl) (fun _ => rfl) fun s hs => by cases hs

theorem Shrinks.detach (hcur : h.record channel = some cur) (id : Nat) :
    Shrinks h ((h.closeSubscriber (cur.subs.lookup id)).release channel
      { cur with subs := Assoc.drop cur.subs id }) := by
  have hclose : (h.closeSubscriber (cur.subs.lookup id)).record channel = some cur := by
    rw [record_closeSubscriber, hcur]
  exact (Shrinks.closeSubscriber _).trans (Shrinks.release hclose rfl (filter_subset_self _))

theorem deliverLocked_shrinks (cs : ChannelState) (subscriptions : List Subscription)
    (deltas : List Delta) :
    (deliverLocked cs subscriptions deltas).1.nextSub = cs.nextSub ∧
      (deliverLocked cs subscriptions deltas).1.subs ⊆ cs.subs ∧
        ∀ (k : Nat) sub', (deliverLocked cs subscriptions deltas).2[k]? = some sub' →
          ∃ sub, subscriptions[k]? = some sub ∧ sub'.channel = sub.channel ∧ sub'.id = sub.id ∧
            sub'.cancelled = sub.cancelled := by
  induction deltas generalizing cs subscriptions with
  | nil => exact ⟨rfl, List.Subset.refl _, fun k sub hsub => ⟨sub, hsub, rfl, rfl, rfl⟩⟩
  | cons d rest ih =>
    obtain ⟨hnext, hsubs, hsame⟩ := ih (cs.afterSend _) (sendAll cs subscriptions d)
    have hafter : (cs.afterSend subscriptions).nextSub = cs.nextSub ∧
        (cs.afterSend subscriptions).subs ⊆ cs.subs := by
      rw [ChannelState.afterSend]
      split
      · exact ⟨rfl, filter_subset_self _⟩
      · exact ⟨rfl, List.Subset.refl _⟩
    refine ⟨hnext.trans hafter.1, List.Subset.trans hsubs hafter.2, fun k sub'' hsub'' => ?_⟩
    obtain ⟨sub', hsub', hchannel', hid', hlive'⟩ := hsame k sub'' hsub''
    rw [getElem?_sendAll, map_eq_some_iff] at hsub'
    obtain ⟨sub, hsub, rfl⟩ := hsub'
    refine ⟨sub, hsub, ?_⟩
    rw [hchannel', hid', hlive']
    split
    · exact ⟨send_channel _ _ _, send_id _ _ _, send_cancelled _ _ _⟩
    · exact ⟨rfl, rfl, rfl⟩

theorem Shrinks.deliver {cs₀ : ChannelState}
    (hrecord : h.record channel = some cs) (hnext : cs₀.nextSub = cs.nextSub)
    (hsubs : cs₀.subs = cs.subs) (deltas : List Delta) :
    Shrinks h (h.deliver channel cs₀ deltas) := by
  obtain ⟨hnext', hsubs', hsame⟩ := deliverLocked_shrinks cs₀ h.subscriptions deltas
  refine ⟨(Shrinks.setRecord hrecord (hnext'.trans hnext) (hsubs ▸ hsubs')).records, ?_⟩
  intro k sub' hsub'
  obtain ⟨sub, hsub, hchannel, hid, hlive⟩ := hsame k sub' hsub'
  exact ⟨sub, hsub, hchannel, hid, fun h => hlive ▸ h⟩

theorem Shrinks.close : Shrinks h h.close := by
  rw [Hub.close]
  split
  · exact shrinks_refl
  · refine ⟨fun channel cs' hcs' => (by cases hcs'), fun k sub' hsub' => ?_⟩
    rw [getElem?_mapIdx, map_eq_some_iff] at hsub'
    obtain ⟨sub, hsub, rfl⟩ := hsub'
    refine ⟨sub, hsub, ?_⟩
    split <;> exact ⟨rfl, rfl, id⟩

theorem Shrinks.setPending (hrecord : h.record channel = some cs) (pending : Pending) :
    Shrinks h (h.setRecord channel { cs with pending := pending }) :=
  Shrinks.setRecord hrecord rfl (List.Subset.refl _)

theorem Shrinks.flush (hwf : WellFormed h) (hcs : h.record channel = some cs) :
    Shrinks h (h.flush channel) := by
  have hsent : Shrinks h (h.deliverPending channel cs) := by
    apply Shrinks.deliver hcs
    · rfl
    · rfl
  rw [hwf.flush_some hcs]
  split
  · exact hsent.trans (Shrinks.deleteRecord channel)
  · exact hsent

theorem Shrinks.receive (i : Nat) : Shrinks h (h.receive i) :=
  Shrinks.modify (fun _ => rfl) rfl (fun s => s.receive_eq.1) (fun s => s.receive_eq.2.1)
    fun s hs => s.receive_eq.2.2.2 ▸ hs

theorem Owned.attach {g : Hub} (hown : Owned h) (hg : g.subscriptions = h.subscriptions)
    (hrecord : ∀ other, g.record other = h.record other)
    (hsubs : ∀ (k : Nat) sub, h.subscriptions[k]? = some sub → sub.channel = channel →
      sub.cancelled = false → h.record channel = some cs) (buffer : Nat) :
    Owned (g.attach channel cs buffer) := by
  intro k sub hsub hlive cs' hcs'
  have hnew : (g.attach channel cs buffer).record sub.channel = _ := record_setRecord
  rw [Hub.attach, hg, getElem?_append] at hsub
  split at hsub
  · rw [hnew] at hcs'
    split at hcs'
    · rename_i hchannel
      cases hcs'
      have hold := hsubs k sub hsub hchannel hlive
      obtain ⟨hlt, huniq⟩ := hown k sub hsub hlive cs (hchannel ▸ hold)
      refine ⟨Nat.lt_succ_of_lt hlt, fun k' hk' => ?_⟩
      rcases Assoc.mem_put.mp hk' with heq | ⟨hmem, -⟩
      · exact absurd (congrArg Prod.fst heq) (Nat.ne_of_lt hlt)
      · exact huniq k' hmem
    · rw [hrecord] at hcs'
      exact hown k sub hsub hlive cs' hcs'
  · rename_i hk
    have hk0 : k - h.subscriptions.length = 0 := by
      have := (List.getElem?_eq_some_iff.mp hsub).1
      simpa using this
    rw [hk0] at hsub
    cases hsub
    rw [hnew, if_pos rfl] at hcs'
    cases hcs'
    refine ⟨Nat.lt_succ_self _, fun k' hk' => ?_⟩
    rcases Assoc.mem_put.mp hk' with heq | ⟨-, hne⟩
    · have hk' : k' = g.subscriptions.length := congrArg Prod.snd heq
      rw [hk', hg]
      omega
    · exact absurd rfl hne

theorem owned_step {a : Action} (hown : Owned h) (hwf : WellFormed h) (hok : CreateOk h a)
    (hstep : step h a = some h') : Owned h' := by
  cases step_effect hstep with
  | same => exact hown
  | join n hcs => exact hown.attach rfl (fun _ => rfl) (fun _ _ _ _ _ => hcs) n
  | create n hopen hnone =>
    refine hown.attach subscriptions_startPump (fun _ => record_startPump)
      (fun k sub hget hchannel hlive => ?_) n
    have hcanc := hok hopen hnone sub (mem_of_getElem? hget) hchannel
    simp [hlive] at hcanc
  | mark i => exact (Shrinks.mark i).owned hown
  | @detach i _ _ hcur =>
    have hmark : (h.markCancelled i).record _ = _ := hcur
    exact ((Shrinks.mark i).trans (Shrinks.detach hmark _)).owned hown
  | send _ hcs => exact (Shrinks.deliver hcs rfl rfl _).owned hown
  | conflate hcs => exact (Shrinks.setPending hcs _).owned hown
  | flush hcs => exact (Shrinks.flush hwf hcs).owned hown
  | receive i => exact (Shrinks.receive i).owned hown
  | close => exact Shrinks.close.owned hown

theorem owned_newHub (tailer : Bool) : Owned (newHub tailer) := by
  intro k sub hsub
  simp [newHub] at hsub

theorem attached_release {id k : Nat} :
    Attached (h.release channel cur) channel id k ↔ (id, k) ∈ cur.subs := by
  rw [Hub.release, Attached]
  split_ifs with hempty hpending
  · simp [hempty]
  · simp
  · simp

theorem Owned.touchesOnlyOwn (hown : Owned h) (hwf : WellFormed h) (i : Nat) :
    TouchesOnlyOwn h i := by
  intro j hji
  have hsame : (h.markCancelled i).subscriptions[j]? = h.subscriptions[j]? := by
    simp [Hub.markCancelled, Ne.symm hji]
  rw [Hub.cancel]
  split
  · rename_i sub hsub
    split
    · exact ⟨rfl, fun _ _ => Iff.rfl⟩
    · rename_i hlive
      rw [Hub.detach]
      split
      · rename_i cur hcur
        obtain ⟨-, huniq⟩ := hown i sub hsub (by simpa using hlive) cur hcur
        have hok : RecordOk cur := (hwf sub.channel).record cur hcur
        refine ⟨?_, fun channel id => ?_⟩
        · rw [subscriptions_release]
          cases hlookup : cur.subs.lookup sub.id with
          | none => exact hsame
          | some k =>
            obtain rfl := huniq k (hok.lookup_eq_some_iff.mp hlookup)
            rw [← hsame]
            simp [Hub.closeSubscriber, Ne.symm hji]
        · have hmem : (id, j) ∈ Assoc.drop cur.subs sub.id ↔ (id, j) ∈ cur.subs := by
            rw [Assoc.mem_drop]
            refine and_iff_left_of_imp fun hmem => ?_
            rintro rfl
            exact hji (huniq j hmem)
          by_cases hchannel : channel = sub.channel
          · subst hchannel
            rw [attached_release, hmem, Attached]
            constructor
            · intro hsubs
              exact ⟨cur, hcur, hsubs⟩
            · rintro ⟨cs, hcs, hsubs⟩
              exact some.inj (hcs.symm.trans hcur) ▸ hsubs
          · simp only [Attached, record_release _ hchannel, record_closeSubscriber]
            exact Iff.rfl
      · exact ⟨hsame, fun _ _ => Iff.rfl⟩
  · exact ⟨rfl, fun _ _ => Iff.rfl⟩

/-- In every run in which records are created again only after those cancels, a cancel function
closes and detaches its own channel only. -/
theorem cancel_touches_only_own {tailer : Bool} {trace : List Action} {h : Hub}
    (hok : Along step CreateOk (newHub tailer) trace)
    (hrun : run step (newHub tailer) trace = some h) (i : Nat) : TouchesOnlyOwn h i := by
  have hstep : ∀ s a t, WellFormed s ∧ Owned s → CreateOk s a → step s a = some t →
      WellFormed t ∧ Owned t := fun s a t hs hok hstep =>
    ⟨hs.1.step hstep, owned_step hs.2 hs.1 hok hstep⟩
  have hinv := run_invariant hstep ⟨wellFormed_newHub tailer, owned_newHub tailer⟩ hok hrun
  exact hinv.2.touchesOnlyOwn hinv.1 i

def cancelledFirst : List Action :=
  [.subscribe "doc" 1 true, .publish "doc" (page 1), .publish "doc" (page 2), .flush "doc",
    .cancel 0, .subscribe "doc" 8 true]

theorem cancel_touches_only_own_cancelledFirst :
    ∃ h, run step (newHub true) cancelledFirst = some h ∧ h.subscriptions.length = 2 ∧
      TouchesOnlyOwn h 0 ∧ TouchesOnlyOwn h 1 := by
  have hok : Along step CreateOk (newHub true) cancelledFirst := by decide
  exact ⟨_, rfl, by decide, cancel_touches_only_own hok rfl 0, cancel_touches_only_own hok rfl 1⟩

end Fabriq.Subscribe.CancelFrame
