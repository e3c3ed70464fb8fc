import Mathlib.Data.List.Sort
import Fabriq.Lib.Assoc
import Fabriq.Lib.Machine

/-!
The hub that fans deltas out: the channel records with their subscribers, conflation buffers and
tail pumps.  Every method runs under the hub's mutex and is one step.
-/

namespace Fabriq.Subscribe

open Lib Lib.Assoc

structure Delta where
  streamId : String
  aggregate : String
  aggId : String
  version : Int
  payload : String
deriving DecidableEq

/-- The buffer of a `conflator`: the latest delta of each aggregate. -/
abbrev Pending := List (String × Delta)

def conflationKey (d : Delta) : String :=
  d.aggregate ++ "/" ++ d.aggId

def offer (pending : Pending) (d : Delta) : Pending :=
  match pending.lookup (conflationKey d) with
  | some prev =>
    if prev.version ≤ d.version then put pending (conflationKey d) d else pending
  | none => put pending (conflationKey d) d

/-- What `drain` returns; it leaves an empty buffer. -/
def drain (pending : Pending) : List Delta :=
  (pending.map Prod.snd).insertionSort fun a b =>
    a.streamId < b.streamId ∨ a.streamId = b.streamId ∧ a.version ≤ b.version

/-- A subscription: the channel name and the id its cancel function closes over, whether that has
run, and its Go channel with what the reader took from it. -/
structure Subscription where
  channel : String
  id : Nat
  cancelled : Bool
  buffer : Nat
  queue : List Delta
  received : List Delta
  closed : Bool
deriving DecidableEq

/-- `channelState`.  The map `subs` takes ids to Go channels, named by the position of their
subscription; `pumpCancel` names the pump it stops. -/
structure ChannelState where
  subs : List (Nat × Nat)
  nextSub : Nat
  pending : Pending
  pumpCancel : Option Nat
  raw : Bool
deriving DecidableEq

structure Pump where
  channel : String
  running : Bool
deriving DecidableEq

structure Hub where
  tailer : Bool
  channels : List (String × ChannelState)
  subscriptions : List Subscription
  pumps : List Pump
  closed : Bool
deriving DecidableEq

def newHub (tailer : Bool) : Hub :=
  ⟨tailer, [], [], [], false⟩

inductive SubscribeError
  | closed
  /-- One delivery mode per channel. -/
  | mode (channel : String) (raw : Bool)
deriving DecidableEq

def Subscription.close (s : Subscription) : Subscription :=
  { s with closed := true }

def Subscription.hasRoom (s : Subscription) : Bool :=
  s.queue.length < s.buffer

/-- A send that does not block.  A full buffer drops the delta, or closes the channel of a
raw subscriber. -/
def Subscription.send (raw : Bool) (d : Delta) (s : Subscription) : Subscription :=
  if s.hasRoom then { s with queue := s.queue ++ [d] }
  else if raw then s.close
  else s

def Subscription.receive (s : Subscription) : Subscription :=
  match s.queue with
  | d :: rest => { s with queue := rest, received := s.received ++ [d] }
  | [] => s

def ChannelState.handles (cs : ChannelState) : List Nat :=
  cs.subs.map Prod.snd

def ChannelState.afterSend (cs : ChannelState) (subscriptions : List Subscription) : ChannelState :=
  if cs.raw then
    { cs with
      subs := cs.subs.filter fun e => subscriptions[e.2]?.any Subscription.hasRoom }
  else cs

def sendAll (cs : ChannelState) (subscriptions : List Subscription) (d : Delta) :
    List Subscription :=
  subscriptions.mapIdx fun k s => if k ∈ cs.handles then s.send cs.raw d else s

def deliverLocked (cs : ChannelState) (subscriptions : List Subscription) :
    List Delta → ChannelState × List Subscription
  | [] => (cs, subscriptions)
  | d :: rest => deliverLocked (cs.afterSend subscriptions) (sendAll cs subscriptions d) rest

namespace Hub

def record (h : Hub) (channel : String) : Option ChannelState :=
  h.channels.lookup channel

def setRecord (h : Hub) (channel : String) (cs : ChannelState) : Hub :=
  { h with channels := put h.channels channel cs }

def deleteRecord (h : Hub) (channel : String) : Hub :=
  { h with channels := Assoc.drop h.channels channel }

def stopPump (h : Hub) (pump : Option Nat) : Hub :=
  match pump with
  | some p => { h with pumps := h.pumps.modify p fun q => { q with running := false } }
  | none => h

def newRecord (h : Hub) (raw : Bool) : ChannelState :=
  ⟨[], 0, [], if h.tailer then some h.pumps.length else none, raw⟩

def startPump (h : Hub) (channel : String) : Hub :=
  if h.tailer then { h with pumps := h.pumps ++ [⟨channel, true⟩] } else h

def attach (h : Hub) (channel : String) (cs : ChannelState) (buffer : Nat) : Hub :=
  let sub : Subscription := ⟨channel, cs.nextSub, false, buffer, [], [], false⟩
  { h.setRecord channel { cs with
      subs := put cs.subs cs.nextSub h.subscriptions.length
      nextSub := cs.nextSub + 1 } with
    subscriptions := h.subscriptions ++ [sub] }

/-- `subscribe` of both modes; the new subscription is the last one. -/
def subscribe (h : Hub) (channel : String) (buffer : Int) (raw : Bool) :
    Except SubscribeError Hub :=
  let capacity := if buffer ≤ 0 then 64 else buffer.toNat
  if h.closed then .error .closed
  else
    match h.record channel with
    | some cs =>
      if cs.raw ≠ raw then .error (.mode channel cs.raw)
      else .ok (h.attach channel cs capacity)
    | none => .ok ((h.startPump channel).attach channel (h.newRecord raw) capacity)

def closeSubscriber (h : Hub) (handle : Option Nat) : Hub :=
  match handle with
  | some k => { h with subscriptions := h.subscriptions.modify k Subscription.close }
  | none => h

/-- The end of a cancel: without a subscriber the pump is stopped, and the record goes
unless deltas are pending. -/
def release (h : Hub) (channel : String) (cur : ChannelState) : Hub :=
  if cur.subs = [] then
    if cur.pending = [] then (h.stopPump cur.pumpCancel).deleteRecord channel
    else (h.stopPump cur.pumpCancel).setRecord channel { cur with pumpCancel := none }
  else h.setRecord channel cur

/-- The body that `once` guards, for a subscription to `channel` under `id`. -/
def detach (h : Hub) (channel : String) (id : Nat) : Hub :=
  match h.record channel with
  | some cur =>
    (h.closeSubscriber (cur.subs.lookup id)).release channel
      { cur with subs := Assoc.drop cur.subs id }
  | none => h

def markCancelled (h : Hub) (i : Nat) : Hub :=
  { h with subscriptions := h.subscriptions.modify i fun s => { s with cancelled := true } }

/-- The cancel function of the `i`th subscription; the end of its context calls it too. -/
def cancel (h : Hub) (i : Nat) : Hub :=
  match h.subscriptions[i]? with
  | some sub =>
    if sub.cancelled then h else (h.markCancelled i).detach sub.channel sub.id
  | none => h

def deliver (h : Hub) (channel : String) (cs : ChannelState) (deltas : List Delta) : Hub :=
  let sent := deliverLocked cs h.subscriptions deltas
  { h.setRecord channel sent.1 with subscriptions := sent.2 }

def publish (h : Hub) (channel : String) (d : Delta) : Hub :=
  if h.closed then h
  else
    match h.record channel with
    | some cs =>
      if cs.raw then h.deliver channel cs [d]
      else h.setRecord channel { cs with pending := offer cs.pending d }
    | none => h

def publishRaw (h : Hub) (channel : String) (d : Delta) : Hub :=
  if h.closed then h
  else
    match h.record channel with
    | some cs => h.deliver channel cs [d]
    | none => h

def deliverPending (h : Hub) (channel : String) (cs : ChannelState) : Hub :=
  h.deliver channel { cs with pending := [] } (drain cs.pending)

/-- `flush`, by the window's timer or for one of the names that `Flush` has listed. -/
def flush (h : Hub) (channel : String) : Hub :=
  match h.record channel with
  | some cs =>
    let sent := h.deliverPending channel cs
    if (sent.record channel).any fun after => after.subs = [] ∧ after.pending = [] then
      sent.deleteRecord channel
    else sent
  | none => h

def attachedHandles (h : Hub) : List Nat :=
  h.channels.flatMap fun e => e.2.handles

def close (h : Hub) : Hub :=
  if h.closed then h
  else
    { h with
      closed := true
      channels := []
      pumps := (h.channels.foldl (fun h' e => h'.stopPump e.2.pumpCancel) h).pumps
      subscriptions := h.subscriptions.mapIdx fun k s =>
        if k ∈ h.attachedHandles then s.close else s }

def receive (h : Hub) (i : Nat) : Hub :=
  { h with subscriptions := h.subscriptions.modify i Subscription.receive }

end Hub

inductive Action
  | subscribe (channel : String) (buffer : Int) (raw : Bool)
  | cancel (i : Nat)
  | publish (channel : String) (d : Delta)
  | publishRaw (channel : String) (d : Delta)
  | flush (channel : String)
  | receive (i : Nat)
  | close
deriving DecidableEq

def step (h : Hub) : Action → Option Hub
  -- A subscription that is refused leaves the hub as it is.
  | .subscribe channel buffer raw => some ((h.subscribe channel buffer raw).toOption.getD h)
  | .cancel i => some (h.cancel i)
  | .publish channel d => some (h.publish channel d)
  | .publishRaw channel d => some (h.publishRaw channel d)
  | .flush channel => some (h.flush channel)
  | .receive i => some (h.receive i)
  | .close => some h.close

variable {h : Hub} {channel other : String} {cs : ChannelState}

@[simp] theorem record_setRecord :
    (h.setRecord channel cs).record other = if other = channel then some cs else h.record other :=
  lookup_put

@[simp] theorem record_deleteRecord :
    (h.deleteRecord channel).record other = if other = channel then none else h.record other :=
  lookup_drop

@[simp] theorem record_stopPump (pump : Option Nat) :
    (h.stopPump pump).record other = h.record other := by
  cases pump <;> rfl

@[simp] theorem subscriptions_stopPump (pump : Option Nat) :
    (h.stopPump pump).subscriptions = h.subscriptions := by
  cases pump <;> rfl

@[simp] theorem record_closeSubscriber (handle : Option Nat) :
    (h.closeSubscriber handle).record other = h.record other := by
  cases handle <;> rfl

@[simp] theorem record_startPump : (h.startPump channel).record other = h.record other := by
  rw [Hub.startPump]
  split <;> rfl

@[simp] theorem subscriptions_startPump :
    (h.startPump channel).subscriptions = h.subscriptions := by
  rw [Hub.startPump]
  split <;> rfl

@[simp] theorem closed_stopPump (pump : Option Nat) : (h.stopPump pump).closed = h.closed := by
  cases pump <;> rfl

@[simp] theorem closed_startPump : (h.startPump channel).closed = h.closed := by
  rw [Hub.startPump]
  split <;> rfl

@[simp] theorem closed_closeSubscriber (handle : Option Nat) :
    (h.closeSubscriber handle).closed = h.closed := by
  cases handle <;> rfl

inductive Effect (h : Hub) : Action → Hub → Prop
  | same {a : Action} (hunheard : ∀ channel d,
      a = .publish channel d ∨ a = .publishRaw channel d →
        h.closed = true ∨ h.record channel = none) : Effect h a h
  | join {channel : String} {buffer : Int} {cs : ChannelState} (n : Nat)
      (hcs : h.record channel = some cs) :
      Effect h (.subscribe channel buffer cs.raw) (h.attach channel cs n)
  | create {channel : String} {buffer : Int} {raw : Bool} (n : Nat) (hopen : h.closed = false)
      (hnone : h.record channel = none) :
      Effect h (.subscribe channel buffer raw)
        ((h.startPump channel).attach channel (h.newRecord raw) n)
  | mark (i : Nat) : Effect h (.cancel i) (h.markCancelled i)
  | detach {i : Nat} {sub : Subscription} {cur : ChannelState}
      (hcur : h.record sub.channel = some cur) :
      Effect h (.cancel i) (((h.markCancelled i).closeSubscriber (cur.subs.lookup sub.id)).release
        sub.channel { cur with subs := Assoc.drop cur.subs sub.id })
  | send {a : Action} {channel : String} {d : Delta} {cs : ChannelState}
      (ha : a = .publish channel d ∨ a = .publishRaw channel d)
      (hcs : h.record channel = some cs) : Effect h a (h.deliver channel cs [d])
  | conflate {channel : String} {d : Delta} {cs : ChannelState}
      (hcs : h.record channel = some cs) (hraw : cs.raw = false) :
      Effect h (.publish channel d)
        (h.setRecord channel { cs with pending := offer cs.pending d })
  | flush {channel : String} {cs : ChannelState} (hcs : h.record channel = some cs) :
      Effect h (.flush channel) (h.flush channel)
  | receive (i : Nat) : Effect h (.receive i) (h.receive i)
  | close : Effect h .close h.close

theorem step_effect {h' : Hub} {a : Action} (hstep : step h a = some h') : Effect h a h' := by
  cases a with
  | subscribe c buffer raw =>
    cases hstep
    fun_cases Hub.subscribe h c buffer raw
    · exact .same (by simp)
    · exact .same (by simp)
    · rename_i cs hcs hraw
      obtain rfl : cs.raw = raw := by simpa using hraw
      exact .join _ hcs
    · rename_i hopen hnone
      exact .create _ (by simpa using hopen) hnone
  | cancel i =>
    cases hstep
    fun_cases Hub.cancel h i
    · exact .same (by simp)
    · fun_cases Hub.detach
      · rename_i hcur
        exact .detach hcur
      · exact .mark i
    · exact .same (by simp)
  | publish c d =>
    cases hstep
    fun_cases Hub.publish h c d
    · rename_i hclosed
      exact .same fun _ _ _ => .inl hclosed
    · rename_i hcs _
      exact .send (.inl rfl) hcs
    · rename_i hcs hraw
      exact .conflate hcs (by simpa using hraw)
    · rename_i hnone
      exact .same (by simp [hnone])
  | publishRaw c d =>
    cases hstep
    fun_cases Hub.publishRaw h c d
    · rename_i hclosed
      exact .same fun _ _ _ => .inl hclosed
    · rename_i hcs
      exact .send (.inr rfl) hcs
    · rename_i hnone
      exact .same (by simp [hnone])
  | flush c =>
    cases hstep
    cases hcs : h.record c with
    | none =>
      rw [Hub.flush, hcs]
      exact .same (by simp)
    | some cs => exact .flush hcs
  | receive i => cases hstep; exact .receive i
  | close => cases hstep; exact .close

theorem closed_step {h' : Hub} {a : Action} (hstep : step h a = some h') (ha : a ≠ .close) :
    h'.closed = h.closed := by
  cases step_effect hstep with
  | same | join | mark | send | conflate | receive => rfl
  | create => exact closed_startPump
  | detach =>
    rw [Hub.release]
    split_ifs <;> simp [Hub.setRecord, Hub.deleteRecord, Hub.markCancelled]
  | flush hcs =>
    simp only [Hub.flush, hcs]
    split <;> rfl
  | close => exact absurd rfl ha

/-- The `k`th subscription was given `id` in `channel`, and its Go channel is open. -/
def OpenAt (subscriptions : List Subscription) (channel : String) (id k : Nat) : Prop :=
  ∃ sub, subscriptions[k]? = some sub ∧ sub.channel = channel ∧ sub.id = id ∧
    sub.closed = false

variable {subscriptions : List Subscription} {id k : Nat}

theorem openAt_modify {f : Subscription → Subscription} {i : Nat}
    (hchannel : ∀ s, (f s).channel = s.channel) (hid : ∀ s, (f s).id = s.id)
    (hclosed : ∀ s, (f s).closed = s.closed) :
    OpenAt (subscriptions.modify i f) channel id k ↔ OpenAt subscriptions channel id k := by
  simp only [OpenAt, List.getElem?_modify]
  by_cases hik : i = k
  · simp [hik, hchannel, hid, hclosed]
  · simp [hik]

theorem openAt_modify_close {i : Nat} :
    OpenAt (subscriptions.modify i Subscription.close) channel id k ↔
      OpenAt subscriptions channel id k ∧ k ≠ i := by
  simp only [OpenAt, List.getElem?_modify]
  by_cases hik : i = k
  · simp [hik, Subscription.close]
  · simp [hik, Ne.symm hik]

theorem openAt_concat {sub : Subscription} (hopen : sub.closed = false) :
    OpenAt (subscriptions ++ [sub]) channel id k ↔ OpenAt subscriptions channel id k ∨
        sub.channel = channel ∧ sub.id = id ∧ k = subscriptions.length := by
  simp only [OpenAt, List.getElem?_append]
  by_cases hk : k < subscriptions.length
  · simp [hk, Nat.ne_of_lt hk]
  · by_cases heq : k = subscriptions.length
    · simp [heq, hopen]
    · have hsub : k - subscriptions.length ≠ 0 := by omega
      simp [hk, heq, hsub]

end Fabriq.Subscribe
