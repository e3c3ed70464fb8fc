import Mathlib.Algebra.Group.Nat.Defs
import Fabriq.Lib.Assoc
import Fabriq.Lib.Machine

/-!
The pool of open shards of catalog mode.  An `Acquire` call is a job whose steps are the sections
under the pool's lock and the dial between two of them, so that calls and release functions may
interleave.
-/

namespace Fabriq.Shard.PoolManager

open Lib

structure Config where
  cap : Nat
  dialBackoff : Nat

/-- `poolEntry`.  An entry that is ready has the adapter stack that its dial opened; one that
is dialed has the call that waits for the dial, which stands for the channel. -/
structure PoolEntry where
  stack : Option Nat
  refs : Nat
  lastUsed : Nat
  dialing : Option Nat
  failUntil : Nat
  failCount : Nat
deriving DecidableEq

def PoolEntry.new : PoolEntry :=
  ⟨none, 0, 0, none, 0, 0⟩

def PoolEntry.live (e : PoolEntry) : Bool :=
  e.stack.isSome || e.dialing.isSome

structure Stack where
  shardId : String
  isOpen : Bool
deriving DecidableEq

structure Lease where
  shardId : String
  stack : Nat
  released : Bool
deriving DecidableEq

inductive Call
  | trying (shardId : String)
  | awaitingDial (shardId : String) (dialer : Nat)
  | awaitingCapacity (shardId : String)
  | dialing (shardId : String)
  | dialed (shardId : String) (stack : Option Nat)
  | acquired (lease : Nat)
  | failed
deriving DecidableEq

structure World where
  entries : List (String × PoolEntry)
  allStacks : List Stack
  leases : List Lease
  calls : List Call
deriving DecidableEq

def newPool : World :=
  ⟨[], [], [], []⟩

def liveCountLocked (entries : List (String × PoolEntry)) : Nat :=
  entries.countP fun e => e.2.live

/-- One round of the scan of `evictIdleLocked`. -/
def scanIdle (entries : List (String × PoolEntry)) (best : Option (String × PoolEntry))
    (id : String) : Option (String × PoolEntry) :=
  match entries.lookup id with
  | none => best
  | some e =>
    if e.stack.isNone || 0 < e.refs then best
    else
      match best with
      | none => some (id, e)
      | some v => if e.lastUsed < v.2.lastUsed then some (id, e) else some v

def victim (entries : List (String × PoolEntry)) (order : List String) :
    Option (String × PoolEntry) :=
  order.foldl (scanIdle entries) none

def closeStack (allStacks : List Stack) : Option Nat → List Stack
  | none => allStacks
  | some k => allStacks.modify k fun s => { s with isOpen := false }

/-- Close an idle shard; `none` when every open shard is held. -/
def evictIdleLocked (w : World) (order : List String) : Option World :=
  (victim w.entries order).map fun v =>
    { w with entries := Assoc.drop w.entries v.1, allStacks := closeStack w.allStacks v.2.stack }

/-- The loop that evicts until there is room for one more shard, and whether there is.  Each
scan has an order of the map's keys. -/
def ensureCapacity (cap : Nat) : World → List (List String) → Option (World × Bool)
  | w, orders =>
    if liveCountLocked w.entries < cap then some (w, true)
    else
      match orders with
      | [] => none
      | order :: rest =>
        if order.Perm (w.entries.map Prod.fst) then
          match evictIdleLocked w order with
          | none => some (w, false)
          | some w' => ensureCapacity cap w' rest
        else none

def World.setCall (w : World) (i : Nat) (call : Call) : World :=
  { w with calls := w.calls.set i call }

def World.setEntry (w : World) (shardId : String) (e : PoolEntry) : World :=
  { w with entries := Assoc.put w.entries shardId e }

/-- Call `i` returns a shard and its release function. -/
def World.handOut (w : World) (i : Nat) (shardId : String) (stack : Nat) : World :=
  { w with
    leases := w.leases ++ [⟨shardId, stack, false⟩]
    calls := w.calls.set i (.acquired w.leases.length) }

/-- The section of `tryAcquire` before the dial, for an entry that is not ready. -/
def startDial (cfg : Config) (w : World) (i : Nat) (shardId : String) (e : PoolEntry)
    (orders : List (List String)) : Option World :=
  (ensureCapacity cfg.cap w orders).map fun
    | (w', true) =>
      (w'.setEntry shardId { e with dialing := some i }).setCall i (.dialing shardId)
    | (w', false) => w'.setCall i (.awaitingCapacity shardId)

/-- The first section of `tryAcquire` under the lock. -/
def tryAcquire (cfg : Config) (w : World) (i : Nat) (shardId : String) (now : Nat)
    (orders : List (List String)) : Option World :=
  match w.entries.lookup shardId with
  | none => startDial cfg w i shardId .new orders
  | some e =>
    match e.stack with
    | some k =>
      some ((w.setEntry shardId { e with refs := e.refs + 1, lastUsed := now }).handOut i
        shardId k)
    | none =>
      match e.dialing with
      | some dialer => some (w.setCall i (.awaitingDial shardId dialer))
      | none =>
        if now < e.failUntil then some (w.setCall i .failed)
        else startDial cfg w i shardId e orders

/-- The entry that call `i` dials for; it is changed through the call's own pointer. -/
def World.updateDialed (w : World) (i : Nat) (shardId : String) (f : PoolEntry → PoolEntry) :
    World :=
  match w.entries.lookup shardId with
  | none => w
  | some e => if e.dialing = some i then w.setEntry shardId (f e) else w

def PoolEntry.dialFailed (cfg : Config) (now : Nat) (e : PoolEntry) : PoolEntry :=
  { e with
    dialing := none
    failCount := e.failCount + 1
    failUntil := now + cfg.dialBackoff * 2 ^ min e.failCount 5 }

def PoolEntry.dialed (k now : Nat) (e : PoolEntry) : PoolEntry :=
  { e with
    stack := some k
    refs := 1
    lastUsed := now
    dialing := none
    failUntil := 0
    failCount := 0 }

/-- The section of `tryAcquire` after a dial that failed. -/
def recordFailure (cfg : Config) (w : World) (i : Nat) (shardId : String) (now : Nat) : World :=
  (w.updateDialed i shardId (.dialFailed cfg now)).setCall i .failed

/-- The section of `tryAcquire` after a dial that succeeded. -/
def recordSuccess (w : World) (i : Nat) (shardId : String) (k now : Nat) : World :=
  (w.updateDialed i shardId (.dialed k now)).handOut i shardId k

/-- The release function of lease `j`. -/
def release (w : World) (j : Nat) (l : Lease) (now : Nat) : World :=
  if l.released then w
  else
    let w' := { w with leases := w.leases.set j { l with released := true } }
    match w.entries.lookup l.shardId with
    | none => w'
    | some e =>
      if 0 < e.refs then
        w'.setEntry l.shardId { e with refs := e.refs - 1, lastUsed := now }
      else w'

inductive Action
  | acquire (shardId : String)
  | tryAcquire (i now : Nat) (orders : List (List String))
  | proceed (i : Nat)
  | giveUp (i : Nat)
  | dial (i : Nat) (success : Bool)
  | record (i now : Nat)
  | release (j now : Nat)

/-- A call that waits for a dial proceeds once its channel is closed, one that waits for capacity at
any time; both give up when their context ends or their deadline passes. -/
def step (cfg : Config) (w : World) : Action → Option World
  | .acquire shardId => some { w with calls := w.calls ++ [.trying shardId] }
  | .tryAcquire i now orders =>
    match w.calls[i]? with
    | some (.trying shardId) => tryAcquire cfg w i shardId now orders
    | _ => none
  | .proceed i =>
    match w.calls[i]? with
    | some (.awaitingDial shardId dialer) =>
      match w.calls[dialer]? with
      | some (.dialing _) => none
      | some (.dialed ..) => none
      | _ => some (w.setCall i (.trying shardId))
    | some (.awaitingCapacity shardId) => some (w.setCall i (.trying shardId))
    | _ => none
  | .giveUp i =>
    match w.calls[i]? with
    | some (.awaitingDial ..) => some (w.setCall i .failed)
    | some (.awaitingCapacity _) => some (w.setCall i .failed)
    | _ => none
  | .dial i success =>
    match w.calls[i]? with
    | some (.dialing shardId) =>
      if success then
        some { w with
          allStacks := w.allStacks ++ [⟨shardId, true⟩]
          calls := w.calls.set i (.dialed shardId (some w.allStacks.length)) }
      else some (w.setCall i (.dialed shardId none))
    | _ => none
  | .record i now =>
    match w.calls[i]? with
    | some (.dialed shardId none) => some (recordFailure cfg w i shardId now)
    | some (.dialed shardId (some k)) => some (recordSuccess w i shardId k now)
    | _ => none
  | .release j now => (w.leases[j]?).map fun l => release w j l now

end Fabriq.Shard.PoolManager
