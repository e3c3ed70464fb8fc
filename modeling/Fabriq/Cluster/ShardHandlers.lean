import Fabriq.Cluster.Rendezvous
import Fabriq.Lib.Assoc
import Fabriq.Live.Types

namespace Fabriq.Cluster.ShardHandlers

open Cluster.Rendezvous Lib Live.Types Lib.Assoc

structure Placement where
  weight : String → Nat → UInt64
  partitionOf : String → String → Nat

def fabriq : Placement :=
  ⟨Rendezvous.weight, Rendezvous.partitionOf⟩

def Placement.owner (place : Placement) (p : Nat) (live : List String) : String :=
  Rendezvous.owner place.weight p live

def Placement.owns (place : Placement) (self : String) (p : Nat) (live : List String) : Bool :=
  Rendezvous.owns place.weight p self live

variable {ι : Type} [DecidableEq ι]

structure Registration (ι : Type) where
  subId : ι
  tenantId : String
  entity : String
  partition : Nat
  query : LiveQuery
  gatewayId : String

inductive Control (ι : Type)
  | subscribe (subId : ι) (gatewayId tenantId : String) (query : LiveQuery)
  | reanchor (subId : ι) (cursor : Option Cursor) (limit : Nat)
  | unsubscribe (subId : ι)

def Control.subId : Control ι → ι
  | .subscribe subId _ _ _ => subId
  | .reanchor subId _ _ => subId
  | .unsubscribe subId => subId

abbrev Registry (ι : Type) := List (ι × Registration ι)

def byPartitionNum (registry : Registry ι) (p : Nat) : List (Registration ι) :=
  (registry.map Prod.snd).filter fun reg => reg.partition = p

structure ShardSub (ι : Type) where
  reg : Registration ι
  pump : Nat

/-- What a handler still has to do, one access to the registry or the engine at a time;
other shards take their steps in between. -/
inductive Job (ι : Type)
  | put (reg : Registration ι)
  | start (reg : Registration ι)
  /-- `startSub` in the loop of `claimPartition`. -/
  | restart (reg : Registration ι)
  /-- The registry read of `claimPartition`. -/
  | claim (p : Nat)
  | delete (subId : ι)

/-- A shard: the partitions it owned at its last reconcile, the subscriptions it serves, the
running pumps, and what is left of the handler its goroutine is in. -/
structure Shard (ι : Type) where
  owned : Nat → Bool
  subs : ι → Option (ShardSub ι)
  pumps : List (Nat × ι)
  started : Nat
  jobs : List (Job ι)

def newShard : Shard ι :=
  ⟨fun _ => false, fun _ => none, [], 0, []⟩

def registration (place : Placement) (subId : ι) (gatewayId tenantId : String)
    (query : LiveQuery) : Registration ι :=
  ⟨subId, tenantId, query.entity, place.partitionOf tenantId query.entity, query, gatewayId⟩

def Registration.slide (reg : Registration ι) (cursor : Option Cursor) (limit : Nat) :
    Registration ι :=
  { reg with query := { reg.query with
      cursor := cursor
      limit := if 0 < limit then limit else reg.query.limit } }

/-- A handled control message.  `live` is what `LiveShards` returns and `slid` says that
the engine's `Reanchor` succeeds. -/
def handleControl (place : Placement) (self : String) (live : List String) (slid : Bool)
    (sh : Shard ι) : Control ι → Shard ι
  | .subscribe subId gatewayId tenantId query =>
    let reg := registration place subId gatewayId tenantId query
    -- Not ours: dropped, and nothing re-routes it.
    if place.owns self reg.partition live then { sh with jobs := [.put reg, .start reg] }
    else sh
  | .reanchor subId cursor limit =>
    match sh.subs subId with
    | none => sh
    | some sub =>
      if slid then
        let reg := sub.reg.slide cursor limit
        { sh with
          subs := fun i => if i = subId then some { sub with reg := reg } else sh.subs i
          jobs := [.put reg] }
      else sh
  | .unsubscribe subId =>
    match sh.subs subId with
    | none => sh
    | some sub =>
      { sh with
        subs := fun i => if i = subId then none else sh.subs i
        pumps := sh.pumps.filter fun pump => pump.1 ≠ sub.pump
        jobs := [.delete subId] }

def startSub (sh : Shard ι) (reg : Registration ι) (ok : Bool) : Shard ι :=
  if ok then
    { sh with
      subs := fun i => if i = reg.subId then some ⟨reg, sh.started⟩ else sh.subs i
      pumps := (sh.started, reg.subId) :: sh.pumps
      started := sh.started + 1 }
  else sh

def newOwned (place : Placement) (self : String) (live : List String) (p : Nat) : Bool :=
  decide (p < partitions) && place.owns self p live

def lostSub (owned owned' : Nat → Bool) (sub : ShardSub ι) : Bool :=
  owned sub.reg.partition && !owned' sub.reg.partition

/-- `releasePartition` for every lost partition. -/
def releaseLost (owned owned' : Nat → Bool) (sh : Shard ι) : Shard ι :=
  { sh with
    subs := fun i => (sh.subs i).filter fun sub => !lostSub owned owned' sub
    pumps := sh.pumps.filter fun pump =>
      (sh.subs pump.2).all fun sub => !(lostSub owned owned' sub && sub.pump == pump.1) }

/-- The lost partitions are released, the gained ones are claimed one after another. -/
def reconcileOwnership (place : Placement) (self : String) (live : List String)
    (sh : Shard ι) : Shard ι :=
  let owned' := newOwned place self live
  { releaseLost sh.owned owned' sh with
    owned := owned'
    jobs := ((List.range partitions).filter fun p => owned' p && !sh.owned p).map .claim }

/-- The next access of the handler a shard is in; `ok` says that it succeeds. -/
def work (sh : Shard ι) (registry : Registry ι) (ok : Bool) : Option (Shard ι × Registry ι) :=
  match sh.jobs with
  | [] => none
  | .put reg :: rest =>
    some ({ sh with jobs := rest },
      if ok then put registry reg.subId reg else registry)
  | .start reg :: rest => some (startSub { sh with jobs := rest } reg ok, registry)
  | .restart reg :: rest =>
    if (sh.subs reg.subId).isSome then some ({ sh with jobs := rest }, registry)
    else some (startSub { sh with jobs := rest } reg ok, registry)
  | .claim p :: rest =>
    some ({ sh with
      jobs := (if ok then (byPartitionNum registry p).map .restart else []) ++ rest },
      registry)
  | .delete subId :: rest =>
    some ({ sh with jobs := rest }, if ok then drop registry subId else registry)

def startedBy (sh : Shard ι) (ok : Bool) : Option ι :=
  match sh.jobs with
  | .start reg :: _ => if ok then some reg.subId else none
  | .restart reg :: _ => if ok && (sh.subs reg.subId).isNone then some reg.subId else none
  | _ => none

def assets : LiveQuery where
  entity := "asset"
  conds := []
  sort := []
  limit := 1

section

def Job.write (registry : Registry ι) (ok : Bool) : Job ι → Registry ι
  | .put reg => if ok then Assoc.put registry reg.subId reg else registry
  | .delete subId => if ok then drop registry subId else registry
  | _ => registry

def Job.followUp (registry : Registry ι) (ok : Bool) : Job ι → List (Job ι)
  | .claim p => if ok then (byPartitionNum registry p).map .restart else []
  | _ => []

variable {sh : Shard ι} {registry : Registry ι} {ok : Bool} {next : Shard ι × Registry ι}

theorem work_effect (h : work sh registry ok = some next) :
    ∃ job rest, sh.jobs = job :: rest ∧ next.2 = job.write registry ok ∧
      next.1.jobs = job.followUp registry ok ++ rest := by
  revert h
  fun_cases work sh registry ok <;> rintro ⟨⟩ <;> refine ⟨_, _, ‹_›, rfl, ?_⟩ <;>
    try rfl
  · cases ok <;> rfl
  · cases ok <;> rfl

omit [DecidableEq ι] in
theorem mem_followUp (job : Job ι) {next : Job ι} (h : next ∈ job.followUp registry ok) :
    ∃ p reg, job = .claim p ∧ ok ∧ reg ∈ byPartitionNum registry p ∧ next = .restart reg := by
  cases job with
  | claim p =>
    cases ok with
    | false => simp [Job.followUp] at h
    | true =>
      obtain ⟨reg, hreg, rfl⟩ := List.mem_map.mp h
      exact ⟨p, reg, rfl, rfl, hreg, rfl⟩
  | put _ | start _ | restart _ | delete _ => simp [Job.followUp] at h

theorem lookup_write (registry : Registry ι) (ok : Bool) (job : Job ι) (subId : ι) :
    (job.write registry ok).lookup subId = registry.lookup subId ∨
      (∃ reg, job = .put reg ∧ reg.subId = subId ∧
        (job.write registry ok).lookup subId = some reg) ∨
      job = .delete subId ∧ (job.write registry ok).lookup subId = none := by
  cases job with
  | put reg =>
    cases ok with
    | false => exact .inl rfl
    | true =>
      rcases eq_or_ne subId reg.subId with rfl | hne
      · exact .inr (.inl ⟨reg, rfl, rfl, Assoc.lookup_put.trans (if_pos rfl)⟩)
      · exact .inl (Assoc.lookup_put.trans (if_neg hne))
  | delete gone =>
    cases ok with
    | false => exact .inl rfl
    | true =>
      rcases eq_or_ne subId gone with rfl | hne
      · exact .inr (.inr ⟨rfl, lookup_drop.trans (if_pos rfl)⟩)
      · exact .inl (lookup_drop.trans (if_neg hne))
  | start _ | restart _ | claim _ => exact .inl rfl

theorem subs_of_work (h : work sh registry ok = some next) {i : ι} {sub : ShardSub ι}
    (hsub : next.1.subs i = some sub) :
    sh.subs i = some sub ∨ startedBy sh ok = some i ∧ sub.reg.subId = i := by
  have hstart : ∀ {reg : Registration ι} {rest : List (Job ι)},
      (startSub { sh with jobs := rest } reg ok).subs i = some sub →
        sh.subs i = some sub ∨ ok ∧ reg.subId = i ∧ sub.reg = reg := by
    intro reg rest hsub
    cases ok with
    | false => exact .inl hsub
    | true =>
      simp only [startSub, if_true] at hsub
      split_ifs at hsub with hi
      · cases hsub
        exact .inr ⟨rfl, hi.symm, rfl⟩
      · exact .inl hsub
  revert h
  fun_cases work sh registry ok <;> rintro ⟨⟩ <;> try exact .inl hsub
  · rename_i hjobs
    refine (hstart hsub).imp_right ?_
    rintro ⟨rfl, hi, hreg⟩
    exact ⟨by simp [startedBy, hjobs, hi], hreg ▸ hi⟩
  · rename_i reg rest hjobs hexists
    refine (hstart hsub).imp_right ?_
    rintro ⟨rfl, rfl, hreg⟩
    have hnew : (sh.subs reg.subId).isNone := by simpa using hexists
    exact ⟨by simp [startedBy, hjobs, hnew], congrArg _ hreg⟩

theorem delete_mem_handleControl {place : Placement} {self : String} {live : List String}
    {slid : Bool} {c : Control ι} {subId : ι} (hidle : sh.jobs = [])
    (h : .delete subId ∈ (handleControl place self live slid sh c).jobs) :
    c = .unsubscribe subId := by
  revert h
  fun_cases handleControl place self live slid sh c <;> simp [hidle]
  exact Eq.symm

end

end Fabriq.Cluster.ShardHandlers
