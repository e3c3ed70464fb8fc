import Fabriq.Cluster.ShardHandlers

namespace Fabriq.Cluster.Network

open Cluster.ShardHandlers Lib.Assoc Live.Types List

/-- A gateway's id and the value of its counter, the two parts of the id that
`Subscribe` prints. -/
structure SubId where
  gateway : String
  seq : Nat
deriving DecidableEq

/-- The gateways, the shards and what they share.  `issued` are the subscriptions returned to
clients, each with the partition its cancel function closes over. -/
structure World where
  live : List String
  shards : List (String × Shard SubId)
  registry : Registry SubId
  wire : List (String × Control SubId)
  seq : String → Nat
  issued : List (SubId × Nat)
  cancelled : List SubId
  /-- Unsubscribed by the shard that owned the partition. -/
  retired : List SubId
  /-- Retired when a pump was started for them. -/
  revived : List SubId

def start : World :=
  ⟨[], [], [], [], fun _ => 0, [], [], [], []⟩

def World.shard (w : World) (name : String) : Shard SubId :=
  (w.shards.lookup name).getD newShard

def World.setShard (w : World) (name : String) (sh : Shard SubId) : World :=
  { w with shards := put w.shards name sh }

def World.send (w : World) (shard : String) (c : Control SubId) : World :=
  { w with wire := w.wire ++ [(shard, c)] }

inductive Action
  | membership (live : List String)
  | subscribe (gateway tenantId : String) (query : LiveQuery) (sent : Bool)
  | cancel (subId : SubId) (sent : Bool)
  | reanchor (tenantId : String) (query : LiveQuery) (subId : SubId) (cursor : Option Cursor)
      (limit : Nat)
  /-- Any message may arrive next, and one that is kept arrives again. -/
  | deliver (i : Nat) (keep slid : Bool)
  | reconcile (name : String)
  | work (name : String) (ok : Bool)
  /-- A shard shuts down between two handlers and comes back under its name. -/
  | restart (name : String)

/-- `Gateway.Subscribe`; `sent` says that `SendControl` succeeds. -/
def subscribe (place : Placement) (w : World) (gateway tenantId : String) (query : LiveQuery)
    (sent : Bool) : World :=
  let p := place.partitionOf tenantId query.entity
  let owner := place.owner p w.live
  let subId : SubId := ⟨gateway, w.seq gateway + 1⟩
  -- Without a live shard it returns an error before it counts.
  if owner = "" then w
  else
    let counted := { w with seq := fun g => if g = gateway then w.seq g + 1 else w.seq g }
    if sent then
      { counted.send owner (.subscribe subId gateway tenantId query) with
        issued := (subId, p) :: w.issued }
    else counted

/-- The function that `Subscribe` returns for the release of the subscription. -/
def cancel (place : Placement) (w : World) (subId : SubId) (p : Nat) (sent : Bool) : World :=
  let owner := place.owner p w.live
  let called := { w with cancelled := subId :: w.cancelled }
  if sent && owner ≠ "" then called.send owner (.unsubscribe subId) else called

def reanchor (place : Placement) (w : World) (tenantId : String) (query : LiveQuery)
    (subId : SubId) (cursor : Option Cursor) (limit : Nat) : World :=
  let owner := place.owner (place.partitionOf tenantId query.entity) w.live
  if owner = "" then w else w.send owner (.reanchor subId cursor limit)

/-- The message is the unsubscribe of an issued subscription, at the shard that owns its
partition. -/
def retires (place : Placement) (w : World) (name : String) : Control SubId → Bool
  | .unsubscribe subId => (w.issued.lookup subId).any fun p => place.owns name p w.live
  | _ => false

def receive (place : Placement) (w : World) (i : Nat) (keep slid : Bool) (name : String)
    (c : Control SubId) : World :=
  { w.setShard name (handleControl place name w.live slid (w.shard name) c) with
    wire := if keep then w.wire else w.wire.eraseIdx i
    retired := if retires place w name c then c.subId :: w.retired else w.retired }

def worked (w : World) (name : String) (ok : Bool) (next : Shard SubId × Registry SubId) : World :=
  { w.setShard name next.1 with
    registry := next.2
    revived := ((startedBy (w.shard name) ok).filter fun subId => subId ∈ w.retired).toList
      ++ w.revived }

def step (place : Placement) (w : World) : Action → Option World
  | .membership live => some { w with live := live }
  | .subscribe gateway tenantId query sent =>
    some (subscribe place w gateway tenantId query sent)
  | .cancel subId sent =>
    (w.issued.lookup subId).map fun p => cancel place w subId p sent
  | .reanchor tenantId query subId cursor limit =>
    some (reanchor place w tenantId query subId cursor limit)
  | .deliver i keep slid =>
    (w.wire[i]?).bind fun m =>
      if (w.shard m.1).jobs.isEmpty then some (receive place w i keep slid m.1 m.2) else none
  | .reconcile name =>
    if (w.shard name).jobs.isEmpty then
      some (w.setShard name (reconcileOwnership place name w.live (w.shard name)))
    else none
  | .work name ok =>
    (work (w.shard name) w.registry ok).map fun next => worked w name ok next
  | .restart name =>
    if (w.shard name).jobs.isEmpty then some (w.setShard name newShard) else none

variable {place : Placement} {w v : World} {name i : String}

theorem shard_congr (h : v.shards = w.shards) : v.shard name = w.shard name := by
  rw [World.shard, h, World.shard]

theorem shard_setShard {sh : Shard SubId} :
    (w.setShard name sh).shard i = if i = name then sh else w.shard i := by
  simp only [World.setShard, World.shard, lookup_put]
  split_ifs <;> rfl

theorem shard_worked {ok : Bool} {next : Shard SubId × Registry SubId} :
    (worked w name ok next).shard i = if i = name then next.1 else w.shard i :=
  shard_setShard

theorem mem_wire_of_receive {k : Nat} {keep slid : Bool} {c : Control SubId}
    {m : String × Control SubId} (h : m ∈ (receive place w k keep slid name c).wire) :
    m ∈ w.wire := by
  simp only [receive] at h
  split_ifs at h
  · exact h
  · exact mem_of_mem_eraseIdx h

theorem shard_all {P : String → Shard SubId → Prop} (hnew : ∀ name, P name newShard)
    (hall : ∀ e ∈ w.shards, P e.1 e.2) (name : String) : P name (w.shard name) := by
  cases hlookup : w.shards.lookup name with
  | none =>
    rw [World.shard, hlookup]
    exact hnew name
  | some sh =>
    rw [World.shard, hlookup]
    exact hall _ (mem_of_lookup hlookup)

/-- What a gateway's call and a change of membership leave unchanged, and what they send:
subscribes of new ids and unsubscribes of cancelled ones. -/
structure Called (w v : World) (sent : List (String × Control SubId)) : Prop where
  shards : v.shards = w.shards := by rfl
  registry : v.registry = w.registry := by rfl
  retired : v.retired = w.retired := by rfl
  revived : v.revived = w.revived := by rfl
  wire : v.wire = w.wire ++ sent := by simp [World.send]
  seq : ∀ gateway, w.seq gateway ≤ v.seq gateway := by simp [World.send]
  cancelled : ∀ subId ∈ w.cancelled, subId ∈ v.cancelled := by simp +contextual [World.send]
  issued : ∀ subId p, (subId, p) ∈ v.issued → (subId, p) ∈ w.issued ∨
    subId.seq ≤ v.seq subId.gateway ∧ ∃ name gatewayId tenantId query,
      (name, .subscribe subId gatewayId tenantId query) ∈ sent := by
        simp +contextual [World.send]
  subscribes : ∀ name subId gatewayId tenantId query,
    (name, .subscribe subId gatewayId tenantId query) ∈ sent →
      w.seq subId.gateway < subId.seq := by simp
  unsubscribes : ∀ name subId, (name, .unsubscribe subId) ∈ sent → subId ∈ v.cancelled := by
    simp [World.send]

inductive Effect (place : Placement) (w : World) : Action → World → Prop
  | call {a : Action} {v : World} (sent : List (String × Control SubId)) (h : Called w v sent) :
      Effect place w a v
  | enter {a : Action} {name : String} {sh : Shard SubId} (hidle : (w.shard name).jobs = [])
      (hsh : sh = newShard ∨ sh = reconcileOwnership place name w.live (w.shard name)) :
      Effect place w a (w.setShard name sh)
  | receive {i : Nat} {keep slid : Bool} {name : String} {c : Control SubId}
      (hm : w.wire[i]? = some (name, c)) (hidle : (w.shard name).jobs = []) :
      Effect place w (.deliver i keep slid) (receive place w i keep slid name c)
  | work {name : String} {ok : Bool} {next : Shard SubId × Registry SubId}
      (hwork : work (w.shard name) w.registry ok = some next) :
      Effect place w (.work name ok) (worked w name ok next)

theorem effect_subscribe {a : Action} (gateway tenantId : String) (query : LiveQuery)
    (sent : Bool) : Effect place w a (subscribe place w gateway tenantId query sent) := by
  have hseq : ∀ g, w.seq g ≤ if g = gateway then w.seq g + 1 else w.seq g := by
    intro g
    split_ifs <;> omega
  simp only [subscribe]
  split_ifs
  · exact .call [] {}
  · refine .call [_] { wire := rfl, seq := hseq, issued := ?_, subscribes := ?_ }
    · intro subId p hmem
      rcases mem_cons.mp hmem with heq | hold
      · obtain ⟨rfl, -⟩ := Prod.mk.inj heq
        exact .inr ⟨by simp [World.send], _, _, _, _, mem_singleton_self _⟩
      · exact .inl hold
    · rintro _ _ _ _ _ ⟨⟩
      · exact Nat.lt_succ_self _
      · contradiction
  · exact .call [] { seq := hseq }

theorem step_effect {a : Action} (h : step place w a = some v) : Effect place w a v := by
  revert h
  fun_cases step place w a <;> intro h <;> try cases h
  · exact .call [] {}
  · exact effect_subscribe ..
  · obtain ⟨p, -, rfl⟩ := Option.map_eq_some_iff.mp h
    simp only [cancel]
    split_ifs
    · exact .call [_] { wire := rfl }
    · exact .call [] {}
  · simp only [reanchor]
    split_ifs
    · exact .call [] {}
    · exact .call [_] { wire := rfl }
  · obtain ⟨⟨name, c⟩, hm, h⟩ := Option.bind_eq_some_iff.mp h
    split_ifs at h with hidle
    cases h
    exact .receive hm (List.isEmpty_iff.mp hidle)
  · rename_i hidle
    exact .enter (List.isEmpty_iff.mp hidle) (.inr rfl)
  · obtain ⟨next, hwork, rfl⟩ := Option.map_eq_some_iff.mp h
    exact .work hwork
  · rename_i hidle
    exact .enter (List.isEmpty_iff.mp hidle) (.inl rfl)

end Fabriq.Cluster.Network
