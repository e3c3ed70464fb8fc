import Fabriq.Provision.Lifecycle

/-!
The tenant directory of catalog mode over the failover catalog: which answers it keeps, and what a
lookup sees once the primary is reachable again.
-/

namespace Fabriq.Shard.CatalogDirectory

open Lib Lib.Assoc Lib.Machine
open Provision.Lifecycle (Entry State)

inductive Code
  | notFound
  | unavailable
  | other (code : String)
deriving DecidableEq

/-- A structured error, with the entity and the `Meta.Detail` it carries. -/
structure Err where
  code : Code
  message : String
  entity : String
  detail : List (String × String)
deriving DecidableEq

def markDegradedDetail (detail : List (String × String)) : List (String × String) :=
  put detail "catalog" "degraded"

def isDegraded (err : Err) : Bool :=
  err.detail.lookup "catalog" == some "degraded"

def isCatalogAnswer (err : Err) : Bool :=
  err.code == .notFound || err.code == .unavailable

structure Reading where
  entry : Entry
  fromReplica : Bool
deriving DecidableEq

/-- Who gave an answer; `transport` when nothing was reachable. -/
inductive Source
  | primary
  | replica
  | transport
deriving DecidableEq

def primaryDefinitive : Except Err Entry → Bool
  | .ok _ => true
  | .error err => err.code == .notFound

def degraded (tenantId : String) : Err :=
  ⟨.notFound, "tenant not found on a catalog replica (primary unreachable; may be stale).",
    tenantId, markDegradedDetail []⟩

/-- The walk over the replicas; `none` when none is reachable. -/
def walkReplicas (tenantId : String) : List (Except Err Entry) → Option (Except Err Reading)
  | [] => none
  | .ok e :: _ => some (.ok ⟨e, true⟩)
  | .error err :: rest =>
    if err.code = .notFound then some (.error (degraded tenantId))
    else walkReplicas tenantId rest

/-- `Failover.Get`, with who gave the answer. -/
def failoverGet (tenantId : String) (primary : Except Err Entry)
    (replicas : List (Except Err Entry)) : Except Err Reading × Source :=
  if primaryDefinitive primary then (primary.map fun e => ⟨e, false⟩, .primary)
  else
    match walkReplicas tenantId replicas with
    | some answer => (answer, .replica)
    | none => (primary.map fun e => ⟨e, false⟩, .transport)

def stateName : State → String
  | .pending => "pending"
  | .creating => "creating"
  | .migrating => "migrating"
  | .active => "active"
  | .suspended => "suspended"
  | .failed => "failed"

def shardId (e : Entry) : String :=
  e.clusterId ++ "/" ++ e.database

/-- A verdict on an entry: degraded when the entry is a replica's. -/
def refusal (message tenantId : String) (detail : List (String × String)) (fromReplica : Bool) :
    Err :=
  ⟨.unavailable, message, tenantId, if fromReplica then markDegradedDetail detail else detail⟩

def resolve (minVersion tenantId : String) (got : Except Err Reading) : Except Err String :=
  match got with
  | .error err => .error err
  | .ok r =>
    if r.entry.state ≠ .active then
      .error (refusal "tenant is not routable." tenantId [("state", stateName r.entry.state)]
        r.fromReplica)
    -- versions are zero-padded, so that their order is the one of the strings
    else if minVersion ≠ "" ∧ r.entry.version < minVersion then
      .error (refusal "tenant database is below the binary's migration floor." tenantId
        [("version", r.entry.version), ("floor", minVersion)] r.fromReplica)
    else .ok (shardId r.entry)

def cacheable : Except Err String → Bool
  | .ok _ => true
  | .error err => isCatalogAnswer err && !isDegraded err

structure Config where
  ttl : Nat
  minVersion : String
  replicas : Nat

/-- A `catalogCacheEntry`, with who gave the answer. -/
structure Cached where
  result : Except Err String
  exp : Nat
  source : Source
deriving DecidableEq

/-- A `Shard` call: between the locks it resolves, and then it has an answer to keep. -/
inductive Lookup
  | resolving (tenantId : String)
  | resolved (tenantId : String) (result : Except Err String) (source : Source)
  | returned (result : Except Err String)
deriving DecidableEq

/-- The rows of the primary and the error of its outage, if it is unreachable; the directory's
cache; all calls so far. -/
structure World where
  rows : List (String × Entry)
  outage : Option Err
  cache : List (String × Cached)
  lookups : List Lookup
deriving DecidableEq

def World.primaryGet (w : World) (tenantId : String) : Except Err Entry :=
  match w.outage with
  | some err => .error err
  | none =>
    match w.rows.lookup tenantId with
    | some e => .ok e
    | none => .error ⟨.notFound, "tenant is not in the catalog.", tenantId, []⟩

def World.cached (w : World) (tenantId : String) (now : Nat) : Option Cached :=
  (w.cache.lookup tenantId).filter fun c => now < c.exp

inductive Action
  | change (tenantId : String) (row : Option Entry)
  | outage (err : Option Err)
  | call (tenantId : String) (now : Nat)
  | resolve (i : Nat) (replicas : List (Except Err Entry))
  | store (i : Nat) (now : Nat)

/-- The primary's rows may change and it may fail at any time, with any error but a `CodeNotFound`;
the replicas answer anything. -/
def step (cfg : Config) (w : World) : Action → Option World
  | .change tenantId (some e) => some { w with rows := put w.rows tenantId e }
  | .change tenantId none => some { w with rows := Assoc.drop w.rows tenantId }
  | .outage err =>
    if err.all fun e => e.code != .notFound then some { w with outage := err } else none
  | .call tenantId now =>
    match w.cached tenantId now with
    | some c => some { w with lookups := w.lookups ++ [.returned c.result] }
    | none => some { w with lookups := w.lookups ++ [.resolving tenantId] }
  | .resolve i replicas =>
    match w.lookups[i]? with
    | some (.resolving tenantId) =>
      if replicas.length = cfg.replicas then
        let got := failoverGet tenantId (w.primaryGet tenantId) replicas
        some { w with lookups :=
          w.lookups.set i (.resolved tenantId (resolve cfg.minVersion tenantId got.1) got.2) }
      else none
    | _ => none
  | .store i now =>
    match w.lookups[i]? with
    | some (.resolved tenantId result source) =>
      some { w with
        cache := if cacheable result then
          put w.cache tenantId ⟨result, now + cfg.ttl, source⟩ else w.cache
        lookups := w.lookups.set i (.returned result) }
    | _ => none

def newDirectory (rows : List (String × Entry)) : World :=
  ⟨rows, none, [], []⟩

variable {cfg : Config} {w : World} {tenantId : String} {now later : Nat}
  {replicas : List (Except Err Entry)}

/-- What a `Shard` call returns that nothing interleaves with. -/
def shard (cfg : Config) (w : World) (tenantId : String) (now : Nat)
    (replicas : List (Except Err Entry)) : Except Err String :=
  match w.cached tenantId now with
  | some c => c.result
  | none =>
    resolve cfg.minVersion tenantId (failoverGet tenantId (w.primaryGet tenantId) replicas).1

variable {w' : World}

def Genuine (result : Except Err String) (source : Source) : Prop :=
  source = .primary ∨ (source = .replica ∧ ∃ id, result = .ok id)

def primaryAnswer (cfg : Config) (w : World) (tenantId : String) : Except Err String :=
  resolve cfg.minVersion tenantId
    (match w.rows.lookup tenantId with
    | some e => .ok ⟨e, false⟩
    | none => .error ⟨.notFound, "tenant is not in the catalog.", tenantId, []⟩)

/-- Only genuine answers are cached, and with the primary reachable a call sees the primary's row
unless such an answer is within its time-to-live. -/
structure OnlyAnswers (cfg : Config) (w : World) : Prop where
  cached : ∀ tenantId c, w.cache.lookup tenantId = some c → Genuine c.result c.source
  next : w.outage = none → ∀ tenantId now replicas,
    shard cfg w tenantId now replicas = primaryAnswer cfg w tenantId ∨
      ∃ c, w.cache.lookup tenantId = some c ∧ now < c.exp ∧ Genuine c.result c.source ∧
        shard cfg w tenantId now replicas = c.result

theorem isDegraded_refusal (message tenantId : String) (detail : List (String × String)) :
    isDegraded (refusal message tenantId detail true) := by
  simp [isDegraded, refusal, markDegradedDetail, lookup_put]

variable {minVersion : String}

theorem cacheable_resolve_replica {e : Entry}
    (h : cacheable (resolve minVersion tenantId (.ok ⟨e, true⟩))) :
    ∃ id, resolve minVersion tenantId (.ok ⟨e, true⟩) = .ok id := by
  simp only [resolve] at h ⊢
  split
  · rename_i hstate
    rw [if_pos hstate, cacheable, isDegraded_refusal] at h
    simp at h
  · rename_i hstate
    rw [if_neg hstate] at h
    split
    · rename_i hversion
      rw [if_pos hversion, cacheable, isDegraded_refusal] at h
      simp at h
    · exact ⟨_, rfl⟩

theorem cacheable_walkReplicas {answer : Except Err Reading}
    (hwalk : walkReplicas tenantId replicas = some answer)
    (h : cacheable (resolve minVersion tenantId answer)) :
    ∃ id, resolve minVersion tenantId answer = .ok id := by
  induction replicas with
  | nil => cases hwalk
  | cons r rest ih =>
    cases r with
    | ok e =>
      cases hwalk
      exact cacheable_resolve_replica h
    | error err =>
      rw [walkReplicas] at hwalk
      split at hwalk
      · cases hwalk
        simp [resolve, cacheable, degraded, isDegraded, markDegradedDetail, lookup_put] at h
      · exact ih hwalk

theorem genuine_failoverGet {primary : Except Err Entry}
    (hfail : ∀ err, primary = .error err → primaryDefinitive primary = false →
      isCatalogAnswer err = false)
    (h : cacheable (resolve minVersion tenantId (failoverGet tenantId primary replicas).1) = true) :
    Genuine (resolve minVersion tenantId (failoverGet tenantId primary replicas).1)
      (failoverGet tenantId primary replicas).2 := by
  revert h
  fun_cases failoverGet tenantId primary replicas <;> intro h
  · exact .inl rfl
  · rename_i hwalk
    exact .inr ⟨rfl, cacheable_walkReplicas hwalk h⟩
  · rename_i hdef _
    cases primary with
    | ok e => exact absurd rfl hdef
    | error err =>
      have hcode := hfail err rfl (by simpa using hdef)
      simp [Except.map, resolve, cacheable, hcode] at h

variable {a : Action}

/-- No outage shows an error of the code that the directory takes for an answer. -/
def OutageCode : Action → Prop
  | .outage err => ∀ e ∈ err, e.code ≠ .unavailable
  | _ => True

instance : DecidablePred OutageCode
  | .outage none => isTrue (by simp [OutageCode])
  | .outage (some e) => decidable_of_iff (e.code ≠ .unavailable) (by simp [OutageCode])
  | .change .. | .call .. | .resolve .. | .store .. => isTrue trivial

structure Inv (w : World) : Prop where
  outage : ∀ err, w.outage = some err → isCatalogAnswer err = false
  cache : ∀ tenantId c, w.cache.lookup tenantId = some c → Genuine c.result c.source
  lookups : ∀ lookup ∈ w.lookups, ∀ tenantId result source,
    lookup = .resolved tenantId result source → cacheable result = true → Genuine result source

theorem inv_newDirectory (rows : List (String × Entry)) : Inv (newDirectory rows) where
  outage := by simp [newDirectory]
  cache := by simp [newDirectory]
  lookups := by simp [newDirectory]

theorem Inv.primaryGet (hinv : Inv w) (tenantId : String) :
    ∀ err, w.primaryGet tenantId = .error err →
      primaryDefinitive (w.primaryGet tenantId) = false → isCatalogAnswer err = false := by
  intro err herr hdef
  rw [World.primaryGet] at herr hdef
  cases hout : w.outage with
  | some e =>
    rw [hout] at herr
    cases herr
    exact hinv.outage _ hout
  | none =>
    rw [hout] at hdef
    cases hrow : w.rows.lookup tenantId <;> simp [hrow, primaryDefinitive] at hdef

theorem inv_step (hinv : Inv w) (hok : OutageCode a) (hstep : step cfg w a = some w') : Inv w' := by
  revert hok hstep
  fun_cases step cfg w a <;> rintro hok ⟨⟩
  · exact ⟨hinv.outage, hinv.cache, hinv.lookups⟩
  · exact ⟨hinv.outage, hinv.cache, hinv.lookups⟩
  · rename_i err hcode
    refine ⟨?_, hinv.cache, hinv.lookups⟩
    rintro e rfl
    have hfound : e.code ≠ .notFound := by simpa using hcode
    have hunavailable : e.code ≠ .unavailable := hok e rfl
    simp [isCatalogAnswer, hfound, hunavailable]
  · exact ⟨hinv.outage, hinv.cache, forall_mem_concat hinv.lookups (by simp)⟩
  · exact ⟨hinv.outage, hinv.cache, forall_mem_concat hinv.lookups (by simp)⟩
  · rename_i tenantId hlookup _ _
    refine ⟨hinv.outage, hinv.cache, forall_mem_set hinv.lookups ?_⟩
    rintro t result source ⟨⟩ hcacheable
    exact genuine_failoverGet (hinv.primaryGet tenantId) hcacheable
  · rename_i hlookup
    refine ⟨hinv.outage, fun t c hc => ?_, forall_mem_set hinv.lookups (by simp)⟩
    split at hc
    · rename_i hcacheable
      rw [lookup_put] at hc
      split at hc
      · cases hc
        exact hinv.lookups _ (List.mem_of_getElem? hlookup) _ _ _ rfl hcacheable
      · exact hinv.cache t c hc
    · exact hinv.cache t c hc

theorem Inv.onlyAnswers (hinv : Inv w) : OnlyAnswers cfg w where
  cached := hinv.cache
  next := by
    intro hout tenantId now replicas
    rw [shard]
    split
    · rename_i c hcached
      obtain ⟨hlookup, hexp⟩ := Option.filter_eq_some_iff.mp hcached
      exact .inr ⟨c, hlookup, by simpa using hexp, hinv.cache tenantId c hlookup, rfl⟩
    · left
      rw [World.primaryGet, hout, primaryAnswer]
      cases hrow : w.rows.lookup tenantId <;> rfl

/-- In every run in which no outage shows `CodeUnavailable`, the directory holds answers of the
primary and routes of replicas only, and with the primary reachable a lookup sees its row unless
one of them is within its time-to-live. -/
theorem directory_caches_answers {cfg : Config} {rows : List (String × Entry)}
    {actions : List Action} {w : World} (hok : ∀ a ∈ actions, OutageCode a)
    (hrun : run (step cfg) (newDirectory rows) actions = some w) : OnlyAnswers cfg w := by
  have hkeep : ∀ w a w', Inv w → OutageCode a → step cfg w a = some w' → Inv w' :=
    fun _ _ _ => inv_step
  exact (run_invariant hkeep (inv_newDirectory rows) (along_of_forall hok) hrun).onlyAnswers

def acme (state : State) : Entry :=
  ⟨"acme", "c1", "fabriq_acme", state, "", ""⟩

def oneReplica : Config :=
  ⟨30, "", 1⟩

/-- The primary fails, a replica's route is kept, and the tenant is suspended before the
primary is back. -/
def replicaRoute : List Action :=
  [.outage (some ⟨.other "internal", "", "", []⟩), .call "acme" 1,
    .resolve 0 [.ok (acme .active)], .store 0 1, .change "acme" (some (acme .suspended)),
    .outage none]

theorem directory_caches_answers_replicaRoute :
    ∃ w, run (step oneReplica) (newDirectory [("acme", acme .active)]) replicaRoute = some w ∧
      OnlyAnswers oneReplica w :=
  ⟨_, rfl, directory_caches_answers (by decide : ∀ a ∈ replicaRoute, OutageCode a) rfl⟩

def lostConnection : List Action :=
  [.outage (some ⟨.unavailable, "", "", []⟩), .call "acme" 1, .resolve 0 [], .store 0 1,
    .outage none]

/-- The sources of what is cached, and what a lookup returns and should. -/
structure Seen where
  sources : List (String × Source)
  returned : Except Err String
  current : Except Err String
deriving DecidableEq

def seen (cfg : Config) (w : World) : Seen :=
  ⟨w.cache.map fun e => (e.1, e.2.source), shard cfg w "acme" 5 [], primaryAnswer cfg w "acme"⟩

/-- A cached route of a replica and a cached failure of a connection both hide the primary's
row. -/
theorem outage_answers_cached :
    (run (step oneReplica) (newDirectory [("acme", acme .active)]) replicaRoute).map
        (seen oneReplica) =
      some ⟨[("acme", .replica)], .ok "c1/fabriq_acme",
        .error ⟨.unavailable, "tenant is not routable.", "acme", [("state", "suspended")]⟩⟩ ∧
    (run (step ⟨30, "", 0⟩) (newDirectory [("acme", acme .active)]) lostConnection).map
        (seen ⟨30, "", 0⟩) =
      some ⟨[("acme", .transport)], .error ⟨.unavailable, "", "", []⟩, .ok "c1/fabriq_acme"⟩ := by
  decide +kernel

end Fabriq.Shard.CatalogDirectory
