import Fabriq.Cache.Keys
import Fabriq.Lib.Generations
import Fabriq.Lib.Machine

/-!
Reads through the cache, and the invalidation that follows a write, on one node.  A read is a
job of single requests to Redis, to the node's entries, to the flight group or to the database,
so that reads and writes interleave at each of them.  A value is told by the number of writes
that the database had committed when it was loaded.
-/

namespace Fabriq.Cache.ReadThrough

open Lib Lib.Generations

/-- What a generation counts for: an entity, or a keyspace that names none. -/
inductive Source where
  | entity (name : String)
  | space (name : String)
  deriving DecidableEq, Repr

structure Slot where
  ks : Keyspace
  part : String
  key : String
  deriving DecidableEq, Repr

def Slot.source (slot : Slot) : Source × String :=
  (if slot.ks.entity ≠ "" then .entity slot.ks.entity else .space slot.ks.name, slot.part)

def slotFor (c : Ctx) (ks : Keyspace) (key : String) : Slot :=
  ⟨ks, ks.partition.resolve c, key⟩

def entityRowKeyspace (entity : String) (perScope : Bool) : Keyspace where
  name := entity ++ ":row"
  version := 1
  partition := if perScope then .tenantScope else .tenant
  entity := ""

abbrev CacheTier := Tier (Source × String) Slot

/-- `GetOrLoad`, or the `Get` of the cached rows. -/
inductive Method where
  | getOrLoad
  | row
  deriving DecidableEq, Repr

/-- Where a read stands.  The generation `f` is the one that a flight is keyed by; a load
outside of a flight has none. -/
inductive Phase where
  | l1Key
  | l1Get
  | resolve
  | get (gen : Nat)
  | resolveFlight
  | flight (gen : Nat)
  | wait (leader gen : Nat)
  | recheck (f : Nat)
  | recheckGet (f gen : Nat)
  | load (f : Option Nat)
  | setResolve (f : Option Nat) (v : Nat)
  | setRaw (f : Option Nat) (gen v : Nat)
  | land (f v : Nat)
  | l1SetKey (v : Nat)
  | l1Put (v : Nat)
  | done (v : Option Nat)
  deriving DecidableEq, Repr

/-- A read; `due` is the last write it must see, `lgen` the local generation of the key it has
composed, `landed` what its flight gave to those that waited. -/
structure Read where
  slot : Slot
  method : Method
  layered : Bool
  due : Nat
  lgen : Nat
  phase : Phase
  landed : Option (Option Nat)
  deriving DecidableEq, Repr

/-- A changed row; `cache` is the entity's cache spec, as far as it says whether the rows are
per scope. -/
structure Change where
  entity : String
  cache : Option Bool
  id : String
  deriving DecidableEq, Repr

inductive Request where
  | incr (src : Source × String)
  | bumpLocal (src : Source × String)
  | delete (slot : Slot)
  | deleteLocal (slot : Slot)
  deriving DecidableEq, Repr

/-- A write: not committed yet, or committed as the `stamp`-th one with requests to send. -/
structure Write where
  ctx : Ctx
  changes : List Change
  sent : Option (Nat × List Request)

structure World where
  db : Nat
  redis : CacheTier
  l1 : CacheTier
  flights : List (Cell Slot × Nat)
  reads : List Read
  writes : List Write

inductive Action where
  | getOrLoad (c : Ctx) (ks : Keyspace) (key : String) (layered : Bool)
  | getRow (c : Ctx) (entity : String) (perScope : Bool) (id : String) (layered : Bool)
  | advance (i : Nat)
  | fail (i : Nat)
  | begin (c : Ctx) (changes : List Change)
  | commit (j : Nat)
  | invalidate (j : Nat)

section

variable (c : Ctx)

/-- `L1Cache.InvalidateEntity`: the generations in Redis, then those of the node. -/
def invalidateEntity (entity : String) : List Request :=
  (entityPartitions c).map (fun part => .incr (.entity entity, part)) ++
    (entityPartitions c).map fun part => .bumpLocal (.entity entity, part)

/-- `L1Cache.Invalidate` of the row. -/
def invalidateRow (entity : String) (perScope : Bool) (id : String) : List Request :=
  [.delete (slotFor c (entityRowKeyspace entity perScope) id),
    .deleteLocal (slotFor c (entityRowKeyspace entity perScope) id)]

def afterCommit (seen : List String) : List Change → List Request
  | [] => []
  | ch :: rest =>
    (if ch.entity ∈ seen then [] else invalidateEntity c ch.entity) ++
      (match ch.cache with
      | none => []
      | some perScope => invalidateRow c ch.entity perScope ch.id) ++
      afterCommit (ch.entity :: seen) rest

end

/-- The read asks for the written row, or for a result keyed to its entity. -/
def Change.Concerns (ch : Change) (slot : Slot) : Prop :=
  (slot.ks.entity ≠ "" ∧ slot.ks.entity = ch.entity) ∨
    ∃ perScope ∈ ch.cache, slot.ks = entityRowKeyspace ch.entity perScope ∧ slot.key = ch.id

instance (ch : Change) (slot : Slot) : Decidable (ch.Concerns slot) :=
  inferInstanceAs (Decidable (_ ∨ _))

/-- The invalidation for the write has returned, and the write was made under the context of
the read and concerns it. -/
def Write.Seen (wr : Write) (c : Ctx) (slot : Slot) : Prop :=
  (∃ sent ∈ wr.sent, sent.2 = []) ∧ wr.ctx.tenant.id = c.tenant.id ∧
    wr.ctx.scopeOrEmpty = c.scopeOrEmpty ∧ ∃ ch ∈ wr.changes, ch.Concerns slot

instance (wr : Write) (c : Ctx) (slot : Slot) : Decidable (wr.Seen c slot) :=
  inferInstanceAs (Decidable (_ ∧ _))

def Write.stamp (wr : Write) : Nat :=
  (wr.sent.map Prod.fst).getD 0

def dueFor (w : World) (c : Ctx) (slot : Slot) : Nat :=
  ((w.writes.filter fun wr => wr.Seen c slot).map Write.stamp).foldr max 0

def startRead (w : World) (c : Ctx) (ks : Keyspace) (key : String) (method : Method)
    (layered : Bool) : World :=
  { w with reads := w.reads ++
      [{ slot := slotFor c ks key
         method := method
         layered := layered
         due := dueFor w c (slotFor c ks key)
         lgen := 0
         phase := if layered then .l1Key else .resolve
         landed := none }] }

def World.setRead (w : World) (i : Nat) (r : Read) : World :=
  { w with reads := w.reads.set i r }

def Read.answer (r : Read) (v : Nat) : Phase :=
  if r.layered then .l1Put v else .done (some v)

def advance (w : World) (i : Nat) (r : Read) : Option World :=
  match r.phase with
  | .l1Key => some (w.setRead i { r with lgen := w.l1.gen r.slot.source, phase := .l1Get })
  | .l1Get =>
    match w.l1.get r.slot r.lgen with
    | some v => some (w.setRead i { r with phase := .done (some v) })
    | none => some (w.setRead i { r with phase := .resolve })
  | .resolve => some (w.setRead i { r with phase := .get (w.redis.gen r.slot.source) })
  | .get gen =>
    match w.redis.get r.slot gen with
    | some v => some (w.setRead i { r with phase := r.answer v })
    | none =>
      match r.method with
      | .getOrLoad => some (w.setRead i { r with phase := .resolveFlight })
      | .row => some (w.setRead i { r with phase := .load none })
  | .resolveFlight =>
    some (w.setRead i { r with phase := .flight (w.redis.gen r.slot.source) })
  | .flight gen =>
    match w.flights.lookup ⟨r.slot, gen⟩ with
    | some leader => some (w.setRead i { r with phase := .wait leader gen })
    | none =>
      some { w.setRead i { r with phase := .recheck gen } with
        flights := Assoc.put w.flights ⟨r.slot, gen⟩ i }
  | .wait leader _ =>
    match w.reads[leader]?.bind Read.landed with
    | some (some v) => some (w.setRead i { r with phase := r.answer v })
    | some none => some (w.setRead i { r with phase := .done none })
    | none => none
  | .recheck f => some (w.setRead i { r with phase := .recheckGet f (w.redis.gen r.slot.source) })
  | .recheckGet f gen =>
    match w.redis.get r.slot gen with
    | some v => some (w.setRead i { r with phase := .land f v })
    | none => some (w.setRead i { r with phase := .load (some f) })
  | .load f => some (w.setRead i { r with phase := .setResolve f w.db })
  | .setResolve f v =>
    some (w.setRead i { r with phase := .setRaw f (w.redis.gen r.slot.source) v })
  | .setRaw f gen v =>
    some { w.setRead i { r with phase :=
        match f with
        | some f => .land f v
        | none => if r.layered then .l1SetKey v else .done (some v) } with
      redis := w.redis.store r.slot gen v }
  | .land f v =>
    some { w.setRead i { r with phase := r.answer v, landed := some (some v) } with
      flights := Assoc.drop w.flights ⟨r.slot, f⟩ }
  | .l1SetKey v =>
    some (w.setRead i { r with lgen := w.l1.gen r.slot.source, phase := .l1Put v })
  | .l1Put v =>
    some { w.setRead i { r with phase := .done (some v) } with
      l1 := w.l1.store r.slot r.lgen v }
  | .done _ => none

def Phase.leads : Phase → Option Nat
  | .recheck f => some f
  | .recheckGet f _ => some f
  | .load f => f
  | .setResolve f _ => f
  | .setRaw f _ _ => f
  | .land f _ => some f
  | _ => none

/-- The next request of a read, or the load, fails.  Where the cache fails, `Get` of the rows goes
on to the database, and it does not mind a failed `Set`. -/
def fail (w : World) (i : Nat) (r : Read) : Option World :=
  match r.phase.leads with
  | some f =>
    match r.phase with
    | .land _ _ => none
    | _ =>
      some { w.setRead i { r with phase := .done none, landed := some none } with
        flights := Assoc.drop w.flights ⟨r.slot, f⟩ }
  | none =>
    match r.phase with
    | .resolve | .get _ =>
      match r.method with
      | .getOrLoad => some (w.setRead i { r with phase := .done none })
      | .row => some (w.setRead i { r with phase := .load none })
    | .resolveFlight | .load _ => some (w.setRead i { r with phase := .done none })
    | .setResolve _ v | .setRaw _ _ v => some (w.setRead i { r with phase := .done (some v) })
    | _ => none

def applyRequest (w : World) (stamp : Nat) : Request → World
  | .incr src => { w with redis := w.redis.bump src stamp }
  | .bumpLocal src => { w with l1 := w.l1.bump src stamp }
  | .delete slot => { w with redis := w.redis.evict Slot.source slot stamp }
  | .deleteLocal slot => { w with l1 := w.l1.evict Slot.source slot stamp }

def World.setWrite (w : World) (j : Nat) (wr : Write) : World :=
  { w with writes := w.writes.set j wr }

def step (w : World) : Action → Option World
  | .getOrLoad c ks key layered => some (startRead w c ks key .getOrLoad layered)
  | .getRow c entity perScope id layered =>
    some (startRead w c (entityRowKeyspace entity perScope) id .row layered)
  | .advance i => (w.reads[i]?).bind fun r => advance w i r
  | .fail i => (w.reads[i]?).bind fun r => fail w i r
  | .begin c changes => some { w with writes := w.writes ++ [⟨c, changes, none⟩] }
  | .commit j =>
    (w.writes[j]?).bind fun wr =>
      match wr.sent with
      | some _ => none
      | none =>
        some { w.setWrite j { wr with sent := some (w.db + 1, afterCommit wr.ctx [] wr.changes) }
          with db := w.db + 1 }
  | .invalidate j =>
    (w.writes[j]?).bind fun wr =>
      match wr.sent with
      | some (stamp, request :: rest) =>
        some ((applyRequest w stamp request).setWrite j { wr with sent := some (stamp, rest) })
      | _ => none

def World.empty : World :=
  ⟨0, ⟨[], [], []⟩, ⟨[], [], []⟩, [], [], []⟩

def Phase.held : Phase → Option Nat
  | .setResolve _ v => some v
  | .setRaw _ _ v => some v
  | .land _ v => some v
  | .l1SetKey v => some v
  | .l1Put v => some v
  | .done v => v
  | _ => none

/-- No read returns a value that was loaded before a write it must see. -/
def FreshReads (w : World) : Prop :=
  ∀ r ∈ w.reads, ∀ v, r.phase = .done (some v) → r.due ≤ v

/-- What a read stores, or joins a flight for, was loaded after every write that the entry has
already been invalidated for. -/
def StoreOk (w : World) (r : Read) : Phase → Prop
  | .setRaw _ gen v => Respects Slot.source w.redis r.slot gen v
  | .l1Put v => Respects Slot.source w.l1 r.slot r.lgen v
  | .flight gen => ∀ leader ∈ w.flights.lookup ⟨r.slot, gen⟩, ∀ l ∈ w.reads[leader]?,
      ∀ v ∈ l.phase.held, Respects Slot.source w.redis r.slot gen v
  | _ => True

instance (w : World) (r : Read) : (p : Phase) → Decidable (StoreOk w r p)
  | .setRaw _ gen v => inferInstanceAs (Decidable (Respects Slot.source w.redis r.slot gen v))
  | .l1Put v => inferInstanceAs (Decidable (Respects Slot.source w.l1 r.slot r.lgen v))
  | .flight gen => inferInstanceAs (Decidable (∀ leader ∈ w.flights.lookup ⟨r.slot, gen⟩,
      ∀ l ∈ w.reads[leader]?, ∀ v ∈ l.phase.held, Respects Slot.source w.redis r.slot gen v))
  | .l1Key | .l1Get | .resolve | .get _ | .resolveFlight | .wait _ _ | .recheck _
  | .recheckGet _ _ | .load _ | .setResolve _ _ | .land _ _ | .l1SetKey _ | .done _ => isTrue trivial

def NoSlowLoad (w : World) : Action → Prop
  | .advance i => ∀ r ∈ w.reads[i]?, StoreOk w r r.phase
  | _ => True

instance (w : World) : (a : Action) → Decidable (NoSlowLoad w a)
  | .advance i => inferInstanceAs (Decidable (∀ r ∈ w.reads[i]?, StoreOk w r r.phase))
  | .getOrLoad _ _ _ _ | .getRow _ _ _ _ _ | .fail _ | .begin _ _ | .commit _ | .invalidate _ =>
    isTrue trivial

end Fabriq.Cache.ReadThrough
