import Mathlib.Data.List.Induction
import Fabriq.Analytics.Redact
import Fabriq.Core.Tenant
import Fabriq.Exec.OutboxVersions
import Fabriq.Lib.Gated

namespace Fabriq.Analytics.Consumer

open Analytics.Redact Core.Schema Exec.OutboxVersions Lib.Assoc Lib.Gated List Option
open Core.Tenant (valid)
open Exec.CommandStore (Executor OutboxRow)

/-- An event as the applier reads it, with the bytes of its payload. -/
structure Envelope where
  tenantId : String
  aggregate : String
  aggId : String
  version : Int
  verb : Verb
  payload : Raw
  time : Int

structure Fact where
  tenantId : String
  aggregate : String
  aggId : String
  version : Int
  payload : String
  time : Int
  deleted : Bool
  deriving DecidableEq

structure HistoryEvent where
  tenantId : String
  aggregate : String
  aggId : String
  version : Int
  verb : Verb
  payload : String
  time : Int

/-- The analytics plane of a deployment.  The registry's marked entities have a spec;
`upcast` is the chain of upcasters from shape 1, `streamed` and `marshal` the bytes of a payload
as the stream delivers it and of a row's columns, `column` what the column makes of a text. -/
structure Pipeline where
  executor : Executor
  analytics : Entity → Option AnalyticsSpec
  salt : String
  codec : Codec
  upcast : String → Verb → Raw → Option Raw
  streamed : Fields → Raw
  marshal : Fields → Raw
  column : String → String
  time : OutboxRow → Int
  names : ∀ ent ∈ executor.reg, '\x00' ∉ ent.name.toList

def Pipeline.spec (p : Pipeline) (aggregate : String) : Option AnalyticsSpec :=
  (p.executor.reg.get aggregate).bind p.analytics

def emptyObject : String :=
  "\x7b\x7d"

def Pipeline.redacted (p : Pipeline) (spec : AnalyticsSpec) (env : Envelope) :
    Except Redact.Error String :=
  if env.verb = .deleted then .ok emptyObject
  else redact p.codec spec p.salt env.payload

def Envelope.fact (env : Envelope) (payload : String) : Fact where
  tenantId := env.tenantId
  aggregate := env.aggregate
  aggId := env.aggId
  version := env.version
  payload := payload
  time := env.time
  deleted := decide (env.verb = .deleted)

def Envelope.event (env : Envelope) (payload : String) : HistoryEvent where
  tenantId := env.tenantId
  aggregate := env.aggregate
  aggId := env.aggId
  version := env.version
  verb := env.verb
  payload := payload
  time := env.time

/-- `Applier.Apply`; an entity without a spec has no records. -/
def Pipeline.apply (p : Pipeline) (env : Envelope) :
    Except Redact.Error (Option (Fact × HistoryEvent)) :=
  match p.spec env.aggregate with
  | none => .ok none
  | some spec =>
    match p.redacted spec env with
    | .error e => .error e
    | .ok payload => .ok (some (env.fact payload, env.event payload))

structure FactId where
  tenantId : String
  aggregate : String
  aggId : String
  deriving DecidableEq

def factId (k : Identity) : FactId :=
  ⟨k.1, k.2.1, k.2.2⟩

theorem factId_inj {k k' : Identity} : factId k = factId k' ↔ k = k' := by
  simp [factId, Prod.ext_iff]

structure Sink where
  facts : List (FactId × Fact)
  events : List ((FactId × Int) × HistoryEvent)
  watermarks : List (FactId × Int)

def Sink.empty : Sink :=
  ⟨[], [], []⟩

def factKey (f : Fact) : FactId :=
  ⟨f.tenantId, f.aggregate, f.aggId⟩

def eventKey (ev : HistoryEvent) : FactId × Int :=
  (⟨ev.tenantId, ev.aggregate, ev.aggId⟩, ev.version)

def Pipeline.stored (p : Pipeline) (f : Fact) : Fact :=
  { f with payload := p.column f.payload }

def Pipeline.upsertFacts (p : Pipeline) (s : Sink) (f : Fact) : Sink :=
  { s with
    facts := put s.facts (factKey f)
      (offerNewer Fact.version (s.facts.lookup (factKey f)) (p.stored f)) }

def appendEvents (s : Sink) (ev : HistoryEvent) : Sink :=
  if (s.events.lookup (eventKey ev)).isSome then s
  else { s with events := put s.events (eventKey ev) ev }

def setWatermark (s : Sink) (k : FactId) (version : Int) : Sink :=
  { s with
    watermarks := put s.watermarks k
      (offerNewer id (s.watermarks.lookup k) version) }

/-- The call of the sink that fails first, if any. -/
inductive Outcome
  | upsertFails
  | appendFails
  | watermarkFails
  | done
  deriving DecidableEq, Repr

/-- The three writes of an event, and whether all of them succeeded. -/
def Pipeline.write (p : Pipeline) (s : Sink) (outcome : Outcome) (f : Fact) (ev : HistoryEvent) :
    Sink × Bool :=
  match outcome with
  | .upsertFails => (s, false)
  | .appendFails => (p.upsertFacts s f, false)
  | .watermarkFails => (appendEvents (p.upsertFacts s f) ev, false)
  | .done => (setWatermark (appendEvents (p.upsertFacts s f) ev) (factKey f) f.version, true)

/-- `Consumer.handle`; `true` acknowledges the event. -/
def Pipeline.handle (p : Pipeline) (s : Sink) (outcome : Outcome) (env : Envelope) : Sink × Bool :=
  match p.upcast env.aggregate env.verb env.payload with
  | none => (s, true)
  | some payload =>
    match p.apply { env with payload := payload } with
    | .error _ => (s, true)
    | .ok none => (s, true)
    | .ok (some (f, ev)) =>
      if valid env.tenantId then p.write s outcome f ev
      else (s, true)

def Pipeline.envelope (p : Pipeline) (e : OutboxRow) : Envelope where
  tenantId := e.tenantId
  aggregate := e.aggregate
  aggId := e.aggId
  version := e.version
  verb := e.verb
  payload := p.streamed e.payload
  time := p.time e

structure Delivery where
  event : OutboxRow
  outcome : Outcome

def Pipeline.deliver (p : Pipeline) (s : Sink) (d : Delivery) : Sink :=
  (p.handle s d.outcome (p.envelope d.event)).1

def Pipeline.consume (p : Pipeline) (deliveries : List Delivery) : Sink :=
  deliveries.foldl p.deliver .empty

/-- The redacted payload of an event; `none` for an event that the consumer skips. -/
def Pipeline.eventPayload (p : Pipeline) (e : OutboxRow) : Option String :=
  (p.spec e.aggregate).bind fun spec =>
    (p.upcast e.aggregate e.verb (p.streamed e.payload)).bind fun payload =>
      (p.redacted spec { p.envelope e with payload := payload }).toOption.map p.column

def Pipeline.eventFact (p : Pipeline) (e : OutboxRow) : Option Fact :=
  if valid e.tenantId then (p.eventPayload e).map (p.envelope e).fact else none

def Pipeline.lands (p : Pipeline) (d : Delivery) : Bool :=
  (p.eventFact d.event).isSome && d.outcome != .upsertFails

def Pipeline.landed (p : Pipeline) (deliveries : List Delivery) : List Fact :=
  (deliveries.filter p.lands).filterMap fun d => p.eventFact d.event

variable {p : Pipeline} {s : Sink} {k : FactId} {f : Fact} {ev : HistoryEvent}
  {d : Delivery} {deliveries : List Delivery} {e : OutboxRow}

@[simp] theorem facts_appendEvents : (appendEvents s ev).facts = s.facts := by
  unfold appendEvents
  split_ifs <;> rfl

@[simp] theorem watermarks_appendEvents : (appendEvents s ev).watermarks = s.watermarks := by
  unfold appendEvents
  split_ifs <;> rfl

@[simp] theorem facts_setWatermark (version : Int) : (setWatermark s k version).facts = s.facts :=
  rfl

@[simp] theorem watermarks_upsertFacts : (p.upsertFacts s f).watermarks = s.watermarks := rfl

theorem lookup_upsertFacts : (p.upsertFacts s f).facts.lookup k =
      if k = factKey f then some (offerNewer Fact.version (s.facts.lookup k) (p.stored f))
      else s.facts.lookup k := by
  simp only [Pipeline.upsertFacts, lookup_put]
  split_ifs with hk
  · rw [hk]
  · rfl

variable {outcome : Outcome}

theorem lookup_facts_write (h : outcome ≠ .upsertFails) :
    (p.write s outcome f ev).1.facts.lookup k =
      if k = factKey f then some (offerNewer Fact.version (s.facts.lookup k) (p.stored f))
      else s.facts.lookup k := by
  rw [← lookup_upsertFacts]
  cases outcome with
  | upsertFails => exact absurd rfl h
  | appendFails => rfl
  | watermarkFails | done => simp [Pipeline.write]

theorem lookup_watermarks_write : (p.write s outcome f ev).1.watermarks.lookup k =
      if k = factKey f ∧ outcome = .done then
        some (offerNewer id (s.watermarks.lookup k) f.version) else s.watermarks.lookup k := by
  cases outcome with
  | done =>
    simp only [Pipeline.write, setWatermark, lookup_put, watermarks_appendEvents,
      watermarks_upsertFacts, and_true]
    split_ifs with hk
    · rw [hk]
    · rfl
  | _ => simp [Pipeline.write]

theorem eventFact_eq_some : p.eventFact e = some f ↔
      valid e.tenantId ∧ ∃ payload, p.eventPayload e = some payload ∧
        f = (p.envelope e).fact payload := by
  unfold Pipeline.eventFact
  split_ifs with hvalid
  · simp [hvalid, eq_comm]
  · simp [hvalid]

theorem deliver_cases (p : Pipeline) (s : Sink) (d : Delivery) :
    (p.eventFact d.event = none ∧ p.deliver s d = s) ∨
      ∃ f ev, p.eventFact d.event = some (p.stored f) ∧
        p.deliver s d = (p.write s d.outcome f ev).1 := by
  unfold Pipeline.eventFact Pipeline.eventPayload Pipeline.deliver Pipeline.handle Pipeline.apply
  simp only [Pipeline.envelope]
  -- The consumer skips an event without an upcast payload, without a spec or without a redaction.
  cases hup : p.upcast d.event.aggregate d.event.verb (p.streamed d.event.payload) with
  | none => exact .inl ⟨by simp, rfl⟩
  | some payload =>
    cases hspec : p.spec d.event.aggregate with
    | none => exact .inl ⟨by simp, by simp⟩
    | some spec =>
      simp only [bind_some]
      cases p.redacted spec ⟨d.event.tenantId, d.event.aggregate, d.event.aggId,
        d.event.version, d.event.verb, payload, p.time d.event⟩ with
      | error e => exact .inl ⟨by simp [Except.toOption], rfl⟩
      | ok text =>
        by_cases hvalid : valid d.event.tenantId
        · simp only [hvalid, if_true]
          exact .inr ⟨_, _, rfl, rfl⟩
        · exact .inl ⟨if_neg hvalid, by simp [hvalid]⟩

theorem landed_append : p.landed (deliveries ++ [d]) =
      p.landed deliveries ++ if p.lands d then (p.eventFact d.event).toList else [] := by
  unfold Pipeline.landed
  cases hlands : p.lands d with
  | false => simp [hlands]
  | true => cases hfact : p.eventFact d.event <;> simp [hlands, hfact]

theorem consume_append : p.consume (deliveries ++ [d]) = p.deliver (p.consume deliveries) d := by
  rw [Pipeline.consume, foldl_append]
  rfl

theorem mem_landed :
    f ∈ p.landed deliveries ↔ ∃ d ∈ deliveries, p.lands d ∧ p.eventFact d.event = some f := by
  simp [Pipeline.landed, mem_filterMap, and_assoc]

theorem holds_consume (p : Pipeline) (deliveries : List Delivery) (k : FactId) :
    Holds Fact.version ((p.landed deliveries).filter fun f => factKey f = k)
      ((p.consume deliveries).facts.lookup k) := by
  induction deliveries using List.reverseRecOn with
  | nil => exact holds_nil
  | append_singleton deliveries d ih =>
    rw [landed_append, consume_append]
    rcases deliver_cases p _ d with ⟨hnone, hsame⟩ | ⟨f, ev, hfact, hwrite⟩
    · rw [hsame]
      simpa [Pipeline.lands, hnone] using ih
    · rw [hwrite]
      by_cases hfails : d.outcome = .upsertFails
      · simpa [Pipeline.lands, hfact, hfails, Pipeline.write] using ih
      · have hlands : p.lands d := by simp [Pipeline.lands, hfact, hfails]
        rw [if_pos hlands, hfact, toList_some, filter_append, lookup_facts_write hfails]
        split_ifs with hk
        · have hkey : factKey (p.stored f) = k := hk.symm
          rw [filter_cons_of_pos (by simpa only [decide_eq_true_eq] using hkey), filter_nil]
          exact ih.offerNewer _
        · have hne : ¬ factKey (p.stored f) = k := fun heq => hk heq.symm
          rw [filter_cons_of_neg (by simpa only [decide_eq_true_eq] using hne), filter_nil, append_nil]
          exact ih

/-- A watermark is of a marked entity and not ahead of the fact it was set for. -/
structure Trails (p : Pipeline) (s : Sink) : Prop where
  keys : (s.watermarks.map Prod.fst).Nodup
  marked : ∀ k v, s.watermarks.lookup k = some v → (p.spec k.aggregate).isSome = true
  fact : ∀ k v, s.watermarks.lookup k = some v →
    ∃ f, s.facts.lookup k = some f ∧ v ≤ f.version

theorem nodup_watermarks_write (h : (s.watermarks.map Prod.fst).Nodup) :
    ((p.write s outcome f ev).1.watermarks.map Prod.fst).Nodup := by
  cases outcome with
  | done =>
    simp only [Pipeline.write, setWatermark, watermarks_appendEvents, watermarks_upsertFacts]
    exact nodup_put h
  | _ => simpa [Pipeline.write] using h

theorem Trails.write (h : Trails p s)
    (hmarked : (p.spec f.aggregate).isSome) : Trails p (p.write s outcome f ev).1 := by
  refine ⟨nodup_watermarks_write h.keys, fun k v hv => ?_, fun k v hv => ?_⟩
  · rw [lookup_watermarks_write] at hv
    split_ifs at hv with hk
    · rw [hk.1]
      exact hmarked
    · exact h.marked k v hv
  · rw [lookup_watermarks_write] at hv
    by_cases hfails : outcome = .upsertFails
    · subst hfails
      rw [if_neg (by simp)] at hv
      exact h.fact k v hv
    · rw [lookup_facts_write hfails]
      by_cases hk : k = factKey f
      · rw [if_pos hk]
        refine ⟨_, rfl, ?_⟩
        have hnew : f.version ≤ Fact.version
            (offerNewer _ (s.facts.lookup k) _) :=
          le_offerNewer Fact.version _ (p.stored f)
        -- An old watermark is below the old fact, which the new one is not.
        have hold : ∀ w, s.watermarks.lookup k = some w → w ≤ Fact.version
            (offerNewer Fact.version (s.facts.lookup k) (p.stored f)) := by
          intro w hw
          obtain ⟨g, hg, hle⟩ := h.fact k w hw
          exact hle.trans (held_le_offerNewer hg _)
        split_ifs at hv with hdone
        · cases hv
          rcases offerNewer_cases id _ f.version with hkept | htaken
          · exact hold _ hkept
          · rw [htaken]
            exact hnew
        · exact hold v hv
      · rw [if_neg fun hdone => hk hdone.1] at hv
        rw [if_neg hk]
        exact h.fact k v hv

theorem isSome_spec_of_eventFact (h : p.eventFact e = some f) :
    (p.spec f.aggregate).isSome ∧ factKey f = factId (eventIdentity e) ∧
      f.version = e.version ∧ f.deleted = decide (e.verb = .deleted) := by
  obtain ⟨-, payload, hpayload, rfl⟩ := eventFact_eq_some.mp h
  obtain ⟨spec, hspec, -⟩ := bind_eq_some_iff.mp hpayload
  exact ⟨isSome_iff_exists.mpr ⟨spec, hspec⟩, rfl, rfl, rfl⟩

theorem trails_consume (p : Pipeline) (deliveries : List Delivery) :
    Trails p (p.consume deliveries) := by
  induction deliveries using List.reverseRecOn with
  | nil =>
    refine ⟨nodup_nil, fun k v hv => ?_, fun k v hv => ?_⟩
    · exact absurd hv (by simp [Pipeline.consume, Sink.empty])
    · exact absurd hv (by simp [Pipeline.consume, Sink.empty])
  | append_singleton deliveries d ih =>
    rw [consume_append]
    rcases deliver_cases p _ d with ⟨-, hsame⟩ | ⟨f, ev, hfact, hwrite⟩
    · rw [hsame]
      exact ih
    · rw [hwrite]
      exact ih.write (isSome_spec_of_eventFact hfact).1

end Fabriq.Analytics.Consumer
