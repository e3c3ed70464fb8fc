import Fabriq.Analytics.ReconcileTruth
import Fabriq.Lib.Upsert

namespace Fabriq.Analytics.HistoryLog

open Analytics.Consumer Analytics.Reconcile Analytics.ReconcileTruth Lib.Upsert List
open Core.Schema (Entity)
open Exec.CommandStore (OutboxRow StoredRow)

/-- What a record is for: an event of the stream, or a row with the time at which a backfill or
a reconcile reads it. -/
inductive Write
  | consumed (e : OutboxRow)
  | snapshot (calls : Calls) (tenant : String) (ent : Entity) (row : StoredRow)

def Pipeline.record (p : Pipeline) (env : Envelope) : Option HistoryEvent :=
  match p.apply env with
  | .ok (some (_, ev)) => some ev
  | _ => none

def record (p : Pipeline) : Write → Option HistoryEvent
  | .consumed e => (p.upcast e.aggregate e.verb (p.streamed e.payload)).bind fun payload =>
      Pipeline.record p { p.envelope e with payload := payload }
  | .snapshot calls tenant ent row =>
    (snapshotEnvelope p calls tenant ent row).toOption.bind (Pipeline.record p)

/-- The primary key of the events, which a partitioned table extends by the time. -/
def primaryKey (partitioned : Bool) (ev : HistoryEvent) : (FactId × Int) × Option Int :=
  (eventKey ev, if partitioned then some ev.time else none)

def history (p : Pipeline) (partitioned : Bool) (writes : List Write) : List HistoryEvent :=
  upsertAll (primaryKey partitioned) (fun old _ => old) [] (writes.filterMap (record p))

def OnePerVersion (log : List HistoryEvent) : Prop :=
  (log.map eventKey).Nodup

section

variable {α κ : Type*} [DecidableEq κ] {key : α → κ} {l news : List α} {a : α}

theorem mem_of_mem_appended (h : a ∈ upsertAll key (fun old _ => old) l news) :
    a ∈ l ∨ a ∈ news := by
  induction news generalizing l with
  | nil => exact .inl h
  | cons new rest ih =>
    rcases ih h with hmem | hrest
    · rcases mem_upsert.mp hmem with ⟨hold, -⟩ | ⟨old, hold, -, rfl⟩ | ⟨-, rfl⟩
      exacts [Or.inl hold, .inl hold, .inr mem_cons_self]
    · exact .inr (mem_cons_of_mem _ hrest)

theorem key_mem_appended {k : κ} (h : k ∈ l.map key ∨ k ∈ news.map key) :
    k ∈ (upsertAll key (fun old _ => old) l news).map key := by
  induction news generalizing l with
  | nil => exact h.resolve_right not_mem_nil
  | cons new rest ih =>
    refine ih ?_
    rw [mem_map_key_upsert fun _ _ => rfl]
    rw [map_cons, mem_cons] at h
    tauto

/-- The versions have one record each exactly if the table is plain or the writers give a
version the same time. -/
theorem onePerVersion_iff (p : Pipeline) (partitioned : Bool) (writes : List Write) :
    OnePerVersion (history p partitioned writes) ↔
      partitioned = false ∨ ∀ ev ∈ writes.filterMap (record p),
        ∀ ev' ∈ writes.filterMap (record p), eventKey ev = eventKey ev' → ev.time = ev'.time := by
  have hkeys : ((history p partitioned writes).map _).Nodup :=
    nodup_upsertAll (fun _ _ => rfl) nodup_nil
  constructor
  · intro hone
    cases partitioned with
    | false => exact .inl rfl
    | true =>
      refine Or.inr fun ev hev ev' hev' hsame => ?_
      obtain ⟨r, hr, hkey⟩ := mem_map.mp
        (key_mem_appended (l := []) (.inr (mem_map_of_mem (f := primaryKey true) hev)))
      obtain ⟨r', hr', hkey'⟩ := mem_map.mp
        (key_mem_appended (l := []) (.inr (mem_map_of_mem (f := primaryKey true) hev')))
      simp only [primaryKey, if_true, Prod.mk.injEq, Option.some.injEq] at hkey hkey'
      obtain rfl := inj_on_of_nodup_map hone hr hr' (hkey.1.trans (hsame.trans hkey'.1.symm))
      exact hkey.2.symm.trans hkey'.2
  · intro h
    refine List.Nodup.map_on (fun r hr r' hr' hsame => ?_) (List.Nodup.of_map _ hkeys)
    refine inj_on_of_nodup_map hkeys hr hr' (Prod.ext hsame ?_)
    rcases h with rfl | htimes
    · rfl
    · have hmem : ∀ r ∈ history p partitioned writes, r ∈ writes.filterMap (record p) :=
        fun r hr => (mem_of_mem_appended hr).resolve_left not_mem_nil
      simp only [primaryKey, htimes r (hmem r hr) r' (hmem r' hr') hsame]

end

def createdAsset : OutboxRow :=
  ⟨"acme", "asset", "a1", 1, .created, [("name", .str "pump")]⟩

def assetEntity : Entity where
  name := "asset"
  columns := ["id", "tenant_id", "name", "version"]

/-- A backfill reads the row at another time than the event's, and in a partitioned table its
record stands beside the consumer's. -/
theorem backfilled_asset_twice : ¬ OnePerVersion (history assets true [.consumed createdAsset,
      .snapshot calls "acme" assetEntity ⟨"asset", "a1", "acme", "", 1, createdAsset.payload⟩]) := by
  unfold OnePerVersion
  decide +kernel

end Fabriq.Analytics.HistoryLog
