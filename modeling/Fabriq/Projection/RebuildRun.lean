import Fabriq.Projection.Rebuild

namespace Fabriq.Projection.RebuildRun

open Core.Schema Lib Lib.Assoc Lib.KeyedLog Projection.Applier Projection.GraphStore
open List Option
open Projection.Rebuild

def rebuilding : Phase → Bool
  | .idle => false
  | _ => true

def pageOf : Phase → List Envelope
  | .snapshot _ _ page _ => page
  | _ => []

/-- The events the command plane commits: versions rise, and nothing follows a delete. -/
structure WellFormed (log : List Envelope) : Prop where
  ordered : Ordered aggregateOf (fun e => e.version) log
  positive : ∀ e ∈ log, 0 < e.version
  named : ∀ e ∈ log, e.aggId ≠ ""
  stamped : ∀ e ∈ log, e.verb ≠ .deleted →
    e.payload.lookup columnVersion = some (.num e.version)
  final : ∀ e ∈ log, e.verb = .deleted → latest aggregateOf log (aggregateOf e) = some e

structure Consistent (d : Deployment) (s : System) : Prop where
  log : WellFormed s.log
  delivered : ∀ e ∈ s.delivered, e ∈ s.log
  acked : ∀ e ∈ s.acked, e ∈ s.delivered
  jobs : ∀ w j, (s.worker w).job = some j → j.event ∈ s.delivered
  rows : ∀ row ∈ pageOf s.phase, ∃ e ∈ s.log, e.verb ≠ .deleted ∧ row = snapshotEnvelope e
  marked : rebuilding s.phase = true → s.phase.isFlipped = false → s.state.status = .building
  flipped : s.phase.isFlipped = true → s.state.status ≠ .building
  state : s.state.status = .building →
    graphNameVersioned d.tenant (s.state.modelVersion + 1) = buildTarget d s
  caches : ∀ w c, (s.worker w).stateCache = some c → c.value.status = .building →
    graphNameVersioned d.tenant (c.value.modelVersion + 1) = buildTarget d s

variable {d : Deployment} {s t : System} {w v : Nat}

theorem lookup_workers {workers : List (Nat × Worker)} {x : Worker}
    (hworkers : t.workers = put workers w x) :
    t.worker v = if v = w then x else (workers.lookup v).getD {} := by
  rw [System.worker, hworkers, lookup_put]
  split_ifs <;> rfl

theorem fetch_value {α : Type} (now : Nat) (cache : Option (Cached α)) (stored : α) :
    (fetch now cache stored).1 = stored ∨
      ∃ c, cache = some c ∧ (fetch now cache stored).1 = c.value := by
  unfold fetch
  split
  · rename_i c hc
    exact .inr ⟨c, (filter_eq_some_iff.mp hc).1, rfl⟩
  · exact .inl rfl

theorem fetch_cache {α : Type} {now : Nat} {cache : Option (Cached α)} {stored : α}
    {c : Cached α} (h : (fetch now cache stored).2 = some c) :
    cache = some c ∨ c.value = stored := by
  unfold fetch at h
  split at h
  · rename_i c' hc
    exact .inl ((filter_eq_some_iff.mp hc).1.trans h)
  · exact .inr (by rw [← some.inj h])

theorem buildTarget_congr (hphase : t.phase = s.phase) (hstate : t.state = s.state) :
    buildTarget d t = buildTarget d s := by
  rw [buildTarget, buildTarget, hphase, hstate]

variable {log : List Envelope} {k : String × String} {verb : Verb} {version : Int}

theorem nextVersion_eq_some (h : nextVersion log k verb = some version) :
    (latest aggregateOf log k = none ∧ version = 1) ∨
      ∃ last, latest aggregateOf log k = some last ∧ last.verb ≠ .deleted ∧
        version = last.version + 1 := by
  unfold nextVersion at h
  split at h
  · obtain ⟨hnone, hversion⟩ := ite_none_right_eq_some.mp h
    exact .inl ⟨isNone_iff_eq_none.mp hnone, (some.inj hversion).symm⟩
  all_goals
    obtain ⟨last, hrow, hversion⟩ := map_eq_some_iff.mp h
    obtain ⟨hlast, hverb⟩ := filter_eq_some_iff.mp hrow
    exact .inr ⟨last, hlast, bne_iff_ne.mp hverb, hversion.symm⟩

theorem commit_eq_some {entity id : String} {vals : Fields}
    (h : commit d s entity id verb vals = some t) :
    ∃ env : Envelope, t = { s with log := s.log ++ [env] } ∧ env.aggId ≠ "" ∧
      nextVersion s.log (aggregateOf env) env.verb = some env.version ∧
      (env.verb ≠ .deleted → env.payload.lookup columnVersion = some (.num env.version)) := by
  unfold commit at h
  split at h
  · rename_i _ _ version hentity hversion
    have hid := (filter_eq_some_iff.mp hentity).2
    simp only [Bool.and_eq_true, bne_iff_ne] at hid
    refine ⟨_, (some.inj h).symm, hid.2, hversion, fun hverb => ?_⟩
    cases verb with
    | deleted => exact absurd rfl hverb
    | created | updated => simp [stampedPayload, lookup_put]
  · cases h

variable {env : Envelope}

theorem lt_of_nextVersion {last : Envelope}
    (hnext : nextVersion log (aggregateOf env) env.verb = some env.version)
    (hlast : latest aggregateOf log (aggregateOf env) = some last) :
    last.version < env.version ∧ last.verb ≠ .deleted := by
  rcases nextVersion_eq_some hnext with ⟨hnone, -⟩ | ⟨other, hother, hverb, hversion⟩
  · rw [hnone] at hlast
    cases hlast
  · rw [hother, some.injEq] at hlast
    rw [← hlast, hversion]
    exact ⟨Int.lt_succ _, hverb⟩

theorem not_mem_of_nextVersion (hordered : Ordered aggregateOf (fun e => e.version) log)
    (hnext : nextVersion log (aggregateOf env) env.verb = some env.version) : env ∉ log := by
  intro hmem
  obtain ⟨last, hlast, hle⟩ := hordered.exists_latest (mem_history.mpr ⟨hmem, rfl⟩)
  exact absurd (lt_of_nextVersion hnext hlast).1 hle.not_gt

variable {i : Nat}

theorem deliver_eq_some (h : deliver d s w i = some t) : ∃ env ∈ s.log, (s.worker w).job = none ∧
      (((graphApplier d.reg env).getD [] = [] ∧
          t = { s with delivered := env :: s.delivered, acked := env :: s.acked }) ∨
        t = { s with
          delivered := env :: s.delivered
          workers := put s.workers w
            { s.worker w with
              stateCache := (fetch s.now (s.worker w).stateCache s.state).2
              job := some ⟨env, targetsFor d
                (fetch s.now (s.worker w).stateCache s.state).1⟩ } }) := by
  revert h
  fun_cases deliver d s w i <;> rintro ⟨⟩
  · rename_i env hjob hlog happ
    exact ⟨env, mem_of_getElem? hlog, hjob, .inl ⟨by rw [happ]; rfl, rfl⟩⟩
  · rename_i env hjob hlog happ
    exact ⟨env, mem_of_getElem? hlog, hjob, .inl ⟨by rw [happ]; rfl, rfl⟩⟩
  · rename_i env hjob hlog _ _ _ _
    exact ⟨env, mem_of_getElem? hlog, hjob, .inr rfl⟩

theorem applyTarget_eq_some (h : applyTarget d s w = some t) :
    ∃ env target rest g, (s.worker w).job = some ⟨env, target :: rest⟩ ∧
      handle d.reg (s.graph (resolve d s w target).1) env = some g ∧
      t = { s with
        graphs := put s.graphs (resolve d s w target).1 g
        workers := put s.workers w
          { s.worker w with
            targetCache := (resolve d s w target).2
            job := some ⟨env, rest⟩ } } := by
  unfold applyTarget at h
  split at h
  · rename_i env target rest hjob
    obtain ⟨g, hg, ht⟩ := map_eq_some_iff.mp h
    exact ⟨env, target, rest, g, hjob, hg, ht.symm⟩
  · cases h

theorem abort_eq_some (h : abort s = some t) : s.phase.isFlipped = false ∧
      t = { s with state := { s.state with status := .live }, phase := .idle } := by
  revert h
  fun_cases abort s <;> rintro ⟨⟩ <;> rename_i hphase <;> exact ⟨by rw [hphase]; rfl, rfl⟩

theorem applyRow_eq_some (h : applyRow d s = some t) :
    abort s = some t ∨ ∃ pending lastId row page more g,
      s.phase = .snapshot pending lastId (row :: page) more ∧
        handle d.reg (s.graph (buildTarget d s)) row = some g ∧
        t = { s with
          graphs := put s.graphs (buildTarget d s) g
          phase := .snapshot pending row.aggId page more } := by
  unfold applyRow at h
  split at h
  · rename_i pending lastId row page more hphase
    split at h
    · exact .inl h
    · rename_i g hg
      obtain ⟨muts, happ, hmuts⟩ := bind_eq_some_iff.mp hg
      refine Or.inr ⟨pending, lastId, row, page, more, g, hphase, ?_, (some.inj h).symm⟩
      rw [handle, happ]
      exact hmuts
  · cases h

theorem buildTarget_of_not_flipped (h : s.phase.isFlipped = false) :
    buildTarget d s = graphNameVersioned d.tenant (s.state.modelVersion + 1) := by
  unfold buildTarget
  split
  · rename_i hphase
    rw [hphase] at h
    exact absurd h (by decide)
  · rfl

theorem buildTarget_eq (hbefore : s.phase.isFlipped = false) (hafter : t.phase.isFlipped = false)
    (hversion : t.state.modelVersion = s.state.modelVersion) :
    buildTarget d t = buildTarget d s := by
  rw [buildTarget_of_not_flipped hafter, buildTarget_of_not_flipped hbefore, hversion]

theorem mem_snapshotPage {entity : Entity} {lastId : String} {row : Envelope}
    (h : row ∈ snapshotPage log entity lastId) :
    ∃ e ∈ log, e.verb ≠ .deleted ∧ row = snapshotEnvelope e := by
  obtain ⟨e, he, rfl⟩ := List.mem_map.mp h
  have hmem := (mem_insertionSort _).mp (mem_of_mem_take he)
  obtain ⟨hlatest, hkeep⟩ := mem_filter.mp hmem
  simp only [Bool.and_eq_true, bne_iff_ne] at hkeep
  exact ⟨e, (mem_history.mp (mem_of_latest (mem_latestAll.mp hlatest))).1, hkeep.1.2, rfl⟩

theorem WellFormed.append (hlog : WellFormed log) (hid : env.aggId ≠ "")
    (hnext : nextVersion log (aggregateOf env) env.verb = some env.version)
    (hstamp : env.verb ≠ .deleted →
      env.payload.lookup columnVersion = some (.num env.version)) : WellFormed (log ++ [env]) := by
  constructor
  · exact hlog.ordered.append fun last hlast => (lt_of_nextVersion hnext hlast).1
  · refine Machine.forall_mem_concat hlog.positive ?_
    rcases nextVersion_eq_some hnext with ⟨-, hone⟩ | ⟨last, hlast, -, hversion⟩
    · rw [hone]
      decide
    · have hpos := hlog.positive last (mem_history.mp (mem_of_latest hlast)).1
      rw [hversion]
      exact hpos.trans (Int.lt_succ _)
  · exact Machine.forall_mem_concat hlog.named hid
  · exact Machine.forall_mem_concat hlog.stamped hstamp
  · refine Machine.forall_mem_concat (fun e he hverb => ?_) fun _ => latest_append_self
    have hlast := hlog.final e he hverb
    rcases eq_or_ne (aggregateOf e) (aggregateOf env) with heq | hne
    · rw [heq] at hlast
      exact absurd hverb (lt_of_nextVersion hnext hlast).2
    · rw [latest_append_of_ne hne]
      exact hlast

section

variable (hs : Consistent d s)
include hs

theorem Consistent.setWorker {x : Worker} {delivered acked : List Envelope}
    (hmore : ∀ e ∈ s.delivered, e ∈ delivered) (hdeliv : ∀ e ∈ delivered, e ∈ s.log)
    (hacked : ∀ e ∈ acked, e ∈ delivered) (hjob : ∀ j, x.job = some j → j.event ∈ delivered)
    (hcache : ∀ c, x.stateCache = some c → (s.worker w).stateCache = some c ∨ c.value = s.state) :
    Consistent d { s with
      workers := put s.workers w x, delivered := delivered, acked := acked } := by
  refine { hs with delivered := hdeliv, acked := hacked, jobs := ?_, caches := ?_ }
  · intro v j hj
    rw [lookup_workers rfl] at hj
    split_ifs at hj
    · exact hjob j hj
    · exact hmore _ (hs.jobs v j hj)
  · intro v c hc hstatus
    rw [lookup_workers rfl] at hc
    split_ifs at hc
    · rcases hcache c hc with hold | hnew
      · exact hs.caches w c hold hstatus
      · rw [hnew] at hstatus ⊢
        exact hs.state hstatus
    · exact hs.caches v c hc hstatus

theorem Consistent.setPhase {graphs : List (String × Graph)}
    {state : ProjState} {phase : Phase}
    (hbuild : buildTarget d { s with state := state, phase := phase } = buildTarget d s)
    (hrows : ∀ row ∈ pageOf phase, ∃ e ∈ s.log, e.verb ≠ .deleted ∧ row = snapshotEnvelope e)
    (hmarked : rebuilding phase → phase.isFlipped = false → state.status = .building)
    (hflipped : phase.isFlipped → state.status ≠ .building)
    (hstate : state.status = .building →
      graphNameVersioned d.tenant (state.modelVersion + 1) = buildTarget d s) :
    Consistent d { s with graphs := graphs, state := state, phase := phase } :=
  { hs with
    rows := hrows
    marked := hmarked
    flipped := hflipped
    state := fun hbuilding => (hstate hbuilding).trans hbuild.symm
    caches := fun w c hc hbuilding => (hs.caches w c hc hbuilding).trans hbuild.symm }

theorem consistent_commit (hlog : WellFormed (s.log ++ [env])) :
    Consistent d { s with log := s.log ++ [env] } := by
  refine ⟨hlog, fun e he => mem_append_left _ (hs.delivered e he), hs.acked, hs.jobs, ?_,
    hs.marked, hs.flipped, hs.state, hs.caches⟩
  intro row hrow
  obtain ⟨e, he, hrest⟩ := hs.rows row hrow
  exact ⟨e, mem_append_left _ he, hrest⟩

theorem consistent_deliver (h : deliver d s w i = some t) : Consistent d t := by
  have hmore : ∀ env : Envelope, ∀ e ∈ s.delivered, e ∈ env :: s.delivered :=
    fun env e he => mem_cons_of_mem _ he
  obtain ⟨env, hlog, -, ⟨-, rfl⟩ | rfl⟩ := deliver_eq_some h
  · exact { hs with
      delivered := forall_mem_cons.mpr ⟨hlog, hs.delivered⟩
      acked := forall_mem_cons.mpr ⟨mem_cons_self, fun e he => hmore env e (hs.acked e he)⟩
      jobs := fun v j hj => hmore env _ (hs.jobs v j hj) }
  · refine hs.setWorker (hmore env) (forall_mem_cons.mpr ⟨hlog, hs.delivered⟩)
      (fun e he => hmore env e (hs.acked e he)) (fun j hj => ?_) fun c hc => fetch_cache hc
    cases hj
    exact mem_cons_self

theorem consistent_applyTarget (h : applyTarget d s w = some t) : Consistent d t := by
  obtain ⟨env, target, rest, g, hjob, -, rfl⟩ := applyTarget_eq_some h
  have hset := hs.setWorker (w := w)
    (x := { s.worker w with targetCache := (resolve d s w target).2, job := some ⟨env, rest⟩ })
    (fun _ he => he) hs.delivered hs.acked
    (fun j hj => some.inj hj ▸ hs.jobs w ⟨env, target :: rest⟩ hjob) fun c hc => .inl hc
  exact { hset with }

theorem consistent_ack (h : ack s w = some t) : Consistent d t := by
  revert h
  fun_cases ack s w <;> rintro ⟨⟩
  rename_i hjob
  exact hs.setWorker (fun _ he => he) hs.delivered
    (forall_mem_cons.mpr ⟨hs.jobs w _ hjob, hs.acked⟩) nofun fun c hc => .inl hc

theorem Consistent.setPage {graphs : List (String × Graph)}
    {phase : Phase} (hrebuilding : rebuilding s.phase) (hbefore : s.phase.isFlipped = false)
    (hafter : phase.isFlipped = false)
    (hrows : ∀ row ∈ pageOf phase, ∃ e ∈ s.log, e.verb ≠ .deleted ∧ row = snapshotEnvelope e) :
    Consistent d { s with graphs := graphs, phase := phase } := by
  refine hs.setPhase (buildTarget_eq hbefore hafter rfl) hrows
    (fun _ _ => hs.marked hrebuilding hbefore) ?_ hs.state
  rw [hafter]
  nofun

theorem consistent_abort (h : abort s = some t) : Consistent d t := by
  obtain ⟨hphase, rfl⟩ := abort_eq_some h
  exact hs.setPhase (buildTarget_of_not_flipped hphase).symm nofun nofun nofun nofun

theorem consistent_step {a : Action} (h : step d s a = some t) : Consistent d t := by
  cases a with
  | commit entity id verb vals =>
    obtain ⟨env, rfl, hid, hnext, hstamp⟩ := commit_eq_some h
    exact consistent_commit hs (hs.log.append hid hnext hstamp)
  | tick k =>
    cases h
    exact { hs with }
  | deliver w i => exact consistent_deliver hs h
  | applyTarget w => exact consistent_applyTarget hs h
  | ack w => exact consistent_ack hs h
  | crash w =>
    cases h
    exact hs.setWorker (fun _ he => he) hs.delivered hs.acked nofun nofun
  | mark =>
    rw [step] at h
    revert h
    fun_cases mark s <;> rintro ⟨⟩
    rename_i hphase _
    have hbuild : buildTarget d s = _ := buildTarget_of_not_flipped (by rw [hphase]; rfl)
    exact hs.setPhase hbuild.symm nofun (fun _ _ => rfl) nofun fun _ => hbuild.symm
  | dropTarget =>
    rw [step] at h
    revert h
    fun_cases dropTarget d s <;> rintro ⟨⟩
    rename_i hphase
    exact hs.setPage (by rw [hphase]; rfl) (by rw [hphase]; rfl) rfl nofun
  | readPage =>
    rw [step] at h
    revert h
    fun_cases readPage s <;> rintro ⟨⟩
    rename_i hphase _
    exact hs.setPage (by rw [hphase]; rfl) (by rw [hphase]; rfl) rfl
      fun row hrow => mem_snapshotPage hrow
  | nextEntity =>
    rw [step] at h
    revert h
    fun_cases nextEntity s <;> rintro ⟨⟩
    rename_i hphase
    exact hs.setPage (by rw [hphase]; rfl) (by rw [hphase]; rfl) rfl nofun
  | applyRow =>
    rcases applyRow_eq_some h with
      habort | ⟨pending, lastId, row, page, more, g, hphase, -, rfl⟩
    · exact consistent_abort hs habort
    · refine hs.setPage (by rw [hphase]; rfl) (by rw [hphase]; rfl) rfl fun r hr => hs.rows r ?_
      rw [hphase]
      exact mem_cons_of_mem _ hr
  | flip =>
    rw [step] at h
    revert h
    fun_cases Rebuild.flip d s <;> rintro ⟨⟩
    exact hs.setPhase rfl nofun nofun nofun nofun
  | abort => exact consistent_abort hs h

end

end Fabriq.Projection.RebuildRun
