import Fabriq.Projection.RebuildRun

namespace Fabriq.Projection.RebuildSafety

open Core.Schema Core.Value Lib.Assoc Lib.KeyedLog List Option Projection.Applier
open Projection.GraphStore Projection.GraphWrites Projection.NodeVersion Projection.Rebuild
open Projection.RebuildRun

def dropped : Phase → Bool
  | .snapshot .. | .flipped => true
  | _ => false

theorem rebuilding_of_dropped {phase : Phase} (h : dropped phase) : rebuilding phase := by
  cases phase with
  | idle => exact h
  | marked | snapshot | flipped => rfl

/-- Once the target is dropped, a worker does not get a state from before the marker. -/
def deliverOk (s : System) (w : Nat) : Prop :=
  dropped s.phase = true →
    (fetch s.now (s.worker w).stateCache s.state).1.status = .building ∨
      (fetch s.now (s.worker w).stateCache s.state).1 = s.state

def deleteAhead (s : System) (env : Envelope) : Prop :=
  ∀ e ∈ s.delivered, e.verb = .deleted → aggregateOf e ≠ aggregateOf env

/-- Once the target is dropped, no upsert reaches it after the delete was delivered; after the
flip, the live graph is not resolved to the old one for an event not applied to the new one. -/
def applyOk (d : Deployment) (s : System) (w : Nat) : Prop :=
  match (s.worker w).job with
  | some ⟨env, target :: rest⟩ =>
    (dropped s.phase = true → (resolve d s w target).1 = buildTarget d s →
      env.verb ≠ .deleted → deleteAhead s env) ∧
    (s.phase.isFlipped = true → buildTarget d s ∉ rest →
      (resolve d s w target).1 = buildTarget d s)
  | _ => True

def rowOk (s : System) : Prop :=
  match pageOf s.phase with
  | row :: _ => deleteAhead s row
  | [] => True

def StepOk (d : Deployment) (s : System) : Action → Prop
  | .deliver w _ => deliverOk s w
  | .applyTarget w => applyOk d s w
  | .applyRow => rowOk s
  | _ => True

instance : Decidable (deliverOk s w) := by
  unfold deliverOk
  infer_instance

instance : Decidable (deleteAhead s env) := by
  unfold deleteAhead
  infer_instance

instance : Decidable (applyOk d s w) := by
  unfold applyOk
  split <;> infer_instance

instance : Decidable (rowOk s) := by
  unfold rowOk
  split <;> infer_instance

instance : ∀ d s a, Decidable (StepOk d s a)
  | _, s, .deliver w _ => inferInstanceAs (Decidable (deliverOk s w))
  | d, s, .applyTarget w => inferInstanceAs (Decidable (applyOk d s w))
  | _, s, .applyRow => inferInstanceAs (Decidable (rowOk s))
  | _, _, .commit .. | _, _, .tick .. | _, _, .ack .. | _, _, .crash .. | _, _, .mark
  | _, _, .dropTarget | _, _, .readPage | _, _, .nextEntity | _, _, .flip | _, _, .abort =>
    isTrue trivial

def cursor (lastId : String) (page : List Envelope) : String :=
  (page.getLast?.map fun row => row.aggId).getD lastId

def Ahead (entity : Entity) (id : String) : Phase → Prop
  | .snapshot pending lastId page more =>
    entity ∈ pending.tail ∨
      (pending.head? = some entity ∧ more = true ∧ cursor lastId page < id)
  | _ => False

def Feeds (d : Deployment) (s : System) (j : Job) : Prop :=
  buildTarget d s ∈ j.targets ∨ ("" ∈ j.targets ∧ s.phase.isFlipped = true)

/-- An event that is not acknowledged and that every worker handling it still has to apply
to the build target. -/
def Owed (d : Deployment) (s : System) (e : Envelope) : Prop :=
  e ∉ s.acked ∧ ∀ w j, (s.worker w).job = some j → j.event = e → Feeds d s j

def held (d : Deployment) (s : System) (key : NodeKey) : Option Json :=
  heldVersion (s.graph (buildTarget d s)) key

/-- The version of an upsert is shown by the build target, or by a row about to be
applied. -/
def Reached (d : Deployment) (s : System) (key : NodeKey) (e : Envelope) : Prop :=
  (∃ n : Int, e.version ≤ n ∧ held d s key = some (.num n)) ∨
    ∃ row ∈ pageOf s.phase, aggregateOf row = aggregateOf e ∧ e.version ≤ row.version

structure Tracked (d : Deployment) (entity : Entity) (id : String) (s : System) : Prop where
  sound : dropped s.phase = true →
    held d s ⟨entity.graphNode, id⟩ = none ∨
      ∃ e ∈ history aggregateOf s.log (entity.name, id), e.verb ≠ .deleted ∧
        held d s ⟨entity.graphNode, id⟩ = some (.num e.version)
  upserts : dropped s.phase = true → ¬ Ahead entity id s.phase →
    (∀ e ∈ history aggregateOf s.log (entity.name, id), e.verb ≠ .deleted) →
    ∀ e ∈ history aggregateOf s.log (entity.name, id),
      Reached d s ⟨entity.graphNode, id⟩ e ∨ Owed d s e
  deletes : dropped s.phase = true →
    ∀ e ∈ history aggregateOf s.log (entity.name, id), e.verb = .deleted → e ∈ s.delivered →
      held d s ⟨entity.graphNode, id⟩ = none ∨ Owed d s e

structure Shown (d : Deployment) (entity : Entity) : Prop where
  valid : d.reg.validate = true
  labels : ∀ a ∈ d.reg, ∀ b ∈ d.reg, a.graphNode ≠ "" → a.graphNode = b.graphNode →
    a.name = b.name
  get : d.reg.get entity.name = some entity
  aggregate : entity.isAggregate = true
  kind : entity.graphEdge = none
  label : entity.graphNode ≠ ""

variable {d : Deployment} {entity : Entity} {id : String} {e : Envelope} {g h : Graph}

section

variable (hshown : Shown d entity)
include hshown

section

variable (hown : aggregateOf e = (entity.name, id))
include hown

theorem Shown.own : d.reg.get e.aggregate = some entity ∧ e.aggId = id := by
  obtain ⟨hname, hid⟩ := Prod.mk.inj hown
  exact ⟨by rw [hname]; exact hshown.get, hid⟩

omit hown in
theorem Shown.heldVersion_other
    (hother : aggregateOf e ≠ (entity.name, id)) (hstep : handle d.reg g e = some h) :
    heldVersion h ⟨entity.graphNode, id⟩ = heldVersion g ⟨entity.graphNode, id⟩ := by
  refine heldVersion_handle_of_ne hshown.valid (fun other hget hlabel hkey => hother ?_) hstep
  obtain ⟨hsame, hid⟩ := NodeKey.mk.inj hkey
  have hname := hshown.labels other (mem_of_find?_eq_some hget) entity
    (mem_of_find?_eq_some hshown.get) hlabel hsame.symm
  rw [aggregateOf, ← Registry.name_of_get hget, hname, hid]

theorem Shown.heldVersion_delete
    (hverb : e.verb = .deleted)
    (hstep : handle d.reg g e = some h) : heldVersion h ⟨entity.graphNode, id⟩ = none := by
  obtain ⟨hget, rfl⟩ := hshown.own hown
  exact heldVersion_handle_deleted hget hshown.kind hshown.label hverb hstep

theorem Shown.heldVersion_upsert
    (hverb : e.verb ≠ .deleted) (hpos : 0 < e.version)
    (hstamp : e.payload.lookup columnVersion = some (.num e.version))
    (hheld : heldVersion g ⟨entity.graphNode, id⟩ = none ∨
      ∃ m : Int, heldVersion g ⟨entity.graphNode, id⟩ = some (.num m))
    (hstep : handle d.reg g e = some h) :
    ∃ n : Int, heldVersion h ⟨entity.graphNode, id⟩ = some (.num n) ∧ e.version ≤ n ∧
      (n = e.version ∨ heldVersion g ⟨entity.graphNode, id⟩ = some (.num n)) ∧
      ∀ m : Int, heldVersion g ⟨entity.graphNode, id⟩ = some (.num m) → m ≤ n := by
  obtain ⟨hget, rfl⟩ := hshown.own hown
  exact heldVersion_handle_upsert hget hshown.kind hshown.label hshown.valid hverb hpos
    (lookup_written_version hstamp) hheld hstep

theorem Shown.graphApplier_ne
    : (graphApplier d.reg e).getD [] ≠ [] := by
  obtain ⟨hget, -⟩ := hshown.own hown
  by_cases hverb : e.verb = .deleted
  · simp [graphApplier, hget, hshown.kind, hshown.label, hverb]
  · rw [graphApplier_node hshown.valid hget hshown.kind hshown.label hverb]
    exact cons_ne_nil _ _

end

end

variable {s t : System}

theorem Owed.congr (h : Owed d s e) (hacked : t.acked = s.acked)
    (hworkers : t.workers = s.workers) (hbuild : buildTarget d t = buildTarget d s)
    (hflipped : s.phase.isFlipped → t.phase.isFlipped) : Owed d t e := by
  refine ⟨hacked ▸ h.1, fun w j hj hevent => ?_⟩
  rw [System.worker, hworkers] at hj
  rcases h.2 w j hj hevent with hnamed | ⟨hlive, hphase⟩
  · exact .inl (hbuild ▸ hnamed)
  · exact .inr ⟨hlive, hflipped hphase⟩

variable {w : Nat}

theorem Owed.of_worker (h : Owed d s e) {x : Worker} (hacked : e ∉ t.acked)
    (hworkers : t.workers = put s.workers w x) (hphase : t.phase = s.phase)
    (hstate : t.state = s.state) (hjob : ∀ j, x.job = some j → j.event = e → Feeds d s j) :
    Owed d t e := by
  have hfeeds : ∀ j, Feeds d s j → Feeds d t j := by
    intro j hj
    rw [Feeds, buildTarget_congr hphase hstate, hphase]
    exact hj
  refine ⟨hacked, fun v j hj hevent => hfeeds j ?_⟩
  rw [lookup_workers hworkers] at hj
  split_ifs at hj
  · exact hjob j hj hevent
  · exact h.2 v j hj hevent

theorem feeds_deliver (hs : Consistent d s) (hok : deliverOk s w) (hdropped : dropped s.phase) :
    Feeds d s ⟨e, targetsFor d (fetch s.now (s.worker w).stateCache s.state).1⟩ := by
  have hbuilding : (fetch s.now (s.worker w).stateCache s.state).1.status = .building →
      Feeds d s ⟨e, targetsFor d (fetch s.now (s.worker w).stateCache s.state).1⟩ := by
    intro hstatus
    have hname : graphNameVersioned d.tenant
        ((fetch s.now (s.worker w).stateCache s.state).1.modelVersion + 1) = buildTarget d s := by
      rcases fetch_value s.now _ s.state with
        hstored | ⟨c, hc, hvalue⟩
      · rw [hstored] at hstatus ⊢
        exact hs.state hstatus
      · rw [hvalue] at hstatus ⊢
        exact hs.caches w c hc hstatus
    left
    rw [targetsFor, if_pos hstatus, hname]
    simp
  rcases hok hdropped with hstatus | hstate
  · exact hbuilding hstatus
  · cases hflipped : s.phase.isFlipped with
    | true =>
      right
      refine ⟨?_, hflipped⟩
      rw [hstate, targetsFor, if_neg (hs.flipped hflipped)]
      simp
    | false =>
      refine hbuilding ?_
      rw [hstate]
      exact hs.marked (rebuilding_of_dropped hdropped) hflipped

theorem Tracked.of_rebuild (hs : Tracked d entity id s) (hlog : t.log = s.log)
    (hworkers : t.workers = s.workers) (hdeliv : t.delivered = s.delivered)
    (hacked : t.acked = s.acked) (hbuild : buildTarget d t = buildTarget d s)
    (hheld : held d t ⟨entity.graphNode, id⟩ = held d s ⟨entity.graphNode, id⟩)
    (hflipped : s.phase.isFlipped → t.phase.isFlipped) (hdropped : dropped s.phase)
    (hupserts : ¬ Ahead entity id t.phase →
      (∀ e ∈ history aggregateOf s.log (entity.name, id), e.verb ≠ .deleted) →
      ∀ e ∈ history aggregateOf s.log (entity.name, id),
        Reached d t ⟨entity.graphNode, id⟩ e ∨ Owed d s e) : Tracked d entity id t := by
  have howed : ∀ e, Owed d s e → Owed d t e := fun e h => h.congr hacked hworkers hbuild hflipped
  constructor
  · rw [hlog, hheld]
    exact fun _ => hs.sound hdropped
  · rw [hlog]
    exact fun _ hahead hnone e he => (hupserts hahead hnone e he).imp_right (howed e)
  · rw [hlog, hdeliv, hheld]
    exact fun _ e he hverb hmem => (hs.deletes hdropped e he hverb hmem).imp_right (howed e)

theorem Tracked.of_workers (hs : Tracked d entity id s) (hlog : t.log = s.log)
    (hphase : t.phase = s.phase)
    (hgraph : held d t ⟨entity.graphNode, id⟩ = held d s ⟨entity.graphNode, id⟩)
    (howed : dropped s.phase → ∀ e, aggregateOf e = (entity.name, id) → Owed d s e → Owed d t e)
    (hdeliv : dropped s.phase → ∀ e, aggregateOf e = (entity.name, id) →
      e ∈ t.delivered → e ∈ s.delivered ∨ Owed d t e) : Tracked d entity id t := by
  have hreached : ∀ e, Reached d s ⟨entity.graphNode, id⟩ e →
      Reached d t ⟨entity.graphNode, id⟩ e := by
    intro e he
    rw [Reached, hgraph, hphase]
    exact he
  constructor
  · rw [hphase, hlog, hgraph]
    exact hs.sound
  · rw [hphase, hlog]
    intro hdropped hahead hnone e he
    exact (hs.upserts hdropped hahead hnone e he).imp (hreached e)
      (howed hdropped e (mem_history.mp he).2)
  · rw [hphase, hlog, hgraph]
    intro hdropped e he hverb hmem
    rcases hdeliv hdropped e (mem_history.mp he).2 hmem with hold | hnew
    · exact (hs.deletes hdropped e he hverb hold).imp_right (howed hdropped e (mem_history.mp he).2)
    · exact .inr hnew

theorem Tracked.of_not_dropped (h : dropped t.phase = false) : Tracked d entity id t := by
  constructor
  all_goals
    intro hdropped
    rw [h] at hdropped
    cases hdropped

variable {env : Envelope}

theorem tracked_commit (hc : Consistent d s) (hs : Tracked d entity id s)
    (hnext : nextVersion s.log (aggregateOf env) env.verb = some env.version) :
    Tracked d entity id { s with log := s.log ++ [env] } := by
  have hnew : env ∉ s.log := not_mem_of_nextVersion hc.log.ordered hnext
  have hold : ∀ e ∈ history aggregateOf (s.log ++ [env]) (entity.name, id),
      e ∈ history aggregateOf s.log (entity.name, id) ∨ e = env := by
    intro e he
    obtain ⟨hmem, hkey⟩ := mem_history.mp he
    rcases mem_append.mp hmem with hmem | hmem
    · exact .inl (mem_history.mpr ⟨hmem, hkey⟩)
    · exact .inr (mem_singleton.mp hmem)
  have hmono : ∀ e ∈ history aggregateOf s.log (entity.name, id),
      e ∈ history aggregateOf (s.log ++ [env]) (entity.name, id) :=
    (history_mono (prefix_append _ _)).subset
  constructor
  · intro hdropped
    refine (hs.sound hdropped).imp_right ?_
    rintro ⟨e, he, hrest⟩
    exact ⟨e, hmono e he, hrest⟩
  · intro hdropped hahead hnone e he
    rcases hold e he with he | rfl
    · exact hs.upserts hdropped hahead (fun f hf => hnone f (hmono f hf)) e he
    · -- nothing can have taken up the new event yet
      refine Or.inr ⟨fun hacked => hnew (hc.delivered _ (hc.acked _ hacked)), ?_⟩
      intro w j hj hevent
      exact absurd (hc.delivered _ (hc.jobs w j hj)) (hevent ▸ hnew)
  · intro hdropped e he hverb hmem
    rcases hold e he with he | rfl
    · exact hs.deletes hdropped e he hverb hmem
    · exact absurd (hc.delivered _ hmem) hnew

theorem tracked_deliver (hshown : Shown d entity) (hc : Consistent d s) (hs : Tracked d entity id s)
    {i : Nat} (hok : deliverOk s w) (h : deliver d s w i = some t) : Tracked d entity id t := by
  obtain ⟨env, hlog, hidle, ⟨hnone, rfl⟩ | rfl⟩ := deliver_eq_some h
  · have hne : ∀ e, aggregateOf e = (entity.name, id) → e ≠ env := by
      rintro e hown rfl
      exact hshown.graphApplier_ne hown hnone
    refine hs.of_workers rfl rfl rfl (fun _ e hown howed => ?_) fun _ e hown hmem => ?_
    · refine ⟨fun hacked => ?_, howed.2⟩
      exact (mem_cons.mp hacked).elim (hne e hown) howed.1
    · exact .inl ((mem_cons.mp hmem).resolve_left (hne e hown))
  · refine hs.of_workers rfl rfl rfl (fun hdropped e hown howed => ?_)
      fun hdropped e hown hmem => ?_
    · refine howed.of_worker howed.1 rfl rfl rfl fun j hj hevent => ?_
      cases hj
      exact feeds_deliver hc hok hdropped
    · by_cases hbefore : e ∈ s.delivered
      · exact .inl hbefore
      · -- the first delivery of the event
        have howed : Owed d s e := by
          refine ⟨fun hacked => hbefore (hc.acked e hacked), fun v j hj hevent => ?_⟩
          exact absurd (hevent ▸ hc.jobs v j hj) hbefore
        refine Or.inr (howed.of_worker howed.1 rfl rfl rfl fun j hj hevent => ?_)
        cases hj
        exact feeds_deliver hc hok hdropped

theorem tracked_ack (hs : Tracked d entity id s) (h : ack s w = some t) :
    Tracked d entity id t := by
  revert h
  fun_cases ack s w <;> rintro ⟨⟩
  rename_i env hjob
  refine hs.of_workers rfl rfl rfl (fun _ e _ howed => ?_) fun _ e _ hmem => .inl hmem
  -- a worker whose event is owed has a target left
  have hne : e ≠ env := by
    rintro rfl
    rcases howed.2 w _ hjob rfl with hnamed | ⟨hlive, -⟩
    · simp at hnamed
    · simp at hlive
  refine howed.of_worker (fun hacked => ?_) rfl rfl rfl fun j hj => ?_
  · exact (mem_cons.mp hacked).elim hne howed.1
  · cases hj

theorem tracked_crash (hs : Tracked d entity id s) :
    Tracked d entity id { s with workers := put s.workers w {} } := by
  refine hs.of_workers rfl rfl rfl (fun _ e _ howed => ?_) fun _ e _ hmem => .inl hmem
  exact howed.of_worker howed.1 rfl rfl rfl fun j hj => absurd hj.symm (some_ne_none _)

theorem Tracked.numeric (hs : Tracked d entity id s) (hdropped : dropped s.phase) :
    held d s ⟨entity.graphNode, id⟩ = none ∨
      ∃ m : Int, held d s ⟨entity.graphNode, id⟩ = some (.num m) :=
  (hs.sound hdropped).imp_right fun ⟨e, _, _, hheld⟩ => ⟨e.version, hheld⟩

theorem Tracked.of_upsert (hshown : Shown d entity) (hs : Tracked d entity id s) {e₀ : Envelope}
    (hown : aggregateOf env = (entity.name, id)) (hverb : env.verb ≠ .deleted)
    (hpos : 0 < env.version) (hstamp : env.payload.lookup columnVersion = some (.num env.version))
    (hmem : e₀ ∈ history aggregateOf s.log (entity.name, id)) (hupsert : e₀.verb ≠ .deleted)
    (hversion : e₀.version = env.version) (hclear : deleteAhead s env) (hdropped : dropped s.phase)
    (hstep : handle d.reg (s.graph (buildTarget d s)) env = some (t.graph (buildTarget d t)))
    (hlog : t.log = s.log) (hdeliv : t.delivered = s.delivered)
    (hahead : ¬ Ahead entity id t.phase → ¬ Ahead entity id s.phase)
    (hpage : ∀ row ∈ pageOf s.phase, row ∈ pageOf t.phase ∨ row.version ≤ env.version)
    (howed : ∀ e, Owed d s e → Owed d t e ∨ e.version ≤ env.version) : Tracked d entity id t := by
  obtain ⟨n, hheld, hle, hfrom, hmax⟩ := hshown.heldVersion_upsert hown hverb hpos hstamp
    (hs.numeric hdropped) hstep
  have hreached : ∀ e : Envelope, e.version ≤ env.version → Reached d t ⟨entity.graphNode, id⟩ e :=
    fun e he => .inl ⟨n, he.trans hle, hheld⟩
  constructor
  · intro _
    right
    rw [hlog]
    rcases hfrom with rfl | hold
    · exact ⟨e₀, hmem, hupsert, hversion ▸ hheld⟩
    · rcases hs.sound hdropped with hnone | ⟨e, he, hrest, heq⟩
      · exact absurd (hold.symm.trans hnone) (some_ne_none _)
      · exact ⟨e, he, hrest, hheld.trans (hold.symm.trans heq)⟩
  · rw [hlog]
    intro _ hnot hnone e he
    rcases hs.upserts hdropped (hahead hnot) hnone e he with hreach | hold
    · left
      rcases hreach with ⟨m, hm, heq⟩ | ⟨row, hrow, hkey, hv⟩
      · exact .inl ⟨n, hm.trans (hmax m heq), hheld⟩
      · rcases hpage row hrow with hrow | hrow
        · exact .inr ⟨row, hrow, hkey, hv⟩
        · exact hreached e (hv.trans hrow)
    · exact (howed e hold).symm.imp_left (hreached e)
  · rw [hlog, hdeliv]
    intro _ e he hdeleted hmem'
    exact absurd ((mem_history.mp he).2.trans hown.symm) (hclear e hmem' hdeleted)

end Fabriq.Projection.RebuildSafety
