import Fabriq.Projection.Reconcile

namespace Fabriq.Projection.DriftRepair

open Core.Schema Exec.CommandStore Exec.Outbox Exec.OutboxVersions Exec.Repair Lib.Assoc
open List Option
open Lib.Result Lib.Upsert Projection.Applier Projection.GraphStore Projection.GraphWrites
open Projection.NodeVersion Projection.Reconcile
open Exec.Relay (eligible)
open Projection.Rebuild (aggregateOf)
open Projection.RebuildSafety (Shown)

/-- What registration, the constraints of the tables and the writers of the graph keep: the
entities have their own names, the rows their own ids and a version that they hold as a column,
there is one event for a version, a node has a whole version or none, and minted ids are new.
Registration does not look at graph labels: that no two entities share one and that they and the
relations are identifiers is asked of the specs. -/
structure Sound (r : Reconciler) (s : State) : Prop where
  names : (r.reg.map Entity.name).Nodup
  valid : r.reg.validate = true
  labels : ∀ a ∈ r.reg, ∀ b ∈ r.reg, a.graphNode ≠ "" → a.graphNode = b.graphNode →
    a.name = b.name
  kinds : ∀ ent ∈ r.reg, ent.graphNode ≠ "" → ent.graphEdge = none
  idents : ∀ ent ∈ r.reg, ent.graphNode ≠ "" →
    validIdent ent.graphNode = true ∧ ∀ edge ∈ ent.edges, validIdent edge.rel = true
  columns : ∀ ent ∈ r.reg, included ent = true → columnVersion ∈ ent.columns
  keys : (s.rows.map rowKey).Nodup
  rows : ∀ row ∈ s.rows, row.id ≠ "" ∧ 0 < row.version ∧
    row.vals.lookup columnVersion = some (.num row.version)
  changes : (s.records.map recordChange).Nodup
  nodes : ∀ key, heldVersion s.graph key = none ∨
    ∃ m : Int, heldVersion s.graph key = some (.num m)
  fresh : ∀ d ∈ drifts r s, r.mint d ∉ s.records.map Record.id
  minted : ((drifts r s).map r.mint).Nodup

variable {g : Graph} {label id tenant entity : String} {rows : List StoredRow} {v : Int}

theorem intVersion_intCast (m : Int) : intVersion (.num m) = some m := by
  simp [intVersion]

theorem mem_nodeIds_of_projected (hid : id ≠ "")
    (h : projectedVersion g ⟨label, id⟩ = some v) : id ∈ nodeIds g label := by
  obtain ⟨held, hheld, -⟩ := Option.bind_eq_some_iff.mp h
  obtain ⟨props, hprops, -⟩ := bind_eq_some_iff.mp hheld
  rw [nodeIds, List.mem_dedup, List.mem_map]
  refine ⟨⟨label, id⟩, mem_filter.mpr ⟨?_, by simpa using hid⟩, rfl⟩
  exact mem_map_of_mem (mem_of_lookup hprops)

theorem mem_projectedVersions :
    (id, v) ∈ projectedVersions g label ↔ id ≠ "" ∧ projectedVersion g ⟨label, id⟩ = some v := by
  simp only [projectedVersions, mem_filterMap, map_eq_some_iff, Prod.mk.injEq]
  constructor
  · rintro ⟨_, hmem, _, hv, rfl, rfl⟩
    rw [nodeIds, List.mem_dedup, List.mem_map] at hmem
    obtain ⟨key, hkey, rfl⟩ := hmem
    have hchecked := (mem_filter.mp hkey).2
    simp only [Bool.and_eq_true, bne_iff_ne] at hchecked
    exact ⟨hchecked.2, hv⟩
  · rintro ⟨hid, hv⟩
    exact ⟨id, mem_nodeIds_of_projected hid hv, v, hv, rfl, rfl⟩

theorem nodup_projectedVersions : ((projectedVersions g label).map Prod.fst).Nodup := by
  have hsub : ((projectedVersions g label).map Prod.fst).Sublist ((nodeIds g label).map id) := by
    refine map_filterMap_sublist fun id e he => ?_
    obtain ⟨v, -, rfl⟩ := map_eq_some_iff.mp he
    rfl
  rw [List.map_id] at hsub
  exact (List.nodup_dedup _).sublist hsub

theorem lookup_projectedVersions (hid : id ≠ "") :
    (projectedVersions g label).lookup id = projectedVersion g ⟨label, id⟩ := by
  refine ext fun v => ?_
  rw [lookup_eq_some_iff nodup_projectedVersions, mem_projectedVersions]
  exact and_iff_right hid

theorem mem_truthVersions : (id, v) ∈ truthVersions rows tenant entity ↔
      ∃ row ∈ rows, rowIdentity row = (tenant, entity, id) ∧ row.version = v := by
  simp only [truthVersions, List.mem_map, List.mem_filter, Bool.and_eq_true, beq_iff_eq,
    Prod.mk.injEq, rowIdentity]
  constructor
  · rintro ⟨row, ⟨hrow, htenant, hentity⟩, hid, hversion⟩
    exact ⟨row, hrow, ⟨htenant, hentity, hid⟩, hversion⟩
  · rintro ⟨row, hrow, ⟨htenant, hentity, hid⟩, hversion⟩
    exact ⟨row, ⟨hrow, htenant, hentity⟩, hid, hversion⟩

theorem nodup_truthVersions (h : (rows.map rowKey).Nodup) :
    ((truthVersions rows tenant entity).map Prod.fst).Nodup := by
  rw [truthVersions, List.map_map]
  have hrows : (rows.filter fun r => r.tenant == tenant && r.entity == entity).Nodup :=
    (List.Nodup.of_map _ h).filter _
  refine List.Nodup.map_on (fun a ha b hb hid => ?_) hrows
  have hentity : ∀ x ∈ rows.filter fun r => r.tenant == tenant && r.entity == entity,
      x.entity = entity := by
    intro x hx
    have hchecked := (mem_filter.mp hx).2
    simp only [Bool.and_eq_true, beq_iff_eq] at hchecked
    exact hchecked.2
  refine inj_on_of_nodup_map h (mem_of_mem_filter ha) (mem_of_mem_filter hb) ?_
  exact Prod.ext ((hentity a ha).trans (hentity b hb).symm) hid

theorem lookup_truthVersions (h : (rows.map rowKey).Nodup) :
    (truthVersions rows tenant entity).lookup id = some v ↔
      ∃ row ∈ rows, rowIdentity row = (tenant, entity, id) ∧ row.version = v := by
  rw [lookup_eq_some_iff (nodup_truthVersions h), mem_truthVersions]

def rowDrift (s : State) (ent : Entity) (row : StoredRow) : Drift :=
  ⟨ent.name, row.id, row.version, (projectedVersion s.graph ⟨ent.graphNode, row.id⟩).getD 0⟩

theorem rowDrift_aggId (s : State) (ent : Entity) (row : StoredRow) :
    (rowDrift s ent row).aggId = row.id :=
  rfl

inductive Drifted (r : Reconciler) (s : State) (ent : Entity) : Drift → Prop
  | row (row : StoredRow) (hrow : row ∈ s.rows)
      (hid : rowIdentity row = (r.tenant, ent.name, row.id))
      (hlt : (projectedVersion s.graph ⟨ent.graphNode, row.id⟩).getD 0 < row.version) :
      Drifted r s ent (rowDrift s ent row)
  | zombie (id : String) (v : Int) (hid : id ≠ "")
      (hheld : projectedVersion s.graph ⟨ent.graphNode, id⟩ = some v)
      (hgone : ∀ row ∈ s.rows, rowIdentity row ≠ (r.tenant, ent.name, id)) :
      Drifted r s ent ⟨ent.name, id, 0, v⟩

variable {r : Reconciler} {s : State} {ent : Entity} {d d' : Drift}

section

variable (h : Sound r s)
include h

theorem isNone_truthVersions : ((truthVersions s.rows r.tenant ent.name).lookup id).isNone ↔
      ∀ row ∈ s.rows, rowIdentity row ≠ (r.tenant, ent.name, id) := by
  rw [isNone_iff_eq_none, eq_none_iff_forall_ne_some]
  constructor
  · intro hnone row hrow hid
    exact hnone row.version ((lookup_truthVersions h.keys).mpr ⟨row, hrow, hid, rfl⟩)
  · intro hgone v hv
    obtain ⟨row, hrow, hid, -⟩ := (lookup_truthVersions h.keys).mp hv
    exact hgone row hrow hid

theorem mem_entityDrifts : d ∈ entityDrifts r.tenant s ent ↔ Drifted r s ent d := by
  simp only [entityDrifts, mem_append, mem_filterMap, ite_none_right_eq_some,
    some.injEq, Prod.exists]
  constructor
  · rintro (⟨id, v, hmem, hlt, rfl⟩ | ⟨id, v, hmem, hnone, rfl⟩)
    · obtain ⟨row, hrow, hid, rfl⟩ := mem_truthVersions.mp hmem
      obtain rfl : row.id = id := congrArg (fun k => k.2.2) hid
      rw [lookup_projectedVersions (h.rows row hrow).1] at hlt ⊢
      exact .row row hrow hid hlt
    · obtain ⟨hid, hheld⟩ := mem_projectedVersions.mp hmem
      exact .zombie id v hid hheld ((isNone_truthVersions h).mp hnone)
  · rintro (⟨row, hrow, hid, hlt⟩ | ⟨id, v, hid, hheld, hgone⟩)
    · rw [rowDrift]
      rw [← lookup_projectedVersions (h.rows row hrow).1] at hlt ⊢
      exact .inl ⟨row.id, row.version, mem_truthVersions.mpr ⟨row, hrow, hid, rfl⟩, hlt, rfl⟩
    · exact .inr ⟨id, v, mem_projectedVersions.mpr ⟨hid, hheld⟩,
        (isNone_truthVersions h).mpr hgone, rfl⟩

theorem mem_drifts : d ∈ drifts r s ↔ ∃ ent ∈ r.reg, included ent ∧ Drifted r s ent d := by
  rw [drifts, mem_insertionSort, mem_flatMap]
  refine exists_congr fun ent => ?_
  rw [mem_filter, mem_entityDrifts h, and_assoc]

omit h in
theorem Drifted.entity_eq (hd : Drifted r s ent d) : d.entity = ent.name := by
  cases hd <;> rfl

theorem drifted_of_entity (hent : ent ∈ r.reg) (hd : d ∈ drifts r s)
    (hentity : d.entity = ent.name) : Drifted r s ent d := by
  obtain ⟨other, hother, -, hdrift⟩ := (mem_drifts h).mp hd
  obtain rfl := inj_on_of_nodup_map h.names hother hent (hdrift.entity_eq.symm.trans hentity)
  exact hdrift

theorem row_unique {row row' : StoredRow} (hrow : row ∈ s.rows)
    (hrow' : row' ∈ s.rows) (hid : rowIdentity row = rowIdentity row') : row = row' :=
  inj_on_of_nodup_map h.keys hrow hrow' (congrArg Prod.snd hid)

theorem drift_unique (hd : d ∈ drifts r s) (hd' : d' ∈ drifts r s)
    (hentity : d.entity = d'.entity) (haggId : d.aggId = d'.aggId) : d = d' := by
  obtain ⟨ent, hent, -, hdrift⟩ := (mem_drifts h).mp hd
  have hdrift' := drifted_of_entity h hent hd' (hentity.symm.trans hdrift.entity_eq)
  cases hdrift with
  | row row hrow hid hlt =>
    cases hdrift' with
    | row row' hrow' hid' hlt' =>
      rw [row_unique h hrow hrow' (hid.trans ((show row.id = row'.id from haggId) ▸ hid'.symm))]
    | zombie id v hne hheld hgone =>
      exact absurd ((show row.id = id from haggId) ▸ hid) (hgone row hrow)
  | zombie id v hne hheld hgone =>
    cases hdrift' with
    | row row' hrow' hid' hlt' =>
      exact absurd hid' ((show id = row'.id from haggId) ▸ hgone row' hrow')
    | zombie id' v' hne' hheld' hgone' =>
      obtain rfl : id = id' := haggId
      rw [some.inj (hheld.symm.trans hheld')]

theorem nodup_driftChange : ((drifts r s).map (driftChange r.tenant)).Nodup := by
  refine List.Nodup.map_on (fun d hd d' hd' heq => ?_) (List.Nodup.of_map _ h.minted)
  simp only [driftChange, Prod.mk.injEq, true_and] at heq
  exact drift_unique h hd hd' heq.1.1 heq.1.2

end

variable {records after news : List Record} {new row : Record}

/-- The row that `Repair` inserts for a drift, or changes an event to. -/
def repairNew (r : Reconciler) (rows : List StoredRow) (d : Drift) : Option Record :=
  (repairEvent r.reg rows r.tenant d).map (repairRecord (r.mint d) r.now)

theorem recordChange_repairNew (h : repairNew r rows d = some new) :
    recordChange new = driftChange r.tenant d := by
  obtain ⟨row, hrow, rfl⟩ := map_eq_some_iff.mp h
  unfold repairEvent at hrow
  split_ifs at hrow with htruth
  · obtain ⟨vals, -, rfl⟩ := map_eq_some_iff.mp hrow
    rw [driftChange, if_pos htruth]
    rfl
  · cases hrow
    rw [driftChange, if_neg htruth]
    rfl

theorem recordChange_republish (old new : Record) :
    recordChange (republish old new) = recordChange old :=
  rfl

theorem mem_ids_upsertRecord (h : id ∈ (upsertRecord records new).map Record.id) :
    id ∈ records.map Record.id ∨ id = new.id := by
  obtain ⟨row, hrow, rfl⟩ := mem_map.mp h
  rcases mem_upsert.mp hrow with ⟨hold, -⟩ | ⟨old, hold, -, rfl⟩ | ⟨-, rfl⟩
  · exact .inl (mem_map_of_mem hold)
  · exact .inl (mem_map.mpr ⟨old, hold, rfl⟩)
  · exact .inr rfl

theorem foldlM_repair {ds : List Drift} (hfresh : ∀ d ∈ ds, r.mint d ∉ records.map Record.id)
    (hminted : (ds.map r.mint).Nodup) :
    ds.foldlM (repair r rows) records =
      (ds.mapM (repairNew r rows)).map (upsertAll recordChange republish records) := by
  induction ds generalizing records with
  | nil => rfl
  | cons d rest ih =>
    rw [map_cons, nodup_cons] at hminted
    rw [foldlM_cons, mapM_cons]
    cases hevent : repairEvent r.reg rows r.tenant d with
    | none => simp [repair, repairNew, hevent]
    | some row =>
      have hnew : repairNew r rows d = some (repairRecord (r.mint d) r.now row) := by
        rw [repairNew, hevent]
        rfl
      have hid : (repairRecord (r.mint d) r.now row).id ∉ records.map _ :=
        hfresh d mem_cons_self
      have hstep : repair r rows records d =
          some (upsertRecord records (repairRecord (r.mint d) r.now row)) := by
        rw [repair, hevent, bind_some, if_pos (.inr hid)]
      rw [hstep, hnew]
      refine (ih (fun e he hmem => ?_) hminted.2).trans ?_
      · rcases mem_ids_upsertRecord hmem with hold | heq
        · exact hfresh e (mem_cons_of_mem d he) hold
        · have hsame : r.mint e = r.mint d := heq
          exact hminted.1 (hsame ▸ mem_map_of_mem he)
      · cases rest.mapM (repairNew r rows) <;> rfl

theorem reconcile_eq (h : Sound r s) : reconcile r s =
      ((drifts r s).mapM (repairNew r s.rows)).map (upsertAll recordChange republish s.records) :=
  foldlM_repair h.fresh h.minted

abbrev Planned (r : Reconciler) (s : State) (news : List Record) : Prop :=
  (drifts r s).mapM (repairNew r s.rows) = some news

abbrev Published (r : Reconciler) (s : State) (news : List Record) (g : Graph) : Prop :=
  (queued r s (upsertAll recordChange republish s.records news)).foldlM (handle r.reg) s.graph =
    some g

abbrev Gone (r : Reconciler) (s : State) (ent : Entity) (id : String) : Prop :=
  ∀ row ∈ s.rows, rowIdentity row ≠ (r.tenant, ent.name, id)

structure Stale (r : Reconciler) (s : State) (ent : Entity) (row : StoredRow) : Prop where
  mem : row ∈ s.rows
  id : rowIdentity row = (r.tenant, ent.name, row.id)
  lt : (projectedVersion s.graph ⟨ent.graphNode, row.id⟩).getD 0 < row.version

theorem map_recordChange_news (hnews : Planned r s news) :
    news.map recordChange = (drifts r s).map (driftChange r.tenant) :=
  map_of_mapM (fun _ _ => recordChange_repairNew) hnews

theorem mem_repaired (h : Sound r s) (hnews : Planned r s news) :
    row ∈ upsertAll recordChange republish s.records news ↔
      (row ∈ s.records ∧ recordChange row ∉ (drifts r s).map (driftChange r.tenant)) ∨
        ∃ d ∈ drifts r s, ∃ new, repairNew r s.rows d = some new ∧
          ((∃ old ∈ s.records, recordChange old = driftChange r.tenant d ∧
            row = republish old new) ∨
          (driftChange r.tenant d ∉ s.records.map recordChange ∧ row = new)) := by
  have hkeys := map_recordChange_news hnews
  have hnodup : (news.map _).Nodup := hkeys ▸ nodup_driftChange h
  rw [mem_upsertAll recordChange_republish hnodup, hkeys]
  refine or_congr_right ?_
  constructor
  · rintro (⟨new, hnew, old, hold, hsame, rfl⟩ | ⟨new, hnew, habsent, rfl⟩)
    · obtain ⟨d, hd, hdnew⟩ := (mem_of_mapM hnews).mp hnew
      exact ⟨d, hd, new, hdnew, Or.inl ⟨old, hold, hsame.trans (recordChange_repairNew hdnew), rfl⟩⟩
    · obtain ⟨d, hd, hdnew⟩ := (mem_of_mapM hnews).mp hnew
      exact ⟨d, hd, row, hdnew, .inr ⟨recordChange_repairNew hdnew ▸ habsent, rfl⟩⟩
  · rintro ⟨d, hd, new, hdnew, ⟨old, hold, hsame, rfl⟩ | ⟨habsent, rfl⟩⟩
    · exact .inl ⟨new, (mem_of_mapM hnews).mpr ⟨d, hd, hdnew⟩, old, hold,
        hsame.trans (recordChange_repairNew hdnew).symm, rfl⟩
    · exact .inr ⟨row, (mem_of_mapM hnews).mpr ⟨d, hd, hdnew⟩,
        (recordChange_repairNew hdnew).symm ▸ habsent, rfl⟩

variable {e : Envelope} {es : List Envelope}

section

variable {h : Graph}

theorem Sound.get (hs : Sound r s) (hent : ent ∈ r.reg) : r.reg.get ent.name = some ent := by
  have hsome : (r.reg.get ent.name).isSome := find?_isSome.mpr ⟨ent, hent, by simp⟩
  obtain ⟨found, hfound⟩ := isSome_iff_exists.mp hsome
  have hmem : found ∈ r.reg := mem_of_find?_eq_some hfound
  rw [hfound, inj_on_of_nodup_map hs.names hmem hent (Registry.name_of_get hfound)]

theorem Sound.shown (hs : Sound r s) (hent : ent ∈ r.reg) (hincluded : included ent) :
    Shown ⟨r.reg, r.tenant⟩ ent := by
  rw [included, Bool.and_eq_true, bne_iff_ne] at hincluded
  exact ⟨hs.valid, hs.labels, hs.get hent, hincluded.1, hs.kinds ent hent hincluded.2, hincluded.2⟩

theorem isSome_applyMutations {muts : List Mutation}
    (hall : ∀ m ∈ muts, ∀ g, (applyMutation g m).isSome) (g : Graph) :
    (applyMutations g muts).isSome := by
  induction muts generalizing g with
  | nil => rfl
  | cons m rest ih =>
    obtain ⟨h, hh⟩ := isSome_iff_exists.mp (hall m mem_cons_self g)
    rw [applyMutations, hh, bind_some]
    exact ih (fun m hm => hall m (mem_cons_of_mem _ hm)) h

theorem isSome_edgeOp (hs : Sound r s) (hent : ent ∈ r.reg) (hlabel : ent.graphNode ≠ "")
    {edge : EdgeSpec} (hedge : edge ∈ ent.edges) (g : Graph) :
    (applyMutation g (edgeOp r.reg ent e edge)).isSome := by
  obtain ⟨hnode, hrels⟩ := hs.idents ent hent hlabel
  have htargets := all_eq_true.mp (all_eq_true.mp hs.valid ent hent) edge hedge
  obtain ⟨target, hget, hgraph⟩ := (any_eq_true _ _).mp htargets
  have htarget : validIdent (targetLabel r.reg edge) := by
    rw [targetLabel, hget]
    exact (hs.idents target (mem_of_find?_eq_some hget) (by simpa using hgraph)).1
  unfold edgeOp
  split_ifs
  · simp [applyMutation, hrels edge hedge, hnode]
  · simp [applyMutation, hrels edge hedge, hnode, htarget]

theorem accepts_iff (hs : Sound r s) (hent : ent ∈ r.reg) (hincluded : included ent)
    (hagg : e.aggregate = ent.name) :
    accepts r.reg e ↔ e.verb = .deleted ∨ cypherParams (settable (nodeProps e)) := by
  have hshown := hs.shown hent hincluded
  have hget : r.reg.get _ = some ent := hagg ▸ hshown.get
  have hnode := (hs.idents ent hent hshown.label).1
  by_cases hverb : e.verb = .deleted
  · have happ : graphApplier r.reg e = some [.nodeDelete ent.graphNode e.aggId] := by
      simp only [graphApplier, hget, hshown.kind, if_neg hshown.label, hverb]
    rw [accepts, handle, happ]
    simp [applyMutations, applyMutation, hnode, hverb]
  · rw [accepts, handle, graphApplier_node hs.valid hget hshown.kind hshown.label hverb,
      or_iff_right hverb]
    cases hparams : cypherParams (settable (nodeProps e)) with
    | false => simp [applyMutations, applyMutation, hparams]
    | true =>
      refine iff_of_true (isSome_applyMutations (fun m hm g => ?_) _) rfl
      rcases mem_cons.mp hm with rfl | hm
      · simp [applyMutation, hnode, hparams]
      · obtain ⟨edge, hedge, rfl⟩ := mem_map.mp hm
        exact isSome_edgeOp hs hent hshown.label hedge g

theorem exists_handled (hes : ∀ e ∈ es, accepts r.reg e) (g : Graph) :
    ∃ h, es.foldlM (handle r.reg) g = some h := by
  induction es generalizing g with
  | nil => exact ⟨g, rfl⟩
  | cons e rest ih =>
    have he : (handle r.reg g e).isSome := (isSome_handle g).trans (hes e mem_cons_self)
    obtain ⟨next, hnext⟩ := isSome_iff_exists.mp he
    obtain ⟨h, hh⟩ := ih (fun e he => hes e (mem_cons_of_mem _ he)) next
    exact ⟨h, by rw [foldlM_cons, hnext]; exact hh⟩

section

variable (hshown : Shown ⟨r.reg, r.tenant⟩ ent)
include hshown

theorem held_of_other (hother : ∀ e ∈ es, aggregateOf e ≠ (ent.name, id))
    (hrun : es.foldlM (handle r.reg) g = some h) :
    heldVersion h ⟨ent.graphNode, id⟩ = heldVersion g ⟨ent.graphNode, id⟩ := by
  induction es generalizing g with
  | nil =>
    cases hrun
    rfl
  | cons e rest ih =>
    obtain ⟨next, hnext, hrest⟩ := bind_eq_some_iff.mp hrun
    rw [ih (fun e he => hother e (mem_cons_of_mem _ he)) hrest]
    exact hshown.heldVersion_other (hother e mem_cons_self) hnext

theorem held_of_only
    (hnodup : (es.map aggregateOf).Nodup) (he : e ∈ es) (hown : aggregateOf e = (ent.name, id))
    (hrun : es.foldlM (handle r.reg) g = some h) :
    ∃ before after, handle r.reg before e = some after ∧
      heldVersion before ⟨ent.graphNode, id⟩ = heldVersion g ⟨ent.graphNode, id⟩ ∧
      heldVersion h ⟨ent.graphNode, id⟩ = heldVersion after ⟨ent.graphNode, id⟩ := by
  obtain ⟨first, rest, rfl⟩ := append_of_mem he
  rw [map_append, map_cons, nodup_append] at hnodup
  rw [foldlM_append] at hrun
  obtain ⟨before, hfirst, hrun⟩ := bind_eq_some_iff.mp hrun
  obtain ⟨after, hstep, hrest⟩ := bind_eq_some_iff.mp hrun
  refine ⟨before, after, hstep, held_of_other hshown (fun d hd hsame => ?_) hfirst,
    held_of_other hshown (fun d hd hsame => ?_) hrest⟩
  · exact hnodup.2.2 _ (mem_map_of_mem hd) _ mem_cons_self (hsame.trans hown.symm)
  · refine (nodup_cons.mp hnodup.2.1).1 (mem_map.mpr ⟨d, hd, ?_⟩)
    exact hsame.trans hown.symm

theorem heldVersion_handle_empty
    (hown : aggregateOf e = (ent.name, id)) (hverb : e.verb ≠ .deleted) (hscope : e.scopeId = "")
    (hpayload : e.payload = []) (hstep : handle r.reg g e = some h) :
    heldVersion h ⟨ent.graphNode, id⟩ = heldVersion g ⟨ent.graphNode, id⟩ := by
  obtain ⟨hget, rfl⟩ := hshown.own hown
  rw [handle, graphApplier_node hshown.valid hget hshown.kind hshown.label hverb] at hstep
  obtain ⟨next, hupsert, hedges⟩ := bind_eq_some_iff.mp hstep
  obtain ⟨-, hupsert⟩ := ite_none_right_eq_some.mp hupsert
  cases hupsert
  have hedge : ∀ m ∈ ent.edges.map (edgeOp r.reg ent e),
      ownNode m ≠ some ⟨ent.graphNode, e.aggId⟩ := by
    intro m hm hnode
    obtain ⟨edge, -, rfl⟩ := mem_map.mp hm
    rw [ownNode_edgeOp] at hnode
    cases hnode
  rw [heldVersion_applyMutations hedges hedge, heldVersion, heldVersion, lookup_nodeUpsert rfl]
  have hsame : ∀ held : Fields,
      (if gate held e.version then setProps (settable (nodeProps e)) held else held) = held := by
    intro held
    rw [nodeProps, if_pos hscope, hpayload]
    exact ite_self held
  rw [hsame]
  cases g.nodes.lookup ⟨ent.graphNode, e.aggId⟩ <;> rfl

end

end

section

def repaired (r : Reconciler) (s : State) (d : Drift) (new : Record) : Record :=
  match s.records.find? fun old => recordChange old = driftChange r.tenant d with
  | some old => republish old new
  | none => new

theorem exists_repairNew (hnews : Planned r s news)
    (hd : d ∈ drifts r s) : ∃ new, repairNew r s.rows d = some new := by
  refine ne_none_iff_exists'.mp fun hnone => ?_
  exact absurd (hnews.symm.trans (mapM_eq_none hd hnone)) (some_ne_none news)

theorem mem_queued : e ∈ queued r s after ↔ ∃ row ∈ after, eligible row ∧
      recordChange row ∈ (drifts r s).map (driftChange r.tenant) ∧ e = relayed row := by
  simp only [queued, List.mem_map, List.mem_insertionSort, List.mem_filter, Bool.and_eq_true,
    decide_eq_true_eq]
  constructor
  · rintro ⟨row, ⟨hrow, helig, hchange⟩, rfl⟩
    exact ⟨row, hrow, helig, hchange, rfl⟩
  · rintro ⟨row, hrow, helig, hchange, rfl⟩
    exact ⟨row, ⟨hrow, helig, hchange⟩, rfl⟩

theorem repaired_cases : (∃ old ∈ s.records, recordChange old = driftChange r.tenant d ∧
        repaired r s d new = republish old new) ∨
      (∀ old ∈ s.records, recordChange old ≠ driftChange r.tenant d) ∧
        repaired r s d new = new := by
  unfold repaired
  split
  · rename_i old hold
    exact .inl ⟨old, mem_of_find?_eq_some hold, by simpa using find?_some hold, rfl⟩
  · rename_i hnone
    exact .inr ⟨fun old hold => by simpa using find?_eq_none.mp hnone old hold, rfl⟩

theorem repaired_spec (h : Sound r s) (hnews : Planned r s news) (hd : d ∈ drifts r s)
    (hnew : repairNew r s.rows d = some new) :
    repaired r s d new ∈ upsertAll recordChange republish s.records news ∧
      recordChange (repaired r s d new) = driftChange r.tenant d := by
  rw [mem_repaired h hnews]
  rcases repaired_cases with ⟨old, hold, hsame, heq⟩ | ⟨hnone, heq⟩
  · exact ⟨.inr ⟨d, hd, new, hnew, .inl ⟨old, hold, hsame, heq⟩⟩, heq ▸ hsame⟩
  · refine ⟨.inr ⟨d, hd, new, hnew, .inr ⟨fun hmem => ?_, heq⟩⟩, ?_⟩
    · obtain ⟨old, hold, hsame⟩ := mem_map.mp hmem
      exact hnone old hold hsame
    · rw [heq, recordChange_repairNew hnew]

theorem eq_repaired (h : Sound r s) (hnews : Planned r s news) (hd : d ∈ drifts r s)
    (hnew : repairNew r s.rows d = some new)
    (hrow : row ∈ upsertAll recordChange republish s.records news)
    (hchange : recordChange row = driftChange r.tenant d) : row = repaired r s d new := by
  obtain ⟨hmem, hsame⟩ := repaired_spec h hnews hd hnew
  exact inj_on_of_nodup_map (nodup_upsertAll recordChange_republish h.changes) hrow hmem
    (hchange.trans hsame.symm)

theorem drift_of_queued (he : e ∈ queued r s after) :
    ∃ row ∈ after, eligible row ∧ e = relayed row ∧ ∃ d ∈ drifts r s,
      recordChange row = driftChange r.tenant d ∧ aggregateOf e = (d.entity, d.aggId) := by
  obtain ⟨row, hrow, helig, hchange, rfl⟩ := mem_queued.mp he
  obtain ⟨d, hd, hsame⟩ := mem_map.mp hchange
  refine ⟨row, hrow, helig, rfl, d, hd, hsame.symm, ?_⟩
  exact congrArg (fun c : Change => c.1.2) hsame.symm

theorem nodup_queued (h : Sound r s) (news : List Record) :
    ((queued r s (upsertAll recordChange republish s.records news)).map aggregateOf).Nodup := by
  have hkeys : ((upsertAll recordChange republish s.records news).map _).Nodup :=
    nodup_upsertAll recordChange_republish h.changes
  rw [queued, List.map_map]
  refine ((List.perm_insertionSort _ _).map _).nodup_iff.mpr ?_
  refine List.Nodup.map_on (fun a ha b hb hsame => ?_) ((List.Nodup.of_map _ hkeys).filter _)
  obtain ⟨hmema, hchecka⟩ := mem_filter.mp ha
  obtain ⟨hmemb, hcheckb⟩ := mem_filter.mp hb
  simp only [Bool.and_eq_true, decide_eq_true_eq] at hchecka hcheckb
  obtain ⟨d, hd, hda⟩ := List.mem_map.mp hchecka.2
  obtain ⟨d', hd', hdb⟩ := List.mem_map.mp hcheckb.2
  have hleft : (d.entity, d.aggId) = aggregateOf (relayed a) :=
    congrArg (fun c : Change => c.1.2) hda
  have hright : (d'.entity, d'.aggId) = aggregateOf (relayed b) :=
    congrArg (fun c : Change => c.1.2) hdb
  obtain ⟨hentity, haggId⟩ := Prod.mk.inj (hleft.trans (hsame.trans hright.symm))
  obtain rfl := drift_unique h hd hd' hentity haggId
  exact inj_on_of_nodup_map hkeys hmema hmemb (hda.symm.trans hdb)

theorem held_of_undrifted (h : Sound r s) (hent : ent ∈ r.reg) (hincluded : included ent)
    (hnone : ∀ d ∈ drifts r s, ¬ (d.entity = ent.name ∧ d.aggId = id))
    (hrun : (queued r s after).foldlM (handle r.reg) s.graph = some g) :
    heldVersion g ⟨ent.graphNode, id⟩ = heldVersion s.graph ⟨ent.graphNode, id⟩ := by
  refine held_of_other (h.shown hent hincluded) (fun e he hown => ?_) hrun
  obtain ⟨row, -, -, -, d, hd, -, hagg⟩ := drift_of_queued he
  exact hnone d hd (Prod.mk.inj (hagg.symm.trans hown))

section

variable (h : Sound r s) (hnews : Planned r s news)
  (hent : ent ∈ r.reg) (hincluded : included ent = true) (hdrift : Drifted r s ent d)
  (hnew : repairNew r s.rows d = some new)
  (hrun : Published r s news g)
include h hnews hent hincluded hdrift hnew hrun

theorem held_of_ineligible (helig : eligible (repaired r s d new) = false) :
    heldVersion g ⟨ent.graphNode, d.aggId⟩ = heldVersion s.graph ⟨ent.graphNode, d.aggId⟩ := by
  have hd : d ∈ drifts r s := (mem_drifts h).mpr ⟨ent, hent, hincluded, hdrift⟩
  refine held_of_other (h.shown hent hincluded) (fun e he hown => ?_) hrun
  obtain ⟨row, hrow, hrowelig, -, d', hd', hchange, hagg⟩ := drift_of_queued he
  obtain ⟨hentity, haggId⟩ := Prod.mk.inj (hagg.symm.trans hown)
  obtain rfl := drift_unique h hd' hd (hentity.trans hdrift.entity_eq.symm) haggId
  rw [eq_repaired h hnews hd hnew hrow hchange, helig] at hrowelig
  cases hrowelig

section

variable (helig : eligible (repaired r s d new))
include helig

theorem held_of_eligible :
    ∃ before after, handle r.reg before (relayed (repaired r s d new)) = some after ∧
      heldVersion before ⟨ent.graphNode, d.aggId⟩ = heldVersion s.graph ⟨ent.graphNode, d.aggId⟩ ∧
      heldVersion g ⟨ent.graphNode, d.aggId⟩ = heldVersion after ⟨ent.graphNode, d.aggId⟩ ∧
      aggregateOf (relayed (repaired r s d new)) = (ent.name, d.aggId) := by
  have hd : d ∈ drifts r s := (mem_drifts h).mpr ⟨ent, hent, hincluded, hdrift⟩
  obtain ⟨hmem, hchange⟩ := repaired_spec h hnews hd hnew
  have hown : aggregateOf (relayed (repaired r s d new)) = (ent.name, d.aggId) := by
    rw [← hdrift.entity_eq]
    exact congrArg (fun c : Change => c.1.2) hchange
  have htarget : recordChange (repaired r s d new) ∈ (drifts r s).map (driftChange r.tenant) := by
    rw [hchange]
    exact mem_map_of_mem hd
  have hqueued := mem_queued.mpr ⟨_, hmem, helig, htarget, rfl⟩
  obtain ⟨before, after, hstep, hbefore, hafter⟩ := held_of_only (h.shown hent hincluded)
    (nodup_queued h news) hqueued hown hrun
  exact ⟨before, after, hstep, hbefore, hafter, hown⟩

theorem held_of_deleted (hverb : (repaired r s d new).verb = .deleted) :
    heldVersion g ⟨ent.graphNode, d.aggId⟩ = none := by
  obtain ⟨before, after, hstep, -, hafter, hown⟩ :=
    held_of_eligible h hnews hent hincluded hdrift hnew hrun helig
  rw [hafter]
  exact (h.shown hent hincluded).heldVersion_delete hown hverb hstep

theorem held_of_emptied
    (hverb : (repaired r s d new).verb ≠ .deleted) (hpayload : (repaired r s d new).payload = []) :
    heldVersion g ⟨ent.graphNode, d.aggId⟩ = heldVersion s.graph ⟨ent.graphNode, d.aggId⟩ := by
  obtain ⟨before, after, hstep, hbefore, hafter, hown⟩ :=
    held_of_eligible h hnews hent hincluded hdrift hnew hrun helig
  rw [hafter, ← hbefore]
  exact heldVersion_handle_empty (h.shown hent hincluded) hown hverb rfl hpayload hstep

end

end

end

end Fabriq.Projection.DriftRepair
