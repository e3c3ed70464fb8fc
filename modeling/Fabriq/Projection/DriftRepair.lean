import Fabriq.Projection.DriftRepair.Events

namespace Fabriq.Projection.DriftRepair

open Core.Schema Exec.CommandStore Exec.Outbox Exec.OutboxVersions Exec.Repair Lib Lib.Assoc
open Lib.Result Lib.Upsert List Option
open Projection.GraphStore Projection.GraphWrites Projection.NodeVersion Projection.Reconcile
open Exec.Relay (eligible)

variable {g : Graph} {id tenant entity : String} {rows : List StoredRow} {v : Int} {r : Reconciler}
  {s : State} {ent : Entity} {d : Drift} {records after news : List Record} {new row : Record}
  {e : Envelope}

section

variable {row : StoredRow}

theorem payload_repaired : (repaired r s d new).payload = new.payload := by
  unfold repaired
  split <;> rfl

theorem eligible_republish (old new : Record) :
    eligible (republish old new) = old.erasedAt.isNone :=
  Bool.true_and _

theorem eligible_repairNew (h : repairNew r s.rows d = some new) : eligible new := by
  obtain ⟨row, -, rfl⟩ := map_eq_some_iff.mp h
  rfl

section

variable (h : Sound r s)
include h

theorem forall_repaired_iff (hnew : repairNew r s.rows d = some new)
    {P : Verb → Prop} (hP : P new.verb) :
    (eligible (repaired r s d new) ∧ P (repaired r s d new).verb) ↔
      ∀ old ∈ s.records, recordChange old = driftChange r.tenant d →
        old.erasedAt = none ∧ P old.verb := by
  rcases repaired_cases with ⟨old, hold, hsame, heq⟩ | ⟨hnone, heq⟩
  · rw [heq, eligible_republish, isNone_iff_eq_none]
    constructor
    · rintro holds other hother hchange
      rw [inj_on_of_nodup_map h.changes hother hold (hchange.trans hsame.symm)]
      exact holds
    · exact fun hall => hall old hold hsame
  · rw [heq]
    refine ⟨fun _ old hold hchange => absurd hchange (hnone old hold), fun _ => ?_⟩
    exact ⟨eligible_repairNew hnew, hP⟩

omit h in
theorem projectedVersion_congr {h : Graph} {key : NodeKey}
    (heq : heldVersion g key = heldVersion h key) :
    projectedVersion g key = projectedVersion h key := by
  rw [projectedVersion, heq, projectedVersion]

theorem rowValues_eq (hent : ent ∈ r.reg) (hrow : row ∈ s.rows)
    (hid : rowIdentity row = (r.tenant, ent.name, row.id)) :
    rowValues r.reg s.rows r.tenant ent.name row.id =
      if ent.dynamic then none else some (valuesByColumn ent row.vals) := by
  have hsome : (s.rows.find? fun x => rowIdentity x = (r.tenant, ent.name, row.id)).isSome :=
    find?_isSome.mpr ⟨row, hrow, by simpa using hid⟩
  obtain ⟨found, hfound⟩ := isSome_iff_exists.mp hsome
  have hsame : rowIdentity found = rowIdentity row := by
    rw [hid]
    simpa using find?_some hfound
  rw [rowValues, h.get hent, bind_some, hfound,
    row_unique h (mem_of_find?_eq_some hfound) hrow hsame]
  rfl

theorem repairNew_row (hent : ent ∈ r.reg) (hrow : row ∈ s.rows)
    (hid : rowIdentity row = (r.tenant, ent.name, row.id)) (projected : Int) :
    repairNew r s.rows ⟨ent.name, row.id, row.version, projected⟩ = if ent.dynamic then none
      else some (repairRecord (r.mint ⟨ent.name, row.id, row.version, projected⟩) r.now
        (rowEvent r.tenant ⟨ent.name, row.id, row.version, projected⟩
          (valuesByColumn ent row.vals))) := by
  rw [repairNew, repairEvent, if_pos (h.rows row hrow).2.1, rowValues_eq h hent hrow hid]
  split_ifs <;> rfl

omit h in
theorem repairNew_zombie (r : Reconciler) (s : State) (entity id : String) (v : Int) :
    ∃ new, repairNew r s.rows ⟨entity, id, 0, v⟩ = some new ∧ new.verb = .deleted ∧
      new.payload = [] :=
  ⟨_, rfl, rfl, rfl⟩

theorem lookup_rowValues (hent : ent ∈ r.reg) (hincluded : included ent)
    (hrow : row ∈ s.rows) (hdynamic : ent.dynamic = false) :
    (valuesByColumn ent row.vals).lookup columnVersion = some (.num row.version) := by
  rw [valuesByColumn, hdynamic, if_neg Bool.false_ne_true,
    Assoc.lookup_graph _ (h.columns ent hent hincluded), (h.rows row hrow).2.2]
  rfl

theorem driftChange_rowDrift (hrow : row ∈ s.rows)
    (hid : rowIdentity row = (r.tenant, ent.name, row.id)) :
    driftChange r.tenant (rowDrift s ent row) = (rowIdentity row, row.version) := by
  rw [driftChange, hid]
  exact congrArg (Prod.mk _) (if_pos (h.rows row hrow).2.1)

theorem undrifted_of_row (hent : ent ∈ r.reg) (hrow : row ∈ s.rows)
    (hid : rowIdentity row = (r.tenant, ent.name, row.id))
    (hle : row.version ≤ (projectedVersion s.graph ⟨ent.graphNode, row.id⟩).getD 0) :
    ∀ d ∈ drifts r s, ¬ (d.entity = ent.name ∧ d.aggId = row.id) := by
  rintro d hd ⟨hentity, haggId⟩
  cases drifted_of_entity h hent hd hentity with
  | row row' hrow' hid' hlt =>
    have hsame : row'.id = row.id := haggId
    rw [row_unique h hrow' hrow (hid'.trans (hsame ▸ hid.symm))] at hlt
    exact not_lt.mpr hle hlt
  | zombie id v hne hheld hgone =>
    have hsame : id = row.id := haggId
    exact hgone row hrow (hsame ▸ hid)

theorem undrifted_of_gone (hent : ent ∈ r.reg) (hgone : Gone r s ent id)
    (hnone : projectedVersion s.graph ⟨ent.graphNode, id⟩ = none) :
    ∀ d ∈ drifts r s, ¬ (d.entity = ent.name ∧ d.aggId = id) := by
  rintro d hd ⟨hentity, haggId⟩
  cases drifted_of_entity h hent hd hentity with
  | row row' hrow' hid' hlt =>
    have hsame : row'.id = id := haggId
    exact hgone row' hrow' (hsame ▸ hid')
  | zombie id' v hne hheld hgone' =>
    have hsame : id' = id := haggId
    rw [hsame, hnone] at hheld
    cases hheld

end

section

variable (h : Sound r s) (hnews : Planned r s news)
  (hent : ent ∈ r.reg) (hincluded : included ent = true)
include h hnews hent hincluded

theorem read_of_stale (hs : Stale r s ent row) :
    ent.dynamic = false ∧ ∃ new, repairNew r s.rows (rowDrift s ent row) = some new ∧
      new.verb = .updated ∧ new.payload = valuesByColumn ent row.vals := by
  have hdrift : Drifted r s ent (rowDrift s ent row) := .row row hs.mem hs.id hs.lt
  have hd := (mem_drifts h).mpr ⟨ent, hent, hincluded, hdrift⟩
  obtain ⟨new, hnew⟩ := exists_repairNew hnews hd
  have hread := hnew
  rw [rowDrift, repairNew_row h hent hs.mem hs.id] at hread
  cases hdynamic : ent.dynamic with
  | true =>
    rw [hdynamic, if_pos rfl] at hread
    cases hread
  | false =>
    rw [hdynamic, if_neg Bool.false_ne_true] at hread
    cases hread
    exact ⟨rfl, _, hnew, rfl, rfl⟩

variable (hrun : Published r s news g)
include hrun

theorem shown_of_upserted (hs : Stale r s ent row)
    (hnew : repairNew r s.rows (rowDrift s ent row) = some new)
    (hstamp : new.payload.lookup columnVersion = some (.num row.version))
    (helig : eligible (repaired r s (rowDrift s ent row) new))
    (hverb : (repaired r s (rowDrift s ent row) new).verb ≠ .deleted) :
    projectedVersion g ⟨ent.graphNode, row.id⟩ = some row.version := by
  have hdrift : Drifted r s ent (rowDrift s ent row) := .row row hs.mem hs.id hs.lt
  have hd := (mem_drifts h).mpr ⟨ent, hent, hincluded, hdrift⟩
  obtain ⟨before, after, hstep, hbefore, hafter, hown⟩ :=
    held_of_eligible h hnews hent hincluded hdrift hnew hrun helig
  rw [rowDrift_aggId] at hbefore hafter hown
  have hversion : (relayed (repaired r s (rowDrift s ent row) new)).version = row.version :=
    congrArg Prod.snd ((repaired_spec h hnews hd hnew).2.trans (driftChange_rowDrift h hs.mem hs.id))
  have hpayload : (relayed (repaired r s (rowDrift s ent row) new)).payload = new.payload :=
    payload_repaired
  obtain ⟨n, hn, hle, hfrom, -⟩ := (h.shown hent hincluded).heldVersion_upsert hown hverb
    (hversion.symm ▸ (h.rows row hs.mem).2.1) (hversion.symm ▸ hpayload.symm ▸ hstamp)
    (hbefore ▸ h.nodes _) hstep
  rw [hversion] at hle hfrom
  have hheld : projectedVersion g ⟨ent.graphNode, row.id⟩ = some n := by
    rw [projectedVersion, hafter, hn]
    exact intVersion_intCast n
  rcases hfrom with rfl | hold
  · exact hheld
  · rw [hbefore] at hold
    have hlt := hs.lt
    rw [projectedVersion, hold, bind_some, intVersion_intCast] at hlt
    exact absurd hlt (not_lt.mpr hle)

theorem stale_healed_iff (hs : Stale r s ent row) :
    projectedVersion g ⟨ent.graphNode, row.id⟩ = some row.version ↔
      ∀ old ∈ s.records, recordChange old = (rowIdentity row, row.version) →
        old.erasedAt = none ∧ old.verb ≠ .deleted := by
  obtain ⟨hdynamic, new, hnew, hverb, hpayload⟩ := read_of_stale h hnews hent hincluded hs
  have hdrift : Drifted r s ent (rowDrift s ent row) := .row row hs.mem hs.id hs.lt
  rw [← driftChange_rowDrift h hs.mem hs.id,
    ← forall_repaired_iff h hnew (P := fun verb => verb ≠ .deleted) (by rw [hverb]; decide)]
  constructor
  · intro hhealed
    have helig : eligible (repaired r s (rowDrift s ent row) new) := by
      by_contra hnot
      have hsame := held_of_ineligible h hnews hent hincluded hdrift hnew hrun
        (Bool.eq_false_iff.mpr hnot)
      rw [rowDrift_aggId] at hsame
      have hlt := hs.lt
      rw [← projectedVersion_congr hsame, hhealed] at hlt
      exact lt_irrefl _ hlt
    refine ⟨helig, fun hdeleted => ?_⟩
    have hnone := held_of_deleted h hnews hent hincluded hdrift hnew hrun helig hdeleted
    rw [rowDrift_aggId] at hnone
    rw [projectedVersion, hnone] at hhealed
    cases hhealed
  · rintro ⟨helig, hnot⟩
    exact shown_of_upserted h hnews hent hincluded hrun hs hnew
      (hpayload ▸ lookup_rowValues h hent hincluded hs.mem hdynamic) helig hnot

/-- The event of a row that was repaired has been rendered. -/
theorem rendered_of_stale (hs : Stale r s ent row)
    (hall : ∀ old ∈ s.records, recordChange old = (rowIdentity row, row.version) →
      old.erasedAt = none ∧ old.verb ≠ .deleted) :
    cypherParams (settable (valuesByColumn ent row.vals)) := by
  obtain ⟨-, new, hnew, hverb, hpayload⟩ := read_of_stale h hnews hent hincluded hs
  rw [← driftChange_rowDrift h hs.mem hs.id,
    ← forall_repaired_iff h hnew (P := fun verb => verb ≠ .deleted) (by rw [hverb]; decide)] at hall
  obtain ⟨before, after, hstep, -, -, hown⟩ := held_of_eligible h hnews hent hincluded
    (.row row hs.mem hs.id hs.lt) hnew hrun hall.1
  have haccepts : accepts r.reg (relayed (repaired r s (rowDrift s ent row) new)) := by
    rw [← isSome_handle before, hstep]
    rfl
  have hrendered := ((accepts_iff h hent hincluded (congrArg Prod.fst hown)).mp haccepts).resolve_left
    hall.2
  rw [← hpayload, ← payload_repaired]
  exact hrendered

theorem zombie_removed_iff (hne : id ≠ "")
    (hheld : projectedVersion s.graph ⟨ent.graphNode, id⟩ = some v) (hgone : Gone r s ent id) :
    projectedVersion g ⟨ent.graphNode, id⟩ = none ↔
      ∀ old ∈ s.records, recordChange old = ((r.tenant, ent.name, id), v + 1) →
        old.erasedAt = none ∧ old.verb = .deleted := by
  have hdrift : Drifted r s ent ⟨ent.name, id, 0, v⟩ := .zombie id v hne hheld hgone
  obtain ⟨new, hnew, hdelete, hempty⟩ := repairNew_zombie r s _ id v
  have hchange : driftChange r.tenant ⟨ent.name, id, 0, v⟩ = ((r.tenant, ent.name, id), v + 1) :=
    rfl
  rw [← hchange, ← forall_repaired_iff h hnew (P := fun verb => verb = .deleted) hdelete]
  constructor
  · intro hremoved
    have hkept : heldVersion g ⟨ent.graphNode, id⟩ ≠ heldVersion s.graph ⟨ent.graphNode, id⟩ := by
      intro hsame
      rw [← projectedVersion_congr hsame, hremoved] at hheld
      cases hheld
    have helig : eligible (repaired r s ⟨ent.name, id, 0, v⟩ new) := by
      by_contra hnot
      exact hkept (held_of_ineligible h hnews hent hincluded hdrift hnew hrun
        (Bool.eq_false_iff.mpr hnot))
    refine ⟨helig, by_contra fun hverb => hkept ?_⟩
    exact held_of_emptied h hnews hent hincluded hdrift hnew hrun helig hverb
      (payload_repaired.trans hempty)
  · rintro ⟨helig, hverb⟩
    have hnone : heldVersion g ⟨ent.graphNode, id⟩ = none :=
      held_of_deleted h hnews hent hincluded hdrift hnew hrun helig hverb
    rw [projectedVersion, hnone]
    rfl

theorem row_shown_iff (hrow : row ∈ s.rows) (hid : rowIdentity row = (r.tenant, ent.name, row.id)) :
    projectedVersion g ⟨ent.graphNode, row.id⟩ = some row.version ↔
      (projectedVersion s.graph ⟨ent.graphNode, row.id⟩).getD 0 ≤ row.version ∧
        ((projectedVersion s.graph ⟨ent.graphNode, row.id⟩).getD 0 < row.version →
          ∀ old ∈ s.records, recordChange old = (rowIdentity row, row.version) →
            old.erasedAt = none ∧ old.verb ≠ .deleted) := by
  rcases lt_or_ge ((projectedVersion s.graph ⟨ent.graphNode, row.id⟩).getD 0) row.version
    with hlt | hge
  · rw [stale_healed_iff h hnews hent hincluded hrun ⟨hrow, hid, hlt⟩]
    exact ⟨fun hall => ⟨hlt.le, fun _ => hall⟩, fun hall => hall.2 hlt⟩
  · rw [projectedVersion_congr (held_of_undrifted h hent hincluded
      (undrifted_of_row h hent hrow hid hge) hrun)]
    constructor
    · intro hheld
      rw [hheld]
      exact ⟨le_rfl, fun hlt => absurd hlt (lt_irrefl _)⟩
    · rintro ⟨hle, -⟩
      have hpos : 0 < row.version := (h.rows row hrow).2.1
      cases hheld : projectedVersion s.graph ⟨ent.graphNode, row.id⟩ with
      | none =>
        rw [hheld] at hge
        exact absurd hpos (not_lt.mpr hge)
      | some v =>
        rw [hheld] at hge hle
        exact congrArg some (le_antisymm hle hge)

theorem gone_removed_iff (hne : id ≠ "") (hgone : Gone r s ent id) :
    projectedVersion g ⟨ent.graphNode, id⟩ = none ↔
      ∀ v, projectedVersion s.graph ⟨ent.graphNode, id⟩ = some v →
        ∀ old ∈ s.records, recordChange old = ((r.tenant, ent.name, id), v + 1) →
          old.erasedAt = none ∧ old.verb = .deleted := by
  cases hheld : projectedVersion s.graph ⟨ent.graphNode, id⟩ with
  | none =>
    rw [projectedVersion_congr (held_of_undrifted h hent hincluded
      (undrifted_of_gone h hent hgone hheld) hrun), hheld]
    exact iff_of_true rfl fun v hv => absurd hv.symm (some_ne_none v)
  | some v =>
    rw [zombie_removed_iff h hnews hent hincluded hrun hne hheld hgone]
    refine ⟨fun hall w hw => ?_, fun hall => hall v rfl⟩
    cases hw
    exact hall

end

theorem unaltered_iff (h : Sound r s) (hnews : Planned r s news) :
    Unaltered s.rows s.records (upsertAll recordChange republish s.records news) ↔
      ∀ ent ∈ r.reg, included ent → ∀ id ≠ "", Gone r s ent id →
        ∀ v, projectedVersion s.graph ⟨ent.graphNode, id⟩ = some v →
          ∀ old ∈ s.records, recordChange old = ((r.tenant, ent.name, id), v + 1) →
            old.payload = [] := by
  constructor
  · intro hunalt ent hent hincluded id hne hgone v hheld old hold hchange
    have hd := (mem_drifts h).mpr ⟨ent, hent, hincluded, .zombie id v hne hheld hgone⟩
    obtain ⟨new, hnew, -, hempty⟩ := repairNew_zombie r s _ id v
    obtain ⟨kept, hkept, hsame, -, hpayload⟩ := hunalt old hold fun row hrow heq =>
      hgone row hrow (congrArg Prod.fst (heq.symm.trans hchange))
    rw [eq_repaired h hnews hd hnew hkept (hsame.trans hchange), payload_repaired, hempty]
      at hpayload
    exact hpayload.symm
  · intro hempty old hold hcurrent
    by_cases hdrift : recordChange old ∈ (drifts r s).map (driftChange r.tenant)
    · obtain ⟨d, hd, hchange⟩ := mem_map.mp hdrift
      obtain ⟨ent, hent, hincluded, hwhy⟩ := (mem_drifts h).mp hd
      cases hwhy with
      | row row hrow hid hlt =>
        exact absurd (hchange.symm.trans (driftChange_rowDrift h hrow hid)) (hcurrent row hrow)
      | zombie id v hne hheld hgone =>
        obtain ⟨new, hnew, -, hnewempty⟩ := repairNew_zombie r s _ id v
        refine ⟨republish old new, ?_, rfl, rfl, ?_⟩
        · exact (mem_repaired h hnews).mpr
            (.inr ⟨_, hd, new, hnew, .inl ⟨old, hold, hchange.symm, rfl⟩⟩)
        · exact hnewempty.trans
            (hempty ent hent hincluded id hne hgone v hheld old hold hchange.symm).symm
    · exact ⟨old, (mem_repaired h hnews).mpr (.inl ⟨hold, hdrift⟩), rfl, rfl, rfl⟩

theorem shows_iff (h : Sound r s) : Shows r s.rows g ↔ ∀ ent ∈ r.reg, included ent →
      (∀ row ∈ s.rows, rowIdentity row = (r.tenant, ent.name, row.id) →
        projectedVersion g ⟨ent.graphNode, row.id⟩ = some row.version) ∧
      ∀ id ≠ "", Gone r s ent id → projectedVersion g ⟨ent.graphNode, id⟩ = none := by
  refine forall₃_congr fun ent hent hincluded => ?_
  constructor
  · intro hshows
    refine ⟨fun row hrow hid => ?_, fun id hne hgone => ?_⟩
    · have hne := (h.rows row hrow).1
      rw [← lookup_projectedVersions hne, hshows row.id hne]
      exact (lookup_truthVersions h.keys).mpr ⟨row, hrow, hid, rfl⟩
    · rw [← lookup_projectedVersions hne, hshows id hne]
      exact isNone_iff_eq_none.mp ((isNone_truthVersions h).mpr hgone)
  · rintro ⟨hrows, hothers⟩ id hne
    rw [lookup_projectedVersions hne]
    cases htruth : (truthVersions s.rows r.tenant ent.name).lookup id with
    | none =>
      exact hothers id hne ((isNone_truthVersions h).mp (isNone_iff_eq_none.mpr htruth))
    | some v =>
      obtain ⟨row, hrow, hid, rfl⟩ := (lookup_truthVersions h.keys).mp htruth
      obtain rfl : row.id = id := congrArg (fun k => k.2.2) hid
      exact hrows row hrow hid

end

/-- The states that a repair can heal.  The projection is ahead of no row; a row that it lacks or
holds at an older version can be read and rendered, and the event of its version, if any, is neither
erased nor a delete; and where it holds what has no row, the event of the next version, if any, is
a delete that was not erased and has no payload. -/
structure Repairable (r : Reconciler) (s : State) : Prop where
  ahead : ∀ ent ∈ r.reg, included ent = true → ∀ row ∈ s.rows,
    rowIdentity row = (r.tenant, ent.name, row.id) →
      (projectedVersion s.graph ⟨ent.graphNode, row.id⟩).getD 0 ≤ row.version
  stale : ∀ ent ∈ r.reg, included ent = true → ∀ row ∈ s.rows,
    rowIdentity row = (r.tenant, ent.name, row.id) →
      (projectedVersion s.graph ⟨ent.graphNode, row.id⟩).getD 0 < row.version →
        ent.dynamic = false ∧ cypherParams (settable (valuesByColumn ent row.vals)) = true ∧
          ∀ old ∈ s.records, recordChange old = (rowIdentity row, row.version) →
            old.erasedAt = none ∧ old.verb ≠ .deleted
  gone : ∀ ent ∈ r.reg, included ent = true → ∀ id ≠ "",
    (∀ row ∈ s.rows, rowIdentity row ≠ (r.tenant, ent.name, id)) →
      ∀ v, projectedVersion s.graph ⟨ent.graphNode, id⟩ = some v →
        ∀ old ∈ s.records, recordChange old = ((r.tenant, ent.name, id), v + 1) →
          (old.erasedAt = none ∧ old.verb = .deleted) ∧ old.payload = []

theorem Repairable.exists_news (hrep : Repairable r s) (h : Sound r s) :
    ∃ news, Planned r s news := by
  refine exists_mapM fun d hd => ?_
  obtain ⟨ent, hent, hincluded, hdrift⟩ := (mem_drifts h).mp hd
  cases hdrift with
  | row row hrow hid hlt =>
    have hdynamic := (hrep.stale ent hent hincluded row hrow hid hlt).1
    rw [rowDrift, repairNew_row h hent hrow hid, hdynamic, if_neg Bool.false_ne_true]
    exact ⟨_, rfl⟩
  | zombie id v hne hheld hgone =>
    obtain ⟨new, hnew, -, -⟩ := repairNew_zombie r s _ id v
    exact ⟨new, hnew⟩

theorem Repairable.exists_published (hrep : Repairable r s) (h : Sound r s)
    (hnews : Planned r s news) : ∃ g, Published r s news g := by
  refine exists_handled (fun e he => ?_) s.graph
  obtain ⟨record, hrecord, -, rfl, d, hd, hchange, hagg⟩ := drift_of_queued he
  obtain ⟨ent, hent, hincluded, hdrift⟩ := (mem_drifts h).mp hd
  refine (accepts_iff h hent hincluded ((congrArg Prod.fst hagg).trans hdrift.entity_eq)).mpr
    (.inr ?_)
  obtain ⟨new, hnew⟩ := exists_repairNew hnews hd
  have hpayload : record.payload = new.payload :=
    eq_repaired h hnews hd hnew hrecord hchange ▸ payload_repaired
  show cypherParams (settable record.payload)
  rw [hpayload]
  cases hdrift with
  | row row hrow hid hlt =>
    obtain ⟨-, new', hnew', -, hvals⟩ := read_of_stale h hnews hent hincluded ⟨hrow, hid, hlt⟩
    cases hnew.symm.trans hnew'
    exact hvals ▸ (hrep.stale ent hent hincluded row hrow hid hlt).2.1
  | zombie id v hne hheld hgone =>
    obtain ⟨new', hnew', -, hempty⟩ := repairNew_zombie r s ent.name id v
    cases hnew.symm.trans hnew'
    rw [hempty]
    rfl

theorem Repairable.shows (hrep : Repairable r s) (h : Sound r s) (hnews : Planned r s news)
    (hrun : Published r s news g) : Shows r s.rows g := by
  refine (shows_iff h).mpr fun ent hent hincluded =>
    ⟨fun row hrow hid => ?_, fun id hne hgone => ?_⟩
  · exact (row_shown_iff h hnews hent hincluded hrun hrow hid).mpr
      ⟨hrep.ahead ent hent hincluded row hrow hid,
        fun hlt => (hrep.stale ent hent hincluded row hrow hid hlt).2.2⟩
  · refine (gone_removed_iff h hnews hent hincluded hrun hne hgone).mpr ?_
    exact fun v hheld old hold hchange =>
      (hrep.gone ent hent hincluded id hne hgone v hheld old hold hchange).1

theorem repairable_of_shows (h : Sound r s) (hnews : Planned r s news)
    (hrun : Published r s news g) (hshows : Shows r s.rows g)
    (hunalt : Unaltered s.rows s.records (upsertAll recordChange republish s.records news)) :
    Repairable r s := by
  have hparts := (shows_iff h).mp hshows
  have hempty := (unaltered_iff h hnews).mp hunalt
  constructor
  · intro ent hent hincluded row hrow hid
    exact ((row_shown_iff h hnews hent hincluded hrun hrow hid).mp
      ((hparts ent hent hincluded).1 row hrow hid)).1
  · intro ent hent hincluded row hrow hid hlt
    have hall := ((row_shown_iff h hnews hent hincluded hrun hrow hid).mp
      ((hparts ent hent hincluded).1 row hrow hid)).2 hlt
    exact ⟨(read_of_stale h hnews hent hincluded ⟨hrow, hid, hlt⟩).1,
      rendered_of_stale h hnews hent hincluded hrun ⟨hrow, hid, hlt⟩ hall, hall⟩
  · intro ent hent hincluded id hne hgone v hheld old hold hchange
    exact ⟨(gone_removed_iff h hnews hent hincluded hrun hne hgone).mp
      ((hparts ent hent hincluded).2 id hne hgone) v hheld old hold hchange,
      hempty ent hent hincluded id hne hgone v hheld old hold hchange⟩

/-- A repair heals a state exactly if nothing stands in its way in the outbox and the graph takes
its events. -/
theorem heals_iff (h : Sound r s) : Heals r s ↔ Repairable r s := by
  constructor
  · rintro ⟨after, g, hafter, hrun, hshows, hunaltered⟩
    rw [reconcile_eq h] at hafter
    obtain ⟨news, hnews, rfl⟩ := map_eq_some_iff.mp hafter
    exact repairable_of_shows h hnews hrun hshows hunaltered
  · intro hrep
    obtain ⟨news, hnews⟩ := hrep.exists_news h
    obtain ⟨g, hrun⟩ := hrep.exists_published h hnews
    refine ⟨_, g, ?_, hrun, hrep.shows h hnews hrun, (unaltered_iff h hnews).mpr ?_⟩
    · rw [reconcile_eq h, hnews]
      rfl
    · exact fun ent hent hincluded id hne hgone v hheld old hold hchange =>
        (hrep.gone ent hent hincluded id hne hgone v hheld old hold hchange).2

def depot : Reconciler :=
  { plant with mint := fun d => "r-" ++ d.aggId }

def assetRow (id : String) (version : Int) : StoredRow where
  entity := "asset"
  id := id
  tenant := "acme"
  scope := ""
  version := version
  vals := [("id", .str id), ("version", .num version)]

def driftedAssets : State where
  rows := [assetRow "a1" 2, assetRow "a3" 1]
  records := [assetEvent 2 .updated [("version", .num 2)] "02",
    { assetEvent 2 .deleted [] "04" with aggId := "a2" }]
  graph :=
    ⟨[(⟨"Asset", "a1"⟩, [("version", .num 1)]), (⟨"Asset", "a2"⟩, [("version", .num 1)])], []⟩

theorem sound_driftedAssets : Sound depot driftedAssets where
  names := by decide
  valid := rfl
  labels := by decide
  kinds := by decide
  idents := by decide
  columns := by decide
  keys := by decide
  rows := by
    intro row hrow
    rcases mem_pair.mp hrow with rfl | rfl
    · exact ⟨by decide, by decide, rfl⟩
    · exact ⟨by decide, by decide, rfl⟩
  changes := by decide
  nodes := by
    intro key
    cases hheld : heldVersion driftedAssets.graph key with
    | none => exact .inl rfl
    | some v =>
      obtain ⟨props, hprops, hv⟩ := bind_eq_some_iff.mp hheld
      rcases mem_pair.mp (mem_of_lookup hprops) with heq | heq
      all_goals
        obtain ⟨-, rfl⟩ := Prod.mk.inj heq
        exact .inr ⟨1, hv.symm⟩
  fresh := by decide
  minted := by decide

theorem repairable_driftedAssets : Repairable depot driftedAssets where
  ahead := by decide
  stale := by decide
  gone := by
    intro ent hent _ id hne hgone v hheld
    obtain rfl := mem_singleton.mp hent
    rcases mem_pair.mp (mem_projectedVersions.mpr ⟨hne, hheld⟩) with heq | heq
    · cases heq
      exact absurd rfl (hgone (assetRow "a1" 2) mem_cons_self)
    · cases heq
      decide

theorem heals_driftedAssets : Heals depot driftedAssets :=
  (heals_iff sound_driftedAssets).mpr repairable_driftedAssets

end Fabriq.Projection.DriftRepair
