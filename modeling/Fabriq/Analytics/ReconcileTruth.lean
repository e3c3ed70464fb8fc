import Fabriq.Analytics.Reconcile
import Fabriq.Exec.LastEvent

namespace Fabriq.Analytics.ReconcileTruth

open Analytics.Consumer Analytics.Reconcile Analytics.Redact Exec.LastEvent Exec.OutboxVersions Lib
open List Option
open Lib.Gated Lib.KeyedLog Lib.Result Lib.Separated
open Core.Schema (Entity Fields Registry)
open Exec.CommandStore (Db Op OutboxRow Request StoredRow runBatches)

section

variable {p : Pipeline} {s : Sink} {tenant aggregate aggId : String}

theorem notMem_of_spec (h : (p.spec aggregate).isSome) : '\x00' ∉ aggregate.toList := by
  obtain ⟨spec, hspec⟩ := isSome_iff_exists.mp h
  obtain ⟨ent, hent, -⟩ := bind_eq_some_iff.mp hspec
  rw [← Registry.name_of_get hent]
  exact p.names ent (mem_of_find?_eq_some hent)

theorem lookup_allWatermarks (h : (s.watermarks.map Prod.fst).Nodup) :
    (allWatermarks s tenant).lookup ⟨tenant, aggregate, aggId⟩ =
      s.watermarks.lookup ⟨tenant, aggregate, aggId⟩ := by
  have hfilter : ((allWatermarks s tenant).map _).Nodup := h.sublist (filter_sublist.map _)
  refine ext fun v => ?_
  rw [Assoc.lookup_eq_some_iff hfilter, Assoc.lookup_eq_some_iff h]
  simp [allWatermarks]

theorem lookup_versionsHeld (h : Trails p s) (hmarked : (p.spec aggregate).isSome) :
    (versionsHeld s tenant).lookup (driftKey aggregate aggId) =
      s.watermarks.lookup ⟨tenant, aggregate, aggId⟩ := by
  have hnodup : ((allWatermarks s tenant).map _).Nodup :=
    h.keys.sublist (filter_sublist.map _)
  have hinj : ∀ w ∈ allWatermarks s tenant,
      driftKey w.1.aggregate w.1.aggId = driftKey aggregate aggId →
        w.1 = ⟨tenant, aggregate, aggId⟩ := by
    intro w hw hkey
    obtain ⟨hmem, htenant⟩ := mem_filter.mp hw
    have hspec := h.marked w.1 w.2 ((Assoc.lookup_eq_some_iff h.keys).mpr hmem)
    obtain ⟨hagg, haggId⟩ := @append_sep_inj_left "\x00" _ _ _ _ '\x00' (by decide)
      (notMem_of_spec hspec) (notMem_of_spec hmarked) hkey
    cases hid : w.1
    simp_all
  have hlookup := Assoc.lookup_foldl_put (fun k : FactId => driftKey k.aggregate k.aggId)
    ⟨tenant, aggregate, aggId⟩ hnodup hinj []
  rw [lookup_allWatermarks h.keys] at hlookup
  simpa [versionsHeld] using hlookup

end

section

variable {p : Pipeline} {calls : Calls} {tenant : String} {held : List (String × Int)}
  {st st' : Sink × Report} {rows : List (Entity × StoredRow)} {row : StoredRow} {f : Fact}
  {k : FactId}

theorem factKey_rowFact (h : rowFact p calls row = some f) :
    factKey f = factId (rowIdentity row) := by
  obtain ⟨payload, -, rfl⟩ := map_eq_some_iff.mp h
  rfl

theorem facts_foldlM_of_ne (hrows : ∀ x ∈ rows, x.2.entity = x.1.name ∧ x.2.tenant = tenant)
    (hne : ∀ x ∈ rows, factId (rowIdentity x.2) ≠ k)
    (h : rows.foldlM (reconcileRow p calls tenant held) st = .ok st') :
    st'.1.facts.lookup k = st.1.facts.lookup k := by
  induction rows generalizing st with
  | nil =>
    cases h
    rfl
  | cons x rest ih =>
    obtain ⟨mid, hfirst, hrest⟩ := bind_eq_ok.mp h
    have hx := hrows x mem_cons_self
    rw [ih (forall_mem_of_forall_mem_cons hrows) (forall_mem_of_forall_mem_cons hne) hrest]
    rcases facts_reconcileRow hx.1 hx.2 hfirst with ⟨-, hsame⟩ | ⟨g, hg, hlookup⟩
    · rw [hsame]
    · have hkey : ¬ (k = factKey g ∧ lags held x.2) := fun heq =>
        hne x mem_cons_self (factKey_rowFact hg ▸ heq.1.symm)
      rw [hlookup, if_neg hkey]

theorem facts_foldlM (hrows : ∀ x ∈ rows, x.2.entity = x.1.name ∧ x.2.tenant = tenant)
    (hunique : ∀ x ∈ rows, rowIdentity x.2 = rowIdentity row → x.2 = row)
    (hf : rowFact p calls row = some f) (hmem : row ∈ rows.map Prod.snd)
    (h : rows.foldlM (reconcileRow p calls tenant held) st = .ok st') :
    st'.1.facts.lookup (factKey f) = if lags held row = true then
        some (offerNewer Fact.version (st.1.facts.lookup (factKey f)) f)
      else st.1.facts.lookup (factKey f) := by
  induction rows generalizing st with
  | nil => simp at hmem
  | cons x rest ih =>
    obtain ⟨mid, hfirst, hrest⟩ := bind_eq_ok.mp h
    have hx := hrows x mem_cons_self
    have hrows' := forall_mem_of_forall_mem_cons hrows
    have hunique' := forall_mem_of_forall_mem_cons hunique
    by_cases hsame : x.2 = row
    · -- The row may come again, with a fact that was offered already.
      have hmid : mid.1.facts.lookup (factKey f) = if lags held row = true then
            some (offerNewer Fact.version (st.1.facts.lookup (factKey f)) f)
          else st.1.facts.lookup (factKey f) := by
        rcases facts_reconcileRow hx.1 hx.2 hfirst with ⟨hspec, -⟩ | ⟨g, hg, hlookup⟩
        · rw [hsame] at hspec
          simp [rowFact, projection, hspec] at hf
        · obtain rfl := some.inj (hf.symm.trans (hsame ▸ hg))
          rw [hlookup, hsame]
          simp
      by_cases hagain : row ∈ rest.map Prod.snd
      · rw [ih hrows' hunique' hagain hrest, hmid]
        split_ifs with hlags
        · rw [offerNewer_offerNewer]
        · rfl
      · rw [facts_foldlM_of_ne hrows' (fun y hy hkey => hagain ?_) hrest, hmid]
        rw [factKey_rowFact hf, factId_inj] at hkey
        exact mem_map.mpr ⟨y, hy, hunique' y hy hkey⟩
    · have hmem' : row ∈ rest.map Prod.snd := by
        rw [map_cons, mem_cons] at hmem
        exact hmem.resolve_left fun heq => hsame heq.symm
      have hmid : mid.1.facts.lookup (factKey f) = st.1.facts.lookup (factKey f) := by
        rcases facts_reconcileRow hx.1 hx.2 hfirst with ⟨-, hsameFacts⟩ | ⟨g, hg, hlookup⟩
        · rw [hsameFacts]
        · have hkey : ¬ (factKey f = factKey g ∧ lags held x.2) := by
            rintro ⟨heq, -⟩
            rw [factKey_rowFact hf, factKey_rowFact hg, factId_inj] at heq
            exact hsame (hunique x mem_cons_self heq.symm)
          rw [hlookup, if_neg hkey]
      rw [ih hrows' hunique' hmem' hrest, hmid]

end

/-- What is compared: an aggregate with its version and its redacted payload. -/
structure Shown where
  aggregate : String
  aggId : String
  version : Int
  payload : String
  deriving DecidableEq

def Live (p : Pipeline) (tenant : String) (s : Sink) (x : Shown) : Prop :=
  (p.spec x.aggregate).isSome = true ∧
    ∃ f, s.facts.lookup ⟨tenant, x.aggregate, x.aggId⟩ = some f ∧ f.deleted = false ∧
      f.version = x.version ∧ f.payload = x.payload

/-- The redacted projection of a row. -/
def Current (p : Pipeline) (tenant : String) (db : Db) (x : Shown) : Prop :=
  ∃ row ∈ db.rows, rowIdentity row = (tenant, x.aggregate, x.aggId) ∧
    row.version = x.version ∧ projection p row = some x.payload

/-- The live facts are the redacted projections of the rows. -/
def Restored (p : Pipeline) (tenant : String) (db : Db) (s : Sink) : Prop :=
  ∀ x, Live p tenant s x ↔ Current p tenant db x

/-- The consumer took the delete of every aggregate without a row of which it took any event. -/
def DeletesLanded (p : Pipeline) (tenant : String) (db : Db) (deliveries : List Delivery) : Prop :=
  ∀ d ∈ deliveries, p.lands d = true → d.event.tenantId = tenant →
    ¬ Stored db (eventIdentity d.event) →
      ∃ d' ∈ deliveries, p.lands d' = true ∧ eventIdentity d'.event = eventIdentity d.event ∧
        d'.event.verb = .deleted

/-- Where the consumer took the event of a row's version, the event's payload is redacted to
what the row is. -/
def LatestAgree (p : Pipeline) (tenant : String) (db : Db) (deliveries : List Delivery) : Prop :=
  ∀ row ∈ db.rows, row.tenant = tenant → ∀ d ∈ deliveries, p.lands d = true →
    eventIdentity d.event = rowIdentity row → d.event.version = row.version →
      p.eventPayload d.event = projection p row

section

variable {p : Pipeline} {db : Db} {deliveries : List Delivery} {k : Identity} {f : Fact}
  {d : Delivery}

theorem eventFact_of_lands (h : p.lands d) : ∃ f, p.eventFact d.event = some f := by
  exact isSome_iff_exists.mp (Bool.and_eq_true_iff.mp h).1

theorem exists_delivery (h : (p.consume deliveries).facts.lookup (factId k) = some f) :
    ∃ d ∈ deliveries, p.lands d ∧ eventIdentity d.event = k ∧ p.eventFact d.event = some f ∧
      ∀ d' ∈ deliveries, p.lands d' → eventIdentity d'.event = k →
        d'.event.version ≤ d.event.version := by
  have hholds := holds_consume p deliveries (factId k)
  obtain ⟨hmem, hkey⟩ := mem_filter.mp (hholds.mem f h)
  obtain ⟨d, hd, hlands, hfact⟩ := mem_landed.mp hmem
  obtain ⟨-, hid, hversion, -⟩ := isSome_spec_of_eventFact hfact
  have hk : eventIdentity d.event = k := factId_inj.mp (hid.symm.trans (by simpa using hkey))
  refine ⟨d, hd, hlands, hk, hfact, fun d' hd' hlands' hk' => ?_⟩
  obtain ⟨g, hg⟩ := eventFact_of_lands hlands'
  obtain ⟨-, hgid, hgversion, -⟩ := isSome_spec_of_eventFact hg
  have hle := hholds.le f h g (mem_filter.mpr
    ⟨mem_landed.mpr ⟨d', hd', hlands', hg⟩, by simp [hgid, hk']⟩)
  omega

theorem exists_fact (hd : d ∈ deliveries) (h : p.lands d) :
    ∃ f, (p.consume deliveries).facts.lookup (factId (eventIdentity d.event)) = some f := by
  rw [← isSome_iff_exists]
  by_contra hnone
  rw [Bool.not_eq_true, isSome_eq_false_iff, isNone_iff_eq_none] at hnone
  obtain ⟨g, hg⟩ := eventFact_of_lands h
  have hnil := (holds_consume p _ _).none hnone
  have hmem : g ∈ (p.landed _).filter fun f =>
      factKey f = factId (eventIdentity d.event) :=
    mem_filter.mpr ⟨mem_landed.mpr ⟨d, hd, h, hg⟩, by simp [(isSome_spec_of_eventFact hg).2.1]⟩
  rw [hnil] at hmem
  simp at hmem

end

section

variable {p : Pipeline} {calls : Calls} {db : Db} {s : Sink} {deliveries : List Delivery}
  {tenant : String} {st' : Sink × Report} {row : StoredRow} {k : Identity}

theorem foldlM_of_reconcileTenant (h : reconcileTenant p calls db s tenant = .ok st') :
    (snapshotRows p db tenant).foldlM (reconcileRow p calls tenant (versionsHeld s tenant))
      (s, ⟨0, 0, 0, 0⟩) = .ok st' := by
  unfold reconcileTenant at h
  split_ifs at h
  exact h

theorem of_mem_snapshotRows :
    ∀ x ∈ snapshotRows p db tenant, x.2.entity = x.1.name ∧ x.2.tenant = tenant := by
  rintro ⟨ent, row⟩ hx
  obtain ⟨-, -, -, htenant, hentity⟩ := mem_snapshotRows.mp hx
  exact ⟨hentity, htenant⟩

theorem facts_of_gone (h : reconcileTenant p calls db s tenant = .ok st')
    (hgone : ¬ Stored db k) : st'.1.facts.lookup (factId k) = s.facts.lookup (factId k) := by
  refine facts_foldlM_of_ne of_mem_snapshotRows ?_ (foldlM_of_reconcileTenant h)
  rintro ⟨ent, row⟩ hx heq
  exact hgone ⟨row, (mem_snapshotRows.mp hx).2.2.1, factId_inj.mp heq⟩

theorem version_le_row (hgapless : Gapless db) (hdel : ∀ d ∈ deliveries, d.event ∈ db.outbox)
    (hrow : row ∈ db.rows) {g : Fact}
    (hg : (p.consume deliveries).facts.lookup (factId (rowIdentity row)) = some g) :
    g.version ≤ row.version := by
  obtain ⟨d, hd, -, hk, hfact, -⟩ := exists_delivery hg
  rw [(isSome_spec_of_eventFact hfact).2.2.1, hgapless.version row hrow, ← hk]
  exact hgapless.numbered.le_length (mem_history.mpr ⟨hdel d hd, rfl⟩)

theorem facts_of_row (hgapless : Gapless db) (hdel : ∀ d ∈ deliveries, d.event ∈ db.outbox)
    (h : reconcileTenant p calls db (p.consume deliveries) tenant = .ok st')
    (hrow : row ∈ db.rows) (htenant : row.tenant = tenant) {ent : Entity}
    (hent : p.executor.reg.get row.entity = some ent) (hagg : ent.isAggregate)
    (hmarked : (p.spec row.entity).isSome) :
    (∃ g, (p.consume deliveries).facts.lookup (factId (rowIdentity row)) = some g ∧
        g.version = row.version ∧ st'.1.facts.lookup (factId (rowIdentity row)) = some g) ∨
      ∃ f, rowFact p calls row = some f ∧
        (∀ g, (p.consume deliveries).facts.lookup (factId (rowIdentity row)) = some g →
          g.version ≠ row.version) ∧ st'.1.facts.lookup (factId (rowIdentity row)) = some f := by
  have hfold := foldlM_of_reconcileTenant h
  have hname := Registry.name_of_get hent
  have hmem : (ent, row) ∈ snapshotRows p db tenant := mem_snapshotRows.mpr
    ⟨mem_of_find?_eq_some hent, hagg, hrow, htenant, hname.symm⟩
  obtain ⟨u, v, hstep⟩ := exists_of_foldlM hfold hmem
  obtain ⟨f, hf⟩ : ∃ f, rowFact p calls row = some f := by
    rcases facts_reconcileRow hname.symm htenant hstep with ⟨hspec, -⟩ | ⟨f, hf, -⟩
    · rw [hspec] at hmarked
      cases hmarked
    · exact ⟨f, hf⟩
  have hafter := facts_foldlM of_mem_snapshotRows (fun x hx heq =>
      inj_on_of_nodup_map hgapless.keys (mem_snapshotRows.mp hx).2.2.1 hrow (congrArg Prod.snd heq))
    hf (mem_map.mpr ⟨_, hmem, rfl⟩) hfold
  have htrails := trails_consume p deliveries
  have hheld : (versionsHeld (p.consume deliveries) tenant).lookup (driftKey row.entity row.id) =
        (p.consume deliveries).watermarks.lookup (factId (rowIdentity row)) := by
    rw [lookup_versionsHeld htrails hmarked, ← htenant]
    rfl
  have hversion : f.version = row.version := by
    obtain ⟨payload, -, rfl⟩ := map_eq_some_iff.mp hf
    rfl
  rw [factKey_rowFact hf, lags, hheld] at hafter
  cases hstored : (p.consume deliveries).facts.lookup (factId (rowIdentity row)) with
  | none =>
    have hnone : (p.consume deliveries).watermarks.lookup (factId (rowIdentity row)) = none := by
      rw [eq_none_iff_forall_ne_some]
      intro w hw
      obtain ⟨g, hg, -⟩ := htrails.fact _ w hw
      rw [hstored] at hg
      cases hg
    rw [hnone, hstored] at hafter
    exact .inr ⟨f, hf, fun g hg => absurd hg (by simp), hafter⟩
  | some g =>
    have hle := version_le_row hgapless hdel hrow hstored
    rw [hstored] at hafter
    by_cases heq : g.version = row.version
    · refine .inl ⟨g, rfl, heq, ?_⟩
      rw [hafter]
      simp [offerNewer, hversion, heq]
    · refine .inr ⟨f, hf, fun g' hg' => some.inj hg' ▸ heq, ?_⟩
      have hlags : (((p.consume deliveries).watermarks.lookup
          (factId (rowIdentity row))).all fun stored => decide (stored < row.version)) := by
        rw [Option.all_eq_true]
        intro w hw
        obtain ⟨g', hg', hwle⟩ := htrails.fact _ w hw
        obtain rfl := some.inj (hstored.symm.trans hg')
        simp only [decide_eq_true_eq]
        omega
      rw [hafter, if_pos hlags]
      simp only [offerNewer, hversion]
      rw [if_pos (by omega)]

end

section

variable {p : Pipeline} {calls : Calls} {batches : List (List Request)}
  {deliveries : List Delivery} {tenant : String} {st' : Sink × Report} {row : StoredRow}

theorem fact_of_version {db : Db} (hended : Ended db)
    (hdel : ∀ d ∈ deliveries, d.event ∈ db.outbox) (hrow : row ∈ db.rows) {g : Fact}
    (hg : (p.consume deliveries).facts.lookup (factId (rowIdentity row)) = some g)
    (hversion : g.version = row.version) :
    g.deleted = false ∧ ∃ d ∈ deliveries, p.lands d ∧
      eventIdentity d.event = rowIdentity row ∧ d.event.version = row.version ∧
      p.eventPayload d.event = some g.payload := by
  obtain ⟨d, hd, hlands, hk, hfact, -⟩ := exists_delivery hg
  obtain ⟨-, -, hfactVersion, hdeleted⟩ := isSome_spec_of_eventFact hfact
  refine ⟨?_, d, hd, hlands, hk, hfactVersion ▸ hversion, ?_⟩
  · rw [hdeleted, decide_eq_false_iff_not]
    intro hverb
    exact (hended.deleted _ (hdel d hd) hverb).2 ⟨row, hrow, hk.symm⟩
  · obtain ⟨-, payload, hpayload, rfl⟩ := eventFact_eq_some.mp hfact
    exact hpayload

theorem deleted_of_landed {db : Db} (hgapless : Gapless db) (hended : Ended db)
    (hdel : ∀ d ∈ deliveries, d.event ∈ db.outbox) {d : Delivery} (hd : d ∈ deliveries)
    (hlands : p.lands d) (hverb : d.event.verb = .deleted) {f : Fact}
    (hf : (p.consume deliveries).facts.lookup (factId (eventIdentity d.event)) = some f) :
    f.deleted := by
  obtain ⟨top, htop, -, hk, hfact, hmax⟩ := exists_delivery hf
  have hmem : ∀ x ∈ deliveries, eventIdentity x.event = eventIdentity d.event →
      x.event ∈ history eventIdentity db.outbox (eventIdentity d.event) := fun x hx hx' =>
    mem_history.mpr ⟨hdel x hx, hx'⟩
  have hlast : d.event.version = (events db (eventIdentity d.event)).length :=
    (hended.deleted _ (hdel d hd) hverb).1
  have hle : top.event.version ≤ (events db (eventIdentity d.event)).length :=
    hgapless.numbered.le_length (hmem top htop hk)
  have hsame : top.event = d.event := hgapless.numbered.inj (hmem top htop hk) (hmem d hd rfl)
    (by have := hmax d hd hlands rfl; omega)
  rw [(isSome_spec_of_eventFact hfact).2.2.2, hsame]
  exact decide_eq_true hverb

theorem rowFact_shown {f : Fact} (h : rowFact p calls row = some f) :
    f.deleted = false ∧ f.version = row.version ∧ projection p row = some f.payload := by
  obtain ⟨payload, hpayload, rfl⟩ := map_eq_some_iff.mp h
  exact ⟨rfl, rfl, hpayload⟩

variable (hdel : ∀ d ∈ deliveries, d.event ∈ (runBatches p.executor batches).db.outbox)
  (h : reconcileTenant p calls (runBatches p.executor batches).db (p.consume deliveries) tenant =
    .ok st')

include hdel h

theorem shown_of_row (hagree : LatestAgree p tenant (runBatches p.executor batches).db deliveries)
    (hrow : row ∈ (runBatches p.executor batches).db.rows) (htenant : row.tenant = tenant)
    (hmarked : (p.spec row.entity).isSome) :
    ∃ f, st'.1.facts.lookup (factId (rowIdentity row)) = some f ∧ f.deleted = false ∧
      f.version = row.version ∧ projection p row = some f.payload := by
  obtain ⟨ent, hent, hagg⟩ := rows_of_aggregates _ batches row hrow
  rcases facts_of_row (gapless_runBatches _ _) hdel h hrow htenant hent hagg hmarked with
    ⟨g, hg, hversion, hafter⟩ | ⟨f, hf, -, hafter⟩
  · obtain ⟨hlive, d, hd, hlands, hk, hdversion, hpayload⟩ :=
      fact_of_version (ended_runBatches _ _) hdel hrow hg hversion
    rw [hagree row hrow htenant d hd hlands hk hdversion] at hpayload
    exact ⟨g, hafter, hlive, hversion, hpayload⟩
  · exact ⟨f, hafter, rowFact_shown hf⟩

theorem restored_of_landed
    (hdeletes : DeletesLanded p tenant (runBatches p.executor batches).db deliveries)
    (hagree : LatestAgree p tenant (runBatches p.executor batches).db deliveries) :
    Restored p tenant (runBatches p.executor batches).db st'.1 := by
  intro x
  constructor
  · rintro ⟨hmarked, f, hf, hlive, hversion, hpayload⟩
    by_cases hstored : Stored (runBatches p.executor batches).db (tenant, x.aggregate, x.aggId)
    · obtain ⟨row, hrow, hid⟩ := hstored
      have hparts := hid
      simp only [rowIdentity, Prod.mk.injEq] at hparts
      obtain ⟨htenant, hentity, -⟩ := hparts
      obtain ⟨g, hg, -, hgversion, hprojection⟩ :=
        shown_of_row hdel h hagree hrow htenant (hentity ▸ hmarked)
      rw [hid] at hg
      obtain rfl : f = g := some.inj (hf.symm.trans hg)
      exact ⟨row, hrow, hid, hgversion.symm.trans hversion, hpayload ▸ hprojection⟩
    · -- Without a row the fact is what the consumer left, and its delete landed.
      have hleft : (p.consume deliveries).facts.lookup
          (factId (tenant, x.aggregate, x.aggId)) = some f := (facts_of_gone h hstored) ▸ hf
      obtain ⟨d, hd, hlands, hk, -, -⟩ := exists_delivery hleft
      obtain ⟨d', hd', hlands', hk', hverb⟩ := hdeletes d hd hlands
        (congrArg Prod.fst hk) (hk ▸ hstored)
      have hdeleted := deleted_of_landed (gapless_runBatches _ _) (ended_runBatches _ _) hdel hd'
        hlands' hverb ((hk'.trans hk) ▸ hleft)
      rw [hdeleted] at hlive
      cases hlive
  · rintro ⟨row, hrow, hid, hversion, hprojection⟩
    have hparts := hid
    simp only [rowIdentity, Prod.mk.injEq] at hparts
    obtain ⟨htenant, hentity, -⟩ := hparts
    have hmarked : (p.spec row.entity).isSome := by
      obtain ⟨spec, hspec, -⟩ := bind_eq_some_iff.mp hprojection
      exact isSome_iff_exists.mpr ⟨spec, hspec⟩
    obtain ⟨f, hf, hlive, hfversion, hpayload⟩ := shown_of_row hdel h hagree hrow htenant hmarked
    rw [hid] at hf
    refine ⟨hentity ▸ hmarked, f, hf, hlive, hfversion.trans hversion, ?_⟩
    exact some.inj (hpayload.symm.trans hprojection)

omit hdel in
theorem deletesLanded_of_restored
    (hrestored : Restored p tenant (runBatches p.executor batches).db st'.1) :
    DeletesLanded p tenant (runBatches p.executor batches).db deliveries := by
  intro d hd hlands htenant hgone
  obtain ⟨f, hf⟩ := exists_fact hd hlands
  obtain ⟨top, htop, htopLands, hk, hfact, -⟩ := exists_delivery hf
  refine ⟨top, htop, htopLands, hk, ?_⟩
  by_contra hverb
  obtain ⟨hmarked, hkey, hversion, hdeleted⟩ := isSome_spec_of_eventFact hfact
  have hagg : f.aggregate = d.event.aggregate := by
    rw [hk] at hkey
    exact congrArg FactId.aggregate hkey
  subst htenant
  obtain ⟨row, hrow, hid, -⟩ := (hrestored ⟨d.event.aggregate, d.event.aggId, f.version,
    f.payload⟩).mp ⟨hagg ▸ hmarked, f, (facts_of_gone h hgone).trans hf, by
      rw [hdeleted]; exact decide_eq_false hverb, rfl, rfl⟩
  exact hgone ⟨row, hrow, hid⟩

theorem latestAgree_of_restored
    (hrestored : Restored p tenant (runBatches p.executor batches).db st'.1) :
    LatestAgree p tenant (runBatches p.executor batches).db deliveries := by
  intro row hrow htenant d hd hlands hk hversion
  have hgapless := gapless_runBatches p.executor batches
  obtain ⟨f, hf⟩ := exists_fact hd hlands
  rw [hk] at hf
  obtain ⟨top, htop, -, htopk, hfact, hmax⟩ := exists_delivery hf
  obtain ⟨hmarked, hkey, hfversion, -⟩ := isSome_spec_of_eventFact hfact
  have hle := version_le_row hgapless hdel hrow hf
  have hfrow : f.version = row.version := by
    have := hmax d hd hlands hk
    omega
  have hsame : top.event = d.event := hgapless.numbered.inj
    (mem_history.mpr ⟨hdel top htop, htopk⟩) (mem_history.mpr ⟨hdel d hd, hk⟩) (by omega)
  obtain ⟨hlive, -⟩ := fact_of_version (ended_runBatches _ _) hdel hrow hf hfrow
  have hagg : f.aggregate = row.entity := by
    rw [htopk] at hkey
    exact congrArg FactId.aggregate hkey
  obtain ⟨ent, hent, hisAggregate⟩ := rows_of_aggregates _ batches row hrow
  have hafter : st'.1.facts.lookup (factId (rowIdentity row)) = some f := by
    rcases facts_of_row hgapless hdel h hrow htenant hent hisAggregate
      (hagg ▸ hmarked) with ⟨g, hg, -, hafter⟩ | ⟨-, -, hne, -⟩
    · rw [hafter, ← hg, hf]
    · exact absurd hfrow (hne f hf)
  subst htenant
  obtain ⟨row', hrow', hid, -, hprojection⟩ := (hrestored ⟨row.entity, row.id, f.version,
    f.payload⟩).mp ⟨hagg ▸ hmarked, f, hafter, hlive, rfl, rfl⟩
  obtain rfl : row' = row := inj_on_of_nodup_map hgapless.keys hrow' hrow (congrArg Prod.snd hid)
  rw [hprojection]
  obtain ⟨-, payload, hpayload, rfl⟩ := eventFact_eq_some.mp hfact
  exact hsame ▸ hpayload

end

/-- After a pass that succeeds, the live facts are the redacted projections of the rows exactly
if no delete was missed and the events taken are redacted to what their rows are. -/
theorem reconcile_restores_iff (p : Pipeline) (calls : Calls) (batches : List (List Request))
    (deliveries : List Delivery) (tenant : String) (st' : Sink × Report)
    (hdel : ∀ d ∈ deliveries, d.event ∈ (runBatches p.executor batches).db.outbox)
    (h : reconcileTenant p calls (runBatches p.executor batches).db (p.consume deliveries)
      tenant = .ok st') :
    Restored p tenant (runBatches p.executor batches).db st'.1 ↔
      DeletesLanded p tenant (runBatches p.executor batches).db deliveries ∧
        LatestAgree p tenant (runBatches p.executor batches).db deliveries :=
  ⟨fun hrestored => ⟨deletesLanded_of_restored h hrestored,
    latestAgree_of_restored hdel h hrestored⟩,
    fun hboth => restored_of_landed hdel h hboth.1 hboth.2⟩

section

def assetRegistry : Registry :=
  [{ name := "asset", columns := ["id", "tenant_id", "version", "name"] }]

theorem assetRegistry_names : ∀ ent ∈ assetRegistry, '\x00' ∉ ent.name.toList := by
  decide

def objectOf (fields : Fields) : Raw :=
  .object "" (fields.map fun field =>
    (field.1, .leaf (match field.2 with
      | .str text => "\"" ++ text ++ "\""
      | _ => "null")))

def assets : Pipeline where
  executor := ⟨assetRegistry, fun _ vals => some vals⟩
  analytics := fun _ => some ⟨["name"], false, [], []⟩
  salt := ""
  codec := ⟨fun text => "\"" ++ text ++ "\"", id⟩
  upcast := fun _ _ payload => some payload
  streamed := objectOf
  marshal := objectOf
  column := id
  time := fun _ => 0
  names := assetRegistry_names

def calls : Calls :=
  ⟨true, fun _ => .done, fun _ => 1⟩

def request (op : Op) (aggId : String) (payload : Option Fields) : Request :=
  ⟨⟨"acme", ""⟩, "new", ⟨"asset", op, aggId, payload, none⟩⟩

def named (name : String) : Option Fields :=
  some [("name", .str name)]

def taken (batches : List (List Request)) (kept : OutboxRow → Bool) : List Delivery :=
  ((runBatches assets.executor batches).db.outbox.filter kept).map fun e => ⟨e, .done⟩

theorem taken_subset (batches : List (List Request)) (kept : OutboxRow → Bool) :
    ∀ d ∈ taken batches kept, d.event ∈ (runBatches assets.executor batches).db.outbox := by
  intro d hd
  obtain ⟨e, he, rfl⟩ := mem_map.mp hd
  exact mem_of_mem_filter he

def createdAndDeleted : List (List Request) :=
  [[request .create "a1" (named "pump")], [request .delete "a1" none]]

def pump : Fact :=
  ⟨"acme", "asset", "a1", 1, "\x7b\"name\":\"pump\"\x7d", 0, false⟩

/-- The fact of a row whose delete the consumer skipped is still live. -/
theorem skipped_delete_stays :
    ∃ st', reconcileTenant assets calls (runBatches assets.executor createdAndDeleted).db
      (assets.consume (taken createdAndDeleted fun e => e.verb != .deleted)) "acme" = .ok st' ∧
      (runBatches assets.executor createdAndDeleted).db.rows = [] ∧
      st'.1.facts.lookup ⟨"acme", "asset", "a1"⟩ = some pump ∧
      ¬ Restored assets "acme" (runBatches assets.executor createdAndDeleted).db st'.1 := by
  have hrows : (runBatches assets.executor createdAndDeleted).db.rows = [] :=
    isEmpty_iff.mp (by decide +kernel)
  refine ⟨_, rfl, hrows, by decide +kernel, fun hrestored => ?_⟩
  obtain ⟨row, hrow, -⟩ := (hrestored ⟨"asset", "a1", 1, pump.payload⟩).mp
    ⟨by decide +kernel, pump, by decide +kernel, rfl, rfl, rfl⟩
  rw [hrows] at hrow
  simp at hrow

def fleet : List (List Request) :=
  [[request .create "a1" (named "pump")], [request .update "a1" (named "valve")],
    [request .create "a2" (named "fan")], [request .delete "a2" none],
    [request .create "a3" (named "motor")]]

def behind : List Delivery :=
  taken fleet fun e => e.verb != .updated && e.aggId != "a3"

theorem reconcile_restores_iff_behind :
    ∃ st', reconcileTenant assets calls (runBatches assets.executor fleet).db
      (assets.consume behind) "acme" = .ok st' ∧
      Restored assets "acme" (runBatches assets.executor fleet).db st'.1 := by
  refine ⟨_, rfl, ?_⟩
  refine (reconcile_restores_iff assets calls fleet behind "acme" _ (taken_subset _ _) rfl).mpr
    ⟨?_, ?_⟩
  · unfold DeletesLanded Stored
    decide +kernel
  · unfold LatestAgree
    decide +kernel

end

end Fabriq.Analytics.ReconcileTruth
