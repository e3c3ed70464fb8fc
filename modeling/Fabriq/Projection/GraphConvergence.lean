import Fabriq.Lib.Machine
import Fabriq.Projection.GraphWrites

namespace Fabriq.Projection.GraphConvergence

open Core.Schema Core.Value Lib Lib.Machine Projection.Applier Projection.GraphStore
open List Option
open Projection.GraphWrites

/-- The type and the endpoints of the relationship of a reified entity; without all
three the applier refuses the event. -/
def ends (entity : Entity) (env : Envelope) : Option (String × NodeKey × NodeKey) :=
  entity.graphEdge.bind fun spec =>
    let type := stringProp env.payload spec.typeField
    let source := stringProp env.payload spec.sourceField
    let target := stringProp env.payload spec.targetField
    if type = "" ∨ source = "" ∨ target = "" then none
    else some (type, ⟨spec.sourceLabel, source⟩, ⟨spec.targetLabel, target⟩)

def projects (reg : Registry) (env : Envelope) : Bool :=
  (graphApplier reg env).isSome

variable {reg : Registry} {entity : Entity} {aggId : String} {es : List Envelope}
  {e : Envelope} {g h : Graph}

def projectedLinks (reg : Registry) (entity : Entity) : Option Envelope → Links
  | none => noLinks
  | some e => relinkAll reg e entity.edges noLinks

/-- The node shows what the written events make of it, and the relationships of the
newest. -/
structure ShowsNode (reg : Registry) (entity : Entity) (aggId : String) (es : List Envelope)
    (g : Graph) : Prop where
  node : g.nodes.lookup ⟨entity.graphNode, aggId⟩ =
    es.getLast?.map fun _ => record entity aggId es
  links : g.links ⟨entity.graphNode, aggId⟩ = projectedLinks reg entity es.getLast?

theorem showsNode_handle (hvalid : reg.validate)
    (hget : reg.get e.aggregate = some entity) (hkind : entity.graphEdge = none)
    (hlabel : entity.graphNode ≠ "") (hverb : e.verb ≠ .deleted) (hpos : 0 < e.version)
    (hstamp : ∀ d ∈ es ++ [e], (written entity d).lookup columnVersion = some (.num d.version))
    (hes : ShowsNode reg entity e.aggId es g) (hstep : handle reg g e = some h) :
    ShowsNode reg entity e.aggId (pass es e) h := by
  have hheld : (g.nodes.lookup ⟨entity.graphNode, e.aggId⟩).getD [(columnId, .str e.aggId)] =
      record entity e.aggId es := by
    rw [hes.node]
    cases hlast : es.getLast? with
    | none =>
      rw [getLast?_eq_none_iff.mp hlast]
      rfl
    | some c => rfl
  have hold : ∀ d ∈ es, (written entity d).lookup columnVersion = some (.num d.version) :=
    fun d hd => hstamp d (mem_append_left _ hd)
  have hgate : gate (record entity e.aggId es) e.version = _ := gate_record hold hpos.le
  have hlabelled : Labelled reg entity (projectedLinks reg entity es.getLast?) := by
    cases es.getLast? with
    | none => exact fun _ _ _ hlink => hlink.elim
    | some c => exact labelled_relinkAll fun _ hedge => hedge
  obtain ⟨hnode, hlinks⟩ := handle_node hvalid hget hkind hlabel hverb hstep hheld
    (hstamp e (by simp))
  rw [hes.links, relinkAll_eq hlabelled] at hlinks
  rw [hgate] at hnode hlinks
  unfold GraphWrites.pass
  split_ifs at hnode hlinks ⊢
  · refine ⟨?_, ?_⟩
    · rw [hnode, ← record_concat, getLast?_concat]
      rfl
    · rw [hlinks, getLast?_concat]
      rfl
  · refine ⟨?_, hlinks⟩
    rw [hnode]
    cases hlast : es.getLast? with
    | none => simp_all
    | some c => rfl

variable {spec : GraphEdgeSpec} {t : String × NodeKey × NodeKey}

def relEnds (r : Rel) : String × NodeKey × NodeKey :=
  (r.type, r.source, r.target)

variable {props : Fields} {version : Int}

theorem relEnds_setRelProps {r : Rel} : relEnds (setRelProps props version r) = relEnds r := by
  rw [setRelProps_eq]
  rfl

def HasRel (aggId : String) (g : Graph) (t : String × NodeKey × NodeKey) : Prop :=
  ∃ r ∈ g.rels, hasId aggId r = true ∧ relEnds r = t

theorem graphApplier_rel (hget : reg.get e.aggregate = some entity)
    (hkind : entity.graphEdge = some spec) (hverb : e.verb ≠ .deleted) :
    graphApplier reg e = (ends entity e).map fun t =>
      [.relUpsert e.aggId t.1 t.2.1.label t.2.1.id t.2.2.label t.2.2.id
        (pick spec.propFields e.payload) e.version] := by
  have hreified : graphApplier reg e = reifiedEdgeMutations spec e := by
    simp only [graphApplier, hget, hkind]
  rw [hreified, ends, hkind, bind_some]
  unfold reifiedEdgeMutations
  cases hv : e.verb with
  | deleted => exact absurd hv hverb
  | created | updated =>
    simp only
    split_ifs <;> rfl

theorem handle_rel (hget : reg.get e.aggregate = some entity)
    (hkind : entity.graphEdge = some spec) (hverb : e.verb ≠ .deleted)
    (hends : ends entity e = some t) (hstep : handle reg g e = some h) :
    h = relUpsert g e.aggId t.1 t.2.1 t.2.2 (pick spec.propFields e.payload) e.version := by
  rw [handle, graphApplier_rel hget hkind hverb, hends] at hstep
  obtain ⟨g₁, hop, hrest⟩ := bind_eq_some_iff.mp hstep
  obtain ⟨-, hop⟩ := ite_none_right_eq_some.mp hop
  exact (some.inj (hop.trans hrest)).symm

theorem hasRel_relUpsert {source target : NodeKey} {type : String} :
    HasRel aggId (relUpsert g aggId type source target props version) t ↔
      HasRel aggId g t ∨ (type, source, target) = t := by
  have hnew : ∀ r, hasId aggId r ∧ relEnds r = t ↔ hasId aggId (setRelProps props version r) ∧
        relEnds (setRelProps props version r) = t := by
    intro r
    rw [hasId_setRelProps, relEnds_setRelProps]
  have hid : hasId aggId ⟨type, source, target, [(columnId, .str aggId)]⟩ := by
    simp [hasId]
  refine (exists_mergeRel fun r hr => ?_).trans ?_
  · simp only [Bool.and_eq_true, beq_iff_eq] at hr
    rw [← hnew, ← hnew, hr.2, hid, relEnds, relEnds, hr.1.1.1, hr.1.1.2, hr.1.2]
  · rw [← hnew]
    constructor
    · rintro (⟨r, hr, -, hown⟩ | ⟨-, hends⟩)
      · exact .inl ⟨r, hr, hown⟩
      · exact .inr hends
    · rintro (⟨r, hr, hown, hends⟩ | hends)
      · by_cases hfound : (r.type == type && r.source == source && r.target == target &&
            hasId aggId r)
        · simp only [Bool.and_eq_true, beq_iff_eq] at hfound
          refine Or.inr ⟨hid, ?_⟩
          rw [← hends, relEnds, relEnds, hfound.1.1.1, hfound.1.1.2, hfound.1.2]
        · exact .inl ⟨r, hr, Bool.eq_false_iff.mpr hfound, hown, hends⟩
      · exact .inr ⟨hid, hends⟩

/-- All the aggregate's relationships have the same endpoints and show what the written
events make of them. -/
structure ShowsRel (entity : Entity) (aggId : String) (t : String × NodeKey × NodeKey)
    (es : List Envelope) (g : Graph) : Prop where
  own : ∀ r ∈ g.rels, hasId aggId r = true →
    relEnds r = t ∧ r.props = record entity aggId es
  shown : es ≠ [] ↔ HasRel aggId g t

theorem pass_ne_nil : pass es e ≠ [] := by
  unfold GraphWrites.pass
  split_ifs with hpass
  · simp
  · rintro rfl
    simp at hpass

theorem showsRel_handle (hget : reg.get e.aggregate = some entity)
    (hkind : entity.graphEdge = some spec) (hverb : e.verb ≠ .deleted)
    (hpos : 0 < e.version) (hends : ends entity e = some t)
    (hstamp : ∀ d ∈ es, (written entity d).lookup columnVersion = some (.num d.version))
    (hes : ShowsRel entity e.aggId t es g) (hstep : handle reg g e = some h) :
    ShowsRel entity e.aggId t (pass es e) h := by
  obtain rfl := handle_rel hget hkind hverb hends hstep
  obtain ⟨type, source, target⟩ := t
  have hset : ∀ r : Rel, relEnds r = (type, source, target) → r.props = record entity e.aggId es →
      relEnds (setRelProps (pick spec.propFields e.payload) e.version r) = (type, source, target) ∧
        (setRelProps (pick spec.propFields e.payload) e.version r).props =
          record entity e.aggId (pass es e) := by
    intro r hr hprops
    refine ⟨relEnds_setRelProps.trans hr, ?_⟩
    rw [setRelProps_eq, record_pass hstamp hpos.le, ← hprops, written, hkind]
  constructor
  · intro r hr hid
    rcases mem_mergeRel.mp hr with ⟨hmem, hnot⟩ | ⟨old, hold, hfound, rfl⟩ | ⟨hnone, rfl⟩
    · -- an untouched relationship of the aggregate would have been found
      have heq := (hes.own r hmem hid).1
      simp only [relEnds, Prod.mk.injEq] at heq
      simp [heq.1, heq.2.1, heq.2.2, hid] at hnot
    · rw [hasId_setRelProps] at hid
      obtain ⟨heq, hprops⟩ := hes.own old hold hid
      exact hset old heq hprops
    · refine hset _ rfl ?_
      have hempty : es = [] := by
        by_contra hne
        obtain ⟨r, hr, hown, heq⟩ := hes.shown.mp hne
        simp only [relEnds, Prod.mk.injEq] at heq
        have := any_eq_false.mp hnone r hr
        simp [heq.1, heq.2.1, heq.2.2, hown] at this
      rw [hempty]
      rfl
  · exact iff_of_true pass_ne_nil (hasRel_relUpsert.mpr (.inr rfl))

theorem ShowsRel.shows_iff (hes : ShowsRel entity aggId t es g) (hne : es ≠ [])
    {u : String × NodeKey × NodeKey} {column : String} {value : Option Json} :
    (∃ r ∈ g.rels, hasId aggId r ∧ relEnds r = u ∧ r.props.lookup column = value) ↔
      u = t ∧ (record entity aggId es).lookup column = value := by
  constructor
  · rintro ⟨r, hr, hid, rfl, rfl⟩
    obtain ⟨heq, hprops⟩ := hes.own r hr hid
    exact ⟨heq, by rw [hprops]⟩
  · rintro ⟨rfl, rfl⟩
    obtain ⟨r, hr, hid, heq⟩ := hes.shown.mp hne
    exact ⟨r, hr, hid, heq, by rw [(hes.own r hr hid).2]⟩

/-- The history of one aggregate: its events in version order, a delete last, with the version
stamped into the payloads. -/
structure History (reg : Registry) (entity : Entity) (aggId : String)
    (events : List Envelope) (last : Envelope) : Prop where
  registered : reg.get entity.name = some entity
  valid : reg.validate = true
  projected : entity.graphEdge = none → entity.graphNode ≠ ""
  aggregate : ∀ e ∈ events, e.aggregate = entity.name
  identity : ∀ e ∈ events, e.aggId = aggId
  ordered : events.Pairwise fun d e => d.version < e.version
  positive : ∀ e ∈ events, 0 < e.version
  latest : events.getLast? = some last
  deleted : ∀ e ∈ events, e.verb = .deleted → e = last
  stamped : ∀ e ∈ events, e.verb ≠ .deleted →
    e.payload.lookup columnVersion = some (.num e.version)

/-- Two graphs hold the same node with the same relationships, or the same reified
relationships, for an aggregate. -/
def Agree (entity : Entity) (aggId : String) (g h : Graph) : Prop :=
  match entity.graphEdge with
  | some _ => ∀ u column value,
      (∃ r ∈ g.rels, hasId aggId r = true ∧ relEnds r = u ∧ r.props.lookup column = value) ↔
        ∃ r ∈ h.rels, hasId aggId r = true ∧ relEnds r = u ∧ r.props.lookup column = value
  | none =>
    (∀ column, (g.nodes.lookup ⟨entity.graphNode, aggId⟩).map (lookup column) =
      (h.nodes.lookup ⟨entity.graphNode, aggId⟩).map (lookup column)) ∧
    ∀ type target value, g.links ⟨entity.graphNode, aggId⟩ type target value ↔
      h.links ⟨entity.graphNode, aggId⟩ type target value

/-- The deliveries that end in the projection of the last event: a delete is delivered last;
otherwise no delivered event has other endpoints, or sets a column that the last one does not. -/
def Settles (reg : Registry) (entity : Entity) (delivery : List Envelope) (last : Envelope) :
    Prop :=
  let es := delivery.filter (projects reg)
  if last.verb = .deleted then es.getLast?.map (fun e => e.version) = some last.version
  else
    (∀ e ∈ es, ends entity e = ends entity last) ∧ Covered entity (applied es) last

instance : Decidable (Settles reg entity delivery last) := by
  unfold Settles
  infer_instance

theorem handle_of_not_projects (hskip : projects reg e = false) : handle reg g e = some g := by
  have hnone : graphApplier reg e = none := by simpa [projects] using hskip
  rw [handle, hnone]

theorem run_applied {Shows : List Envelope → Graph → Prop} {ok : Envelope → Prop}
    (hstep : ∀ acc g e h, (∀ d ∈ acc, ok d) → ok e → Shows acc g → handle reg g e = some h →
      Shows (pass acc e) h) (hempty : Shows [] .empty) (hes : ∀ e ∈ es, ok e)
    (hrun : run (handle reg) .empty es = some g) : Shows (applied es) g := by
  have hboth : ∀ (acc : List Envelope) (g : Graph) (e : Envelope) (h : Graph), ok e →
      (∀ d ∈ acc, ok d) ∧ Shows acc g → handle reg g e = some h →
      (∀ d ∈ pass acc e, ok d) ∧ Shows (pass acc e) h := by
    rintro acc g e h he ⟨hacc, hshows⟩ hhandle
    refine ⟨fun d hd => ?_, hstep acc g e h hacc he hshows hhandle⟩
    rcases mem_pass hd with hd | rfl
    · exact hacc d hd
    · exact he
  exact (run_refines hboth ⟨by simp, hempty⟩ hes hrun).2

theorem handle_relDelete (hget : reg.get e.aggregate = some entity)
    (hkind : entity.graphEdge = some spec) (hverb : e.verb = .deleted) :
    handle reg g e = some (relDelete g e.aggId e.version) := by
  simp only [handle, graphApplier, hget, hkind, reifiedEdgeMutations, hverb]
  rfl

theorem isSome_ends (hget : reg.get e.aggregate = some entity)
    (hkind : entity.graphEdge = some spec) (hverb : e.verb ≠ .deleted) :
    (ends entity e).isSome = projects reg e := by
  rw [projects, graphApplier_rel hget hkind hverb, isSome_map]

theorem run_single (href : handle reg g e = some h) : run (handle reg) g [e] = some h := by
  rw [run, href]
  rfl

variable {events : List Envelope} {last : Envelope}

section

variable (hist : History reg entity aggId events last)
include hist

section

variable (he : e ∈ events)
include he

theorem History.get : reg.get e.aggregate = some entity := by
  rw [hist.aggregate e he]
  exact hist.registered

theorem History.written_version (hverb : e.verb ≠ .deleted) :
    (written entity e).lookup columnVersion = some (.num e.version) :=
  lookup_written_version (hist.stamped e he hverb)

omit he in
theorem History.last_mem : last ∈ events := mem_of_getLast? hist.latest

theorem History.eq_last_or_lt : e = last ∨ e.version < last.version := by
  obtain ⟨init, rfl⟩ := getLast?_eq_some_iff.mp hist.latest
  rcases mem_append.mp he with he | he
  · exact .inr ((pairwise_append.mp hist.ordered).2.2 e he last (by simp))
  · exact .inl (mem_singleton.mp he)

theorem History.le_last : e.version ≤ last.version := by
  rcases hist.eq_last_or_lt he with rfl | hlt
  · exact le_rfl
  · exact hlt.le

theorem History.eq_last_of_le (hle : last.version ≤ e.version) : e = last :=
  (hist.eq_last_or_lt he).resolve_right hle.not_gt

end

theorem History.getLast?_applied (hes : ∀ e ∈ es, e ∈ events) (hlast : last ∈ es) :
    (applied es).getLast? = some last := by
  obtain ⟨c, hc, hget, hle⟩ := exists_getLast?_applied hlast
  rw [hget, hist.eq_last_of_le (hes c hc) hle]

theorem showsNode_run (hkind : entity.graphEdge = none)
    (hes : ∀ e ∈ es, e ∈ events ∧ e.verb ≠ .deleted)
    (hrun : run (handle reg) .empty es = some g) : ShowsNode reg entity aggId (applied es) g := by
  refine run_applied (fun acc g e h hacc he hshows hstep => ?_) ⟨rfl, ?_⟩ hes hrun
  · rw [← hist.identity e he.1] at hshows ⊢
    refine showsNode_handle hist.valid (hist.get he.1) hkind (hist.projected hkind) he.2
      (hist.positive e he.1) (fun d hd => ?_) hshows hstep
    rcases mem_append.mp hd with hd | hd
    · exact hist.written_version (hacc d hd).1 (hacc d hd).2
    · rw [mem_singleton.mp hd]
      exact hist.written_version he.1 he.2
  · funext type x value
    exact propext ⟨fun ⟨r, hr, _⟩ => absurd hr (by simp [Graph.empty]), False.elim⟩

section

variable (hkind : entity.graphEdge = some spec)
include hkind

theorem showsRel_run (hes : ∀ e ∈ es, e ∈ events ∧ e.verb ≠ .deleted ∧ ends entity e = some t)
    (hrun : run (handle reg) .empty es = some g) : ShowsRel entity aggId t (applied es) g := by
  refine run_applied (fun acc g e h hacc he hshows hstep => ?_) ⟨?_, ?_⟩ hes hrun
  · rw [← hist.identity e he.1] at hshows ⊢
    exact showsRel_handle (hist.get he.1) hkind he.2.1 (hist.positive e he.1) he.2.2
      (fun d hd => hist.written_version (hacc d hd).1 (hacc d hd).2.1) hshows hstep
  · exact fun r hr => absurd hr (by simp [Graph.empty])
  · exact iff_of_false (by simp) fun ⟨r, hr, _⟩ => absurd hr (by simp [Graph.empty])

theorem hasRel_run (hes : ∀ e ∈ es, e ∈ events ∧ e.verb ≠ .deleted ∧ (ends entity e).isSome)
    (hrun : run (handle reg) .empty es = some g) :
    HasRel aggId g t ↔ ∃ e ∈ es, ends entity e = some t := by
  induction es using reverseRecOn generalizing g with
  | nil =>
    cases hrun
    simp [HasRel, Graph.empty]
  | append_singleton init e ih =>
    obtain ⟨g₀, hinit, hstep⟩ := run_concat.mp hrun
    obtain ⟨he, hverb, hsome⟩ := hes e (by simp)
    obtain ⟨u, hu⟩ := isSome_iff_exists.mp hsome
    obtain rfl := handle_rel (hist.get he) hkind hverb hu hstep
    have hold := ih (fun d hd => hes d (by simp [hd])) hinit
    rw [hist.identity e he, hasRel_relUpsert, hold]
    constructor
    · rintro (⟨d, hd, hends⟩ | hends)
      · exact ⟨d, by simp [hd], hends⟩
      · exact ⟨e, by simp, hu.trans (congrArg some hends)⟩
    · rintro ⟨d, hd, hends⟩
      rcases mem_append.mp hd with hd | hd
      · exact .inl ⟨d, hd, hends⟩
      · rw [mem_singleton.mp hd, hu] at hends
        exact .inr (some.inj hends)

theorem gated_run (hes : ∀ e ∈ es, e ∈ events ∧ projects reg e)
    (hrun : run (handle reg) .empty es = some g) : g.gated aggId last.version := by
  induction es using reverseRecOn generalizing g with
  | nil =>
    cases hrun
    exact fun r hr => absurd hr (by simp [Graph.empty])
  | append_singleton init e ih =>
    obtain ⟨g₀, hinit, hstep⟩ := run_concat.mp hrun
    obtain ⟨he, hproj⟩ := hes e (by simp)
    have hold := ih (fun d hd => hes d (by simp [hd])) hinit
    by_cases hverb : e.verb = .deleted
    · rw [handle_relDelete (hist.get he) hkind hverb] at hstep
      cases hstep
      exact fun r hr => hold r (mem_of_mem_filter hr)
    · rw [← isSome_ends (hist.get he) hkind hverb] at hproj
      obtain ⟨t, ht⟩ := isSome_iff_exists.mp hproj
      obtain rfl := handle_rel (hist.get he) hkind hverb ht hstep
      rw [hist.identity e he]
      exact gated_relUpsert hold (hist.positive e he).le (hist.le_last he)

omit hkind in
theorem deleted_or_lt (hverb : last.verb = .deleted) (he : e ∈ events) :
    e = last ∨ (e.verb ≠ .deleted ∧ e.version < last.version) := by
  rcases hist.eq_last_or_lt he with rfl | hlt
  · exact .inl rfl
  · refine Or.inr ⟨fun hdeleted => ?_, hlt⟩
    rw [hist.deleted e he hdeleted] at hlt
    exact lt_irrefl _ hlt

section

variable (hrun : run (handle reg) .empty es = some g) (href : handle reg .empty last = some h)
include hrun href

omit hkind in
theorem agree_node_deleted (hkind : entity.graphEdge = none) (hverb : last.verb = .deleted)
    (hes : ∀ e ∈ es, e ∈ events) (hlast : last ∈ es) :
    Agree entity aggId g h ↔ es.getLast?.map (fun e => e.version) = some last.version := by
  obtain ⟨init, e, rfl⟩ := eq_nil_or_concat' es |>.resolve_left (ne_nil_of_mem hlast)
  obtain ⟨g₀, -, hstep⟩ := run_concat.mp hrun
  have he := hes e (by simp)
  have hlabel := hist.projected hkind
  obtain rfl := handle_nodeDelete (hist.get hist.last_mem) hkind hlabel hverb href
  rw [hist.identity last hist.last_mem, getLast?_concat, map_some, some.injEq]
  simp only [Agree, hkind]
  rcases deleted_or_lt hist hverb he with rfl | ⟨hupsert, hlt⟩
  · obtain rfl := handle_nodeDelete (hist.get he) hkind hlabel hverb hstep
    rw [hist.identity _ he]
    refine iff_of_true ⟨fun column => ?_, fun type x value => ?_⟩ rfl
    · simp [nodeDelete, Assoc.lookup_drop]
    · exact iff_of_false not_links_nodeDelete not_links_nodeDelete
  · refine iff_of_false (fun hagree => ?_) hlt.ne
    have hnode := (handle_node hist.valid (hist.get he) hkind hlabel hupsert hstep rfl
      (hist.written_version he hupsert)).1
    have hnone := hagree.1 columnId
    rw [← hist.identity e he, hnode] at hnone
    simp [nodeDelete, Assoc.lookup_drop] at hnone

theorem agree_rel_deleted (hverb : last.verb = .deleted)
    (hes : ∀ e ∈ es, e ∈ events ∧ projects reg e) (hlast : last ∈ es) :
    Agree entity aggId g h ↔ es.getLast?.map (fun e => e.version) = some last.version := by
  obtain ⟨init, e, rfl⟩ := eq_nil_or_concat' es |>.resolve_left (ne_nil_of_mem hlast)
  obtain ⟨g₀, hinit, hstep⟩ := run_concat.mp hrun
  obtain ⟨he, hproj⟩ := hes e (by simp)
  have hgated := gated_run hist hkind (fun d hd => hes d (by simp [hd])) hinit
  rw [handle_relDelete (hist.get hist.last_mem) hkind hverb] at href
  cases href
  rw [getLast?_concat, map_some, some.injEq]
  simp only [Agree, hkind]
  rcases deleted_or_lt hist hverb he with rfl | ⟨hupsert, hlt⟩
  · rw [handle_relDelete (hist.get he) hkind hverb] at hstep
    cases hstep
    refine iff_of_true (fun u column value => iff_of_false ?_ ?_) rfl
    · rintro ⟨r, hr, hid, -⟩
      rw [hist.identity _ he] at hr
      rw [hasId_relDelete hgated hr] at hid
      cases hid
    · rintro ⟨r, hr, -⟩
      simp [relDelete, Graph.empty] at hr
  · refine iff_of_false (fun hagree => ?_) hlt.ne
    rw [← isSome_ends (hist.get he) hkind hupsert] at hproj
    obtain ⟨t, ht⟩ := isSome_iff_exists.mp hproj
    obtain rfl := handle_rel (hist.get he) hkind hupsert ht hstep
    rw [hist.identity e he] at hagree
    obtain ⟨r, hr, hid, heq⟩ : HasRel aggId _ t := hasRel_relUpsert.mpr (.inr rfl)
    obtain ⟨r', hr', -⟩ := (hagree t columnId _).mp ⟨r, hr, hid, heq, rfl⟩
    simp [relDelete, Graph.empty] at hr'

omit hkind in
theorem agree_node (hkind : entity.graphEdge = none) (hverb : last.verb ≠ .deleted)
    (hes : ∀ e ∈ es, e ∈ events ∧ e.verb ≠ .deleted) (hlast : last ∈ es) :
    Agree entity aggId g h ↔
      (∀ e ∈ es, ends entity e = ends entity last) ∧ Covered entity (applied es) last := by
  have hnewest := hist.getLast?_applied (fun e he => (hes e he).1) hlast
  have hg := showsNode_run hist hkind hes hrun
  have hh : ShowsNode reg entity aggId [last] h :=
    showsNode_run hist hkind (by simpa using ⟨hist.last_mem, hverb⟩) (run_single href)
  have hends : ∀ e ∈ es, ends entity e = ends entity last := by
    intro e _
    rw [ends, ends, hkind]
    rfl
  rw [and_iff_right hends, ← lookup_record_eq_iff aggId hnewest]
  simp only [Agree, hkind, hg.node, hh.node, hg.links, hh.links, hnewest, getLast?_singleton,
    map_some, some.injEq, implies_true, and_true]

theorem agree_rel (hverb : last.verb ≠ .deleted)
    (hes : ∀ e ∈ es, e ∈ events ∧ e.verb ≠ .deleted ∧ projects reg e)
    (hlast : projects reg last → last ∈ es) :
    Agree entity aggId g h ↔
      (∀ e ∈ es, ends entity e = ends entity last) ∧ Covered entity (applied es) last := by
  have hsome : ∀ e ∈ es, e ∈ events ∧ e.verb ≠ .deleted ∧ (ends entity e).isSome := by
    intro e he
    obtain ⟨hmem, hupsert, hproj⟩ := hes e he
    exact ⟨hmem, hupsert, by rw [isSome_ends (hist.get hmem) hkind hupsert, hproj]⟩
  have hrels : ∀ t, HasRel aggId g t ↔ ∃ e ∈ es, ends entity e = some t :=
    fun t => hasRel_run hist hkind hsome hrun
  simp only [Agree, hkind]
  cases hends : ends entity last with
  | none =>
    -- the applier refuses the last event, which therefore projects nothing
    have hskip : projects reg last = false := by
      rw [← isSome_ends (hist.get hist.last_mem) hkind hverb, hends]
      rfl
    rw [handle_of_not_projects hskip, some.injEq] at href
    subst href
    constructor
    · intro hagree
      have hnil : es = [] := by
        refine eq_nil_iff_forall_not_mem.mpr fun e he => ?_
        obtain ⟨t, ht⟩ := isSome_iff_exists.mp (hsome e he).2.2
        obtain ⟨r, hr, hid, heq⟩ := (hrels t).mpr ⟨e, he, ht⟩
        obtain ⟨r', hr', -⟩ := (hagree t columnId _).mp ⟨r, hr, hid, heq, rfl⟩
        simp [Graph.empty] at hr'
      subst hnil
      exact ⟨by simp, by simp [Covered, applied]⟩
    · rintro ⟨hnone, -⟩ u column value
      refine iff_of_false ?_ (by simp [Graph.empty])
      rintro ⟨r, hr, hid, heq, -⟩
      obtain ⟨e, he, ht⟩ := (hrels u).mp ⟨r, hr, hid, heq⟩
      rw [hnone e he] at ht
      exact some_ne_none _ ht.symm
  | some t =>
    have hmem : last ∈ es := hlast (by
      rw [← isSome_ends (hist.get hist.last_mem) hkind hverb, hends]
      rfl)
    have hnewest := hist.getLast?_applied (fun e he => (hes e he).1) hmem
    have hne : applied es ≠ [] := fun hnil => by simp [hnil] at hnewest
    have hh : ShowsRel entity aggId t [last] h :=
      showsRel_run hist hkind (by simpa using ⟨hist.last_mem, hverb, hends⟩) (run_single href)
    have hg : (∀ e ∈ es, ends entity e = some t) → ShowsRel entity aggId t (applied es) g :=
      fun hall => showsRel_run hist hkind
        (fun e he => ⟨(hes e he).1, (hes e he).2.1, hall e he⟩) hrun
    rw [← lookup_record_eq_iff aggId hnewest]
    constructor
    · intro hagree
      have hall : ∀ e ∈ es, ends entity e = some t := by
        intro e he
        obtain ⟨u, hu⟩ := isSome_iff_exists.mp (hsome e he).2.2
        obtain ⟨r, hr, hid, heq⟩ := (hrels u).mpr ⟨e, he, hu⟩
        obtain ⟨r', hr', hid', heq', -⟩ := (hagree u columnId _).mp ⟨r, hr, hid, heq, rfl⟩
        rw [hu, ← heq', (hh.own r' hr' hid').1]
      refine ⟨hall, fun column => ?_⟩
      have hshown := (hagree t column _).mp (((hg hall).shows_iff hne).mpr ⟨rfl, rfl⟩)
      exact ((hh.shows_iff (by simp)).mp hshown).2.symm
    · rintro ⟨hall, hrecord⟩ u column value
      rw [(hg hall).shows_iff hne, hh.shows_iff (by simp), hrecord column]

end

end

end

theorem isSome_run : (run (handle reg) g es).isSome ↔ ∀ e ∈ es, accepts reg e := by
  induction es generalizing g with
  | nil => simp [run]
  | cons e rest ih =>
    rw [run, forall_mem_cons, ← isSome_handle g]
    cases handle reg g e with
    | none => simp
    | some h => simp [ih]

theorem agree_of_run (hist : History reg entity aggId events last)
    {delivery : List Envelope} (hsound : ∀ e ∈ delivery, e ∈ events)
    (hcomplete : ∀ e ∈ events, e ∈ delivery) (hrun : run (handle reg) .empty delivery = some g)
    (href : handle reg .empty last = some h) :
    Agree entity aggId g h ↔ Settles reg entity delivery last := by
  have hrun' : run (handle reg) .empty _ = some g :=
    (run_filter (fun _ _ => handle_of_not_projects) _ _).trans hrun
  have hes : ∀ e ∈ delivery.filter _, e ∈ events ∧ projects reg e :=
    fun e he => ⟨hsound e (mem_filter.mp he).1, (mem_filter.mp he).2⟩
  have hlast : projects reg last → last ∈ delivery.filter _ :=
    fun hprojects => mem_filter.mpr ⟨hcomplete last hist.last_mem, hprojects⟩
  unfold Settles
  split_ifs with hverb
  · cases hkind : entity.graphEdge with
    | none =>
      have hprojects : projects reg last := by
        simp [projects, graphApplier, hist.get hist.last_mem, hkind, hist.projected hkind, hverb]
      exact agree_node_deleted hist hrun' href hkind hverb (fun e he => (hes e he).1)
        (hlast hprojects)
    | some spec =>
      have hprojects : projects reg last := by
        simp [projects, graphApplier, hist.get hist.last_mem, hkind, reifiedEdgeMutations, hverb]
      exact agree_rel_deleted hist hkind hrun' href hverb hes (hlast hprojects)
  · have hupsert : ∀ e ∈ events, e.verb ≠ .deleted :=
      fun e he hdeleted => hverb (hist.deleted e he hdeleted ▸ hdeleted)
    cases hkind : entity.graphEdge with
    | none =>
      have hprojects : projects reg last := by
        rw [projects, graphApplier_node hist.valid (hist.get hist.last_mem) hkind
          (hist.projected hkind) hverb]
        rfl
      exact agree_node hist hrun' href hkind hverb
        (fun e he => ⟨(hes e he).1, hupsert e (hes e he).1⟩) (hlast hprojects)
    | some spec =>
      exact agree_rel hist hkind hrun' href hverb
        (fun e he => ⟨(hes e he).1, hupsert e (hes e he).1, (hes e he).2⟩) hlast

def site : Entity where
  name := "site"
  columns := ["id", "version"]
  graphNode := "Site"

def asset : Entity where
  name := "asset"
  columns := ["id", "site_id", "version"]
  graphNode := "Asset"
  edges := [⟨"site_id", "LOCATED_AT", "site"⟩]

def assetEvent (version : Int) (verb : Verb) (payload : Fields) : Envelope :=
  ⟨"acme", "", "asset", "a1", version, verb, payload⟩

def placed : Envelope :=
  assetEvent 1 .created [("site_id", .str "s1"), ("version", .num 1)]

def moved : Envelope :=
  assetEvent 2 .updated [("site_id", .str "s2"), ("version", .num 2)]

def removed : Envelope :=
  assetEvent 2 .deleted []

theorem history_of_last
    (hevents : ∀ e ∈ events, e.aggregate = "asset" ∧ e.aggId = "a1" ∧ 0 < e.version)
    (hordered : events.Pairwise fun d e => d.version < e.version)
    (hlatest : events.getLast? = some last) (hdeleted : ∀ e ∈ events, e.verb = .deleted → e = last)
    (hstamp : ∀ e ∈ events, e.verb ≠ .deleted →
      e.payload.lookup columnVersion = some (.num e.version)) :
    History [site, asset] asset "a1" events last where
  registered := rfl
  valid := by decide
  projected := fun _ => by decide
  aggregate := fun e he => (hevents e he).1
  identity := fun e he => (hevents e he).2.1
  ordered := hordered
  positive := fun e he => (hevents e he).2.2
  latest := hlatest
  deleted := hdeleted
  stamped := hstamp

theorem history_removed : History [site, asset] asset "a1" [placed, removed] removed :=
  history_of_last (by decide) (by decide) rfl (by simp [placed, assetEvent])
    (by simp [placed, removed, assetEvent]; rfl)

theorem history_moved : History [site, asset] asset "a1" [placed, moved] moved :=
  history_of_last (by decide) (by decide) rfl (by simp [placed, assetEvent])
    (by simp [placed, moved, assetEvent]; exact ⟨rfl, rfl⟩)

end Fabriq.Projection.GraphConvergence
