import Mathlib.Data.List.Induction
import Fabriq.Lib.Result
import Fabriq.Projection.GraphStore

namespace Fabriq.Projection.GraphWrites

open Core.Schema Core.Value Lib Lib.Result Projection.Applier Projection.GraphStore List

/-- What an upsert event sets on the node or on the relationship of its aggregate. -/
def written (entity : Entity) (env : Envelope) : Fields :=
  match entity.graphEdge with
  | some spec => relFields (pick spec.propFields env.payload) env.version
  | none => settable (nodeProps env)

def pass (es : List Envelope) (e : Envelope) : List Envelope :=
  if es.getLast?.all fun c => decide (c.version ≤ e.version) then es ++ [e] else es

def applied (delivery : List Envelope) : List Envelope :=
  delivery.foldl pass []

def carried (entity : Entity) (es : List Envelope) (column : String) : Option Json :=
  es.foldl (fun held e => ((written entity e).lookup column).or held) none

/-- The properties after some upserts are written to a fresh node or relationship. -/
def record (entity : Entity) (id : String) (es : List Envelope) : Fields :=
  es.foldl (fun held e => setProps (written entity e) held) [(columnId, .str id)]

/-- Every column that the written events leave set is set by the last one as well. -/
def Covered (entity : Entity) (es : List Envelope) (last : Envelope) : Prop :=
  ∀ e ∈ es, ∀ field ∈ written entity e,
    ((carried entity es field.1).bind stored).isSome →
      ((written entity last).lookup field.1).isSome

instance : Decidable (Covered entity es last) := by
  unfold Covered
  infer_instance

variable {entity : Entity} {id column : String} {es : List Envelope} {e last : Envelope}
  {version : Int}

theorem carried_concat : carried entity (es ++ [e]) column =
      ((written entity e).lookup column).or (carried entity es column) := by
  rw [carried, foldl_append]
  rfl

theorem record_concat :
    record entity id (es ++ [e]) = setProps (written entity e) (record entity id es) := by
  rw [record, foldl_append]
  rfl

theorem lookup_record : (record entity id es).lookup column =
      (carried entity es column).elim (List.lookup column [(columnId, Json.str id)]) stored := by
  induction es using List.reverseRecOn with
  | nil => rfl
  | append_singleton init e ih =>
    rw [record_concat, lookup_setProps, carried_concat, ih]
    cases (written entity e).lookup column <;> rfl

theorem ne_id_of_mem_written {field : String × Json} (h : field ∈ written entity e) :
    field.1 ≠ columnId := by
  unfold written at h
  split at h
  · exact ne_id_of_mem_relFields h
  · exact ne_id_of_mem_settable h

theorem lookup_new (h : column ≠ columnId) :
    List.lookup column [(columnId, Json.str id)] = none := by
  rw [lookup_cons, beq_eq_false_iff_ne.mpr h]
  rfl

theorem mem_of_carried {v : Json} (h : carried entity es column = some v) :
    ∃ e ∈ es, (column, v) ∈ written entity e := by
  induction es using List.reverseRecOn with
  | nil => simp [carried] at h
  | append_singleton init e ih =>
    rw [carried_concat, Option.or_eq_some_iff] at h
    rcases h with hnew | ⟨-, hold⟩
    · exact ⟨e, by simp, Assoc.mem_of_lookup hnew⟩
    · obtain ⟨d, hd, hmem⟩ := ih hold
      exact ⟨d, by simp [hd], hmem⟩

theorem lookup_record_eq_iff (id : String) (hlast : es.getLast? = some last) :
    (∀ column, (record entity id es).lookup column =
        (record entity id [last]).lookup column) ↔ Covered entity es last := by
  have hone : ∀ column, carried entity [last] column = (written entity last).lookup column :=
    fun column => by rw [← nil_append [last], carried_concat]; simp [carried]
  obtain ⟨init, rfl⟩ := List.getLast?_eq_some_iff.mp hlast
  simp only [lookup_record, hone]
  constructor
  · intro hrecord e he field hfield hset
    by_contra hnone
    rw [Option.not_isSome_iff_eq_none] at hnone
    have hbase : List.lookup field.1 [(columnId, Json.str id)] = none :=
      lookup_new (ne_id_of_mem_written hfield)
    have hsame := hrecord field.1
    rw [hnone, hbase] at hsame
    cases hcarried : carried entity (init ++ [last]) field.1 with
    | none => simp [hcarried] at hset
    | some v =>
      rw [hcarried] at hsame hset
      rw [Option.elim_none, Option.elim_some] at hsame
      simp [hsame] at hset
  · intro hcovered column
    cases hlookup : (written entity last).lookup column with
    | some v => rw [carried_concat, hlookup, Option.some_or]
    | none =>
      cases hcarried : carried entity (init ++ [last]) column with
      | none => rfl
      | some v =>
        obtain ⟨e, he, hfield⟩ := mem_of_carried hcarried
        have hnot := mt (hcovered e he (column, v) hfield)
        simp only [hcarried, hlookup, Option.bind_some, Option.isSome_none,
          Bool.false_eq_true, not_false_eq_true, true_implies,
          Option.not_isSome_iff_eq_none] at hnot
        rw [Option.elim_some, Option.elim_none, hnot, lookup_new (ne_id_of_mem_written hfield)]

theorem gate_record (hstamp : ∀ e ∈ es,
      (written entity e).lookup columnVersion = some (.num e.version)) (hpos : 0 ≤ version) :
    gate (record entity id es) version = es.getLast?.all fun c => decide (c.version ≤ version) := by
  rcases es.eq_nil_or_concat' with rfl | ⟨init, c, rfl⟩
  · simpa [record, gate, lookup_cons, columnId, columnVersion] using hpos
  · have hversion : (record entity id (init ++ [c])).lookup columnVersion =
        some (.num c.version) := by
      rw [lookup_record, carried_concat, hstamp c (by simp)]
      rfl
    rw [gate_of_lookup hversion, List.getLast?_concat]
    rfl

theorem record_pass (hstamp : ∀ e ∈ es,
      (written entity e).lookup columnVersion = some (.num e.version)) (hpos : 0 ≤ e.version) :
    record entity id (pass es e) = if gate (record entity id es) e.version then
        setProps (written entity e) (record entity id es) else record entity id es := by
  rw [gate_record hstamp hpos, pass]
  split_ifs
  · exact record_concat
  · rfl

theorem mem_pass {d : Envelope} (h : d ∈ pass es e) : d ∈ es ∨ d = e := by
  unfold pass at h
  split_ifs at h
  · simpa using h
  · exact .inl h

theorem applied_concat : applied (es ++ [e]) = pass (applied es) e := by
  rw [applied, foldl_append]
  rfl

theorem exists_getLast?_applied (h : e ∈ es) :
    ∃ c ∈ es, (applied es).getLast? = some c ∧ e.version ≤ c.version := by
  induction es using List.reverseRecOn generalizing e with
  | nil => simp at h
  | append_singleton init d ih =>
    rw [applied_concat, pass]
    split_ifs with hpass
    · refine ⟨d, by simp, by simp, ?_⟩
      rcases mem_append.mp h with h | h
      · obtain ⟨c, -, hc, hle⟩ := ih h
        rw [hc, Option.all_some, decide_eq_true_eq] at hpass
        exact hle.trans hpass
      · rw [mem_singleton.mp h]
    · obtain ⟨c, hc, hold⟩ : ∃ c, (applied init).getLast? = some c ∧ d.version < c.version := by
        cases hlast : (applied init).getLast? with
        | none => simp [hlast] at hpass
        | some c => exact ⟨c, rfl, by simpa [hlast] using hpass⟩
      rcases mem_append.mp h with h | h
      · obtain ⟨b, hb, hlast, hle⟩ := ih h
        exact ⟨b, by simp [hb], hlast, hle⟩
      · obtain ⟨f, hf⟩ : ∃ f, f ∈ init := by
          cases init with
          | nil => simp [applied] at hc
          | cons f rest => exact ⟨f, by simp⟩
        obtain ⟨b, hb, hlast, -⟩ := ih hf
        rw [hc, Option.some.injEq] at hlast
        rw [mem_singleton.mp h]
        exact ⟨c, by simp [hlast, hb], hc, hold.le⟩

variable {reg : Registry} {edge : EdgeSpec} {edges : List EdgeSpec} {g h : Graph} {held : Fields}

abbrev Links := String → NodeKey → Option Json → Prop

def noLinks : Links :=
  fun _ _ _ => False

def targetLabel (reg : Registry) (edge : EdgeSpec) : String :=
  ((reg.get edge.target).map fun target => target.graphNode).getD ""

def targetKey (reg : Registry) (env : Envelope) (edge : EdgeSpec) : NodeKey :=
  ⟨targetLabel reg edge, stringProp (nodeProps env) edge.field⟩

def relink (reg : Registry) (env : Envelope) (links : Links) (edge : EdgeSpec) : Links :=
  fun type x value =>
    if type = edge.rel then
      (targetKey reg env edge).id ≠ "" ∧ x.id = (targetKey reg env edge).id ∧
        if x = targetKey reg env edge then value = some (.num env.version)
        else links type x value
    else links type x value

def relinkAll (reg : Registry) (env : Envelope) (edges : List EdgeSpec) (links : Links) : Links :=
  edges.foldl (relink reg env) links

def edgeOp (reg : Registry) (entity : Entity) (env : Envelope) (edge : EdgeSpec) : Mutation :=
  if (targetKey reg env edge).id = "" then
    .edgeDelete edge.rel entity.graphNode env.aggId env.version
  else
    .edgeUpsert edge.rel entity.graphNode env.aggId (targetLabel reg edge)
      (targetKey reg env edge).id env.version

theorem edgeMutation_eq (hvalid : reg.validate) (hentity : entity ∈ reg)
    (hedge : edge ∈ entity.edges) :
    edgeMutation reg entity e (nodeProps e) edge = some (edgeOp reg entity e edge) := by
  have htarget := all_eq_true.mp (all_eq_true.mp hvalid entity hentity) edge hedge
  obtain ⟨target, hget, hlabel⟩ := (Option.any_eq_true _ _).mp htarget
  have hlabel' : target.graphNode ≠ "" := by simpa using hlabel
  have hname : targetLabel reg edge = target.graphNode := by
    rw [targetLabel, hget]
    rfl
  rw [edgeMutation, hget, Option.bind_eq_bind, Option.bind_some, if_neg hlabel', edgeOp, hname]
  exact (apply_ite some _ _ _).symm

theorem links_edgeOp (hheld : g.nodes.lookup ⟨entity.graphNode, e.aggId⟩ = some held)
    (hop : applyMutation g (edgeOp reg entity e edge) = some h) :
    h.nodes.lookup ⟨entity.graphNode, e.aggId⟩ = some held ∧ h.links ⟨entity.graphNode, e.aggId⟩ =
        if gate held e.version then relink reg e (g.links ⟨entity.graphNode, e.aggId⟩) edge
        else g.links ⟨entity.graphNode, e.aggId⟩ := by
  unfold edgeOp at hop
  split_ifs at hop with hempty
  · obtain ⟨-, hdelete⟩ := Option.ite_none_right_eq_some.mp hop
    rw [Option.some.injEq] at hdelete
    subst hdelete
    by_cases hgate : gate held e.version
    · refine ⟨?_, ?_⟩
      · simp only [edgeDelete, hheld, if_pos hgate]
      · rw [if_pos hgate]
        funext type x value
        rw [eq_iff_iff, links_edgeDelete hheld hgate, relink]
        split_ifs with htype <;> simp [htype, hempty]
    · simp only [edgeDelete, hheld, if_neg hgate, and_self]
  · obtain ⟨-, hupsert⟩ := Option.ite_none_right_eq_some.mp hop
    rw [Option.some.injEq] at hupsert
    subst hupsert
    by_cases hgate : gate held e.version
    · refine ⟨?_, ?_⟩
      · simp only [edgeUpsert, hheld, if_pos hgate, lookup_mergeNode]
        split_ifs with hself
        · rw [← hself, hheld]
          rfl
        · rfl
      · rw [if_pos hgate]
        funext type x value
        rw [eq_iff_iff, links_edgeUpsert hheld hgate, relink]
        by_cases htype : type = edge.rel
        · rw [if_pos htype, if_pos htype]
          exact ⟨fun hlink => ⟨hempty, hlink⟩, And.right⟩
        · rw [if_neg htype, if_neg htype]
    · simp only [edgeUpsert, hheld, if_neg hgate, and_self]

theorem links_edgeOps (hheld : g.nodes.lookup ⟨entity.graphNode, e.aggId⟩ = some held)
    (hops : applyMutations g (edges.map (edgeOp reg entity e)) = some h) :
    h.nodes.lookup ⟨entity.graphNode, e.aggId⟩ = some held ∧ h.links ⟨entity.graphNode, e.aggId⟩ =
        if gate held e.version then relinkAll reg e edges (g.links ⟨entity.graphNode, e.aggId⟩)
        else g.links ⟨entity.graphNode, e.aggId⟩ := by
  induction edges generalizing g with
  | nil =>
    rw [map_nil, applyMutations, Option.some.injEq] at hops
    subst hops
    exact ⟨hheld, by simp [relinkAll]⟩
  | cons edge rest ih =>
    obtain ⟨g₁, hop, hrest⟩ := Option.bind_eq_some_iff.mp hops
    obtain ⟨hheld₁, hlinks₁⟩ := links_edgeOp hheld hop
    obtain ⟨hheld₂, hlinks₂⟩ := ih hheld₁ hrest
    refine ⟨hheld₂, hlinks₂.trans ?_⟩
    rw [hlinks₁]
    split_ifs <;> rfl

theorem relinkAll_iff {links : Links} {type : String} {x : NodeKey} {value : Option Json} :
    relinkAll reg e edges links type x value ↔ relinkAll reg e edges noLinks type x value ∨
        (links type x value ∧ ∀ edge ∈ edges, edge.rel = type →
          (targetKey reg e edge).id ≠ "" ∧ x.id = (targetKey reg e edge).id ∧
            x ≠ targetKey reg e edge) := by
  induction edges generalizing links with
  | nil => simp [relinkAll, noLinks]
  | cons edge rest ih =>
    have hone : relink reg e links edge type x value ↔ relink reg e noLinks edge type x value ∨
          (links type x value ∧ (edge.rel = type →
            (targetKey reg e edge).id ≠ "" ∧ x.id = (targetKey reg e edge).id ∧
              x ≠ targetKey reg e edge)) := by
      unfold relink noLinks
      by_cases htype : type = edge.rel
      · by_cases hx : x = targetKey reg e edge
        · simp [htype, hx]
        · simp only [htype, if_true, if_false, hx, and_false, false_or, true_implies,
            not_false_eq_true, and_true, ne_eq]
          exact ⟨fun ⟨hfk, hid, hlink⟩ => ⟨hlink, hfk, hid⟩,
            fun ⟨hlink, hfk, hid⟩ => ⟨hfk, hid, hlink⟩⟩
      · simp [htype, Ne.symm htype]
    have hnone := @ih (relink reg e noLinks edge)
    rw [forall_mem_cons]
    change relinkAll reg e rest (relink reg e links edge) type x value ↔
      relinkAll reg e rest (relink reg e noLinks edge) type x value ∨ _
    rw [ih, hnone, hone, or_and_right, and_assoc, or_assoc]

def Labelled (reg : Registry) (entity : Entity) (links : Links) : Prop :=
  ∀ type x value, links type x value →
    ∃ edge ∈ entity.edges, edge.rel = type ∧ x.label = targetLabel reg edge

theorem labelled_relinkAll (hedges : ∀ edge ∈ edges, edge ∈ entity.edges) :
    Labelled reg entity (relinkAll reg e edges noLinks) := by
  induction edges with
  | nil => exact fun _ _ _ hlink => hlink.elim
  | cons edge rest ih =>
    intro type x value hlink
    have hrest : relinkAll reg e rest (relink reg e noLinks edge) type x value := hlink
    rcases relinkAll_iff.mp hrest with hlink | ⟨hlink, -⟩
    · exact ih (fun f hf => hedges f (mem_cons_of_mem _ hf)) type x value hlink
    · unfold relink at hlink
      split_ifs at hlink with htype hx
      · exact ⟨edge, hedges edge mem_cons_self, htype.symm, by rw [hx]; rfl⟩
      · exact hlink.2.2.elim
      · exact hlink.elim

theorem relinkAll_eq {links : Links} (h : Labelled reg entity links) :
    relinkAll reg e entity.edges links = relinkAll reg e entity.edges noLinks := by
  funext type x value
  refine propext (relinkAll_iff.trans (or_iff_left ?_))
  rintro ⟨hlink, hkept⟩
  obtain ⟨edge, hedge, hrel, hlabel⟩ := h type x value hlink
  obtain ⟨-, hid, hne⟩ := hkept edge hedge hrel
  apply hne
  calc x = ⟨x.label, x.id⟩ := rfl
    _ = targetKey reg e edge := by rw [hlabel, hid]; rfl

theorem graphApplier_node (hvalid : reg.validate) (hget : reg.get e.aggregate = some entity)
    (hkind : entity.graphEdge = none) (hlabel : entity.graphNode ≠ "") (hverb : e.verb ≠ .deleted) :
    graphApplier reg e = some (.nodeUpsert entity.graphNode e.aggId (nodeProps e) e.version ::
        entity.edges.map (edgeOp reg entity e)) := by
  have hentity : entity ∈ reg := mem_of_find?_eq_some hget
  have hedges : entity.edges.mapM (edgeMutation reg entity e (nodeProps e)) =
      some (entity.edges.map _) :=
    mapM_eq_some fun edge hedge => edgeMutation_eq hvalid hentity hedge
  simp only [graphApplier, hget, hkind, if_neg hlabel, hedges]
  cases hv : e.verb with
  | deleted => exact absurd hv hverb
  | created | updated => rfl

theorem lookup_written_version (hstamp : e.payload.lookup columnVersion = some (.num e.version)) :
    (written entity e).lookup columnVersion = some (.num e.version) := by
  unfold written
  split
  · exact lookup_relFields_version
  · rw [lookup_settable (by decide) (by decide), nodeProps]
    have hne : columnVersion ≠ columnScope := by decide
    split_ifs
    · exact hstamp
    · rw [Assoc.lookup_put, if_neg hne]
      exact hstamp

theorem handle_node (hvalid : reg.validate) (hget : reg.get e.aggregate = some entity)
    (hkind : entity.graphEdge = none) (hlabel : entity.graphNode ≠ "") (hverb : e.verb ≠ .deleted)
    (hstep : handle reg g e = some h)
    (hheld : (g.nodes.lookup ⟨entity.graphNode, e.aggId⟩).getD [(columnId, .str e.aggId)] = held)
    (hstamp : (written entity e).lookup columnVersion = some (.num e.version)) :
    h.nodes.lookup ⟨entity.graphNode, e.aggId⟩ =
        some (if gate held e.version then setProps (written entity e) held else held) ∧
      h.links ⟨entity.graphNode, e.aggId⟩ = if gate held e.version then
          relinkAll reg e entity.edges (g.links ⟨entity.graphNode, e.aggId⟩)
        else g.links ⟨entity.graphNode, e.aggId⟩ := by
  have hwritten : written entity e = settable (nodeProps e) := by rw [written, hkind]
  rw [handle, graphApplier_node hvalid hget hkind hlabel hverb] at hstep
  obtain ⟨g₁, hupsert, hedges⟩ := Option.bind_eq_some_iff.mp hstep
  obtain ⟨-, hupsert⟩ := Option.ite_none_right_eq_some.mp hupsert
  rw [Option.some.injEq] at hupsert
  subst hupsert
  have hopen : gate (setProps (written entity e) held) e.version := by
    have hversion : (setProps (written entity e) held).lookup columnVersion =
        some (.num e.version) := by
      rw [lookup_setProps, hstamp]
      rfl
    rw [gate_of_lookup hversion]
    exact decide_eq_true le_rfl
  rw [hwritten] at hopen ⊢
  have hnode : (nodeUpsert g ⟨entity.graphNode, e.aggId⟩ (nodeProps e) e.version).nodes.lookup
      ⟨entity.graphNode, e.aggId⟩ = some _ := lookup_nodeUpsert hheld
  obtain ⟨hnode', hlinks⟩ := links_edgeOps hnode hedges
  refine ⟨hnode', hlinks.trans ?_⟩
  have hrels : (nodeUpsert g ⟨entity.graphNode, e.aggId⟩ (nodeProps e) e.version).links
      ⟨entity.graphNode, e.aggId⟩ = g.links ⟨entity.graphNode, e.aggId⟩ := by
    unfold Graph.links
    rw [rels_nodeUpsert]
  rw [hrels]
  by_cases hgate : gate held e.version
  · simp only [if_pos hgate, if_pos hopen]
  · simp only [if_neg hgate]

theorem handle_nodeDelete (hget : reg.get e.aggregate = some entity)
    (hkind : entity.graphEdge = none) (hlabel : entity.graphNode ≠ "")
    (hverb : e.verb = .deleted) (hstep : handle reg g e = some h) :
    h = nodeDelete g ⟨entity.graphNode, e.aggId⟩ := by
  simp only [handle, graphApplier, hget, hkind, if_neg hlabel, hverb] at hstep
  obtain ⟨g₁, hop, hrest⟩ := Option.bind_eq_some_iff.mp hstep
  obtain ⟨-, hop⟩ := Option.ite_none_right_eq_some.mp hop
  exact (Option.some.inj (hop.trans hrest)).symm

end Fabriq.Projection.GraphWrites
