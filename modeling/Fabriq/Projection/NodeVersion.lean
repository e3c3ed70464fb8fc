import Fabriq.Projection.GraphWrites

namespace Fabriq.Projection.NodeVersion

open Core.Schema Core.Value Lib.Assoc Projection.Applier Projection.GraphStore
open Projection.GraphWrites
open List Option

def heldVersion (g : Graph) (key : NodeKey) : Option Json :=
  (g.nodes.lookup key).bind fun props => props.lookup columnVersion

variable {reg : Registry} {entity : Entity} {e : Envelope} {g h : Graph} {key k : NodeKey}
  {m : Mutation} {muts : List Mutation}

theorem heldVersion_mergeNode {nodes : List (NodeKey × Fields)} :
    ((mergeNode nodes k).lookup key).bind (fun props => props.lookup columnVersion) =
      (nodes.lookup key).bind fun props => props.lookup columnVersion := by
  rw [lookup_mergeNode]
  split_ifs with hkey
  · rw [← hkey]
    cases nodes.lookup key <;> rfl
  · rfl

/-- The node a mutation writes or deletes, not counting those it merely merges. -/
def ownNode : Mutation → Option NodeKey
  | .nodeUpsert label id _ _ | .nodeDelete label id => some ⟨label, id⟩
  | _ => none

theorem heldVersion_applyMutation (hop : applyMutation g m = some h)
    (hown : ownNode m ≠ some key) : heldVersion h key = heldVersion g key := by
  unfold heldVersion
  revert hop hown
  fun_cases applyMutation g m <;> rintro ⟨⟩ hown
  · rename_i label id _ _ _
    have hne : key ≠ ⟨label, id⟩ := fun heq => hown (by rw [heq]; rfl)
    simp only [nodeUpsert]
    split_ifs
    · rw [lookup_put, if_neg hne, heldVersion_mergeNode]
    · exact heldVersion_mergeNode
  · unfold edgeUpsert
    split
    · rfl
    · split_ifs
      · exact heldVersion_mergeNode
      · rfl
  · rename_i label id _
    have hne : key ≠ ⟨label, id⟩ := fun heq => hown (by rw [heq]; rfl)
    rw [nodeDelete, lookup_drop, if_neg hne]
  · unfold edgeDelete
    split
    · rfl
    · split_ifs <;> rfl
  · exact heldVersion_mergeNode.trans heldVersion_mergeNode
  · rfl

theorem heldVersion_applyMutations (hops : applyMutations g muts = some h)
    (hown : ∀ m ∈ muts, ownNode m ≠ some key) : heldVersion h key = heldVersion g key := by
  induction muts generalizing g with
  | nil =>
    cases hops
    rfl
  | cons m rest ih =>
    obtain ⟨g₁, hop, hrest⟩ := bind_eq_some_iff.mp hops
    rw [ih hrest fun n hn => hown n (mem_cons_of_mem _ hn)]
    exact heldVersion_applyMutation hop (hown m mem_cons_self)

theorem ownNode_edgeOp {edge : EdgeSpec} : ownNode (edgeOp reg entity e edge) = none := by
  unfold edgeOp
  split_ifs <;> rfl

theorem ownNode_reifiedEdgeMutations {spec : GraphEdgeSpec}
    (happ : reifiedEdgeMutations spec e = some muts) (hm : m ∈ muts) : ownNode m = none := by
  revert happ
  fun_cases reifiedEdgeMutations spec e <;> rintro ⟨⟩ <;> rw [mem_singleton.mp hm] <;> rfl

theorem ownNode_graphApplier (hvalid : reg.validate)
    (happ : graphApplier reg e = some muts) (hm : m ∈ muts) (hown : ownNode m = some key) :
    ∃ entity, reg.get e.aggregate = some entity ∧ entity.graphNode ≠ "" ∧
      key = ⟨entity.graphNode, e.aggId⟩ := by
  cases hget : reg.get _ with
  | none =>
    simp only [graphApplier, hget, some.injEq] at happ
    simp [← happ] at hm
  | some entity =>
    cases hkind : entity.graphEdge with
    | some spec =>
      simp only [graphApplier, hget, hkind] at happ
      rw [ownNode_reifiedEdgeMutations happ hm] at hown
      cases hown
    | none =>
      by_cases hlabel : entity.graphNode = ""
      · simp only [graphApplier, hget, hkind, if_pos hlabel, some.injEq] at happ
        simp [← happ] at hm
      · refine ⟨entity, rfl, hlabel, ?_⟩
        by_cases hverb : e.verb = .deleted
        · simp only [graphApplier, hget, hkind, if_neg hlabel, hverb, some.injEq] at happ
          rw [← happ, mem_singleton] at hm
          rw [hm] at hown
          exact (some.inj hown).symm
        · rw [graphApplier_node hvalid hget hkind hlabel hverb, some.injEq] at happ
          rw [← happ] at hm
          rcases mem_cons.mp hm with rfl | hm
          · exact (some.inj hown).symm
          · obtain ⟨edge, -, rfl⟩ := List.mem_map.mp hm
            rw [ownNode_edgeOp] at hown
            cases hown

theorem heldVersion_handle_of_ne (hvalid : reg.validate)
    (hne : ∀ entity, reg.get e.aggregate = some entity → entity.graphNode ≠ "" →
      key ≠ ⟨entity.graphNode, e.aggId⟩)
    (hstep : handle reg g e = some h) : heldVersion h key = heldVersion g key := by
  unfold handle at hstep
  split at hstep
  · cases hstep
    rfl
  · rename_i muts happ
    refine heldVersion_applyMutations hstep fun m hm hown => ?_
    obtain ⟨entity, hget, hlabel, hkey⟩ := ownNode_graphApplier hvalid happ hm hown
    exact hne entity hget hlabel hkey

section

variable (hget : reg.get e.aggregate = some entity) (hkind : entity.graphEdge = none)
  (hlabel : entity.graphNode ≠ "")
include hget hkind hlabel

theorem heldVersion_handle_deleted (hverb : e.verb = .deleted)
    (hstep : handle reg g e = some h) : heldVersion h ⟨entity.graphNode, e.aggId⟩ = none := by
  obtain rfl := handle_nodeDelete hget hkind hlabel hverb hstep
  simp [heldVersion, nodeDelete, lookup_drop]

variable (hvalid : reg.validate = true) (hverb : e.verb ≠ .deleted) (hpos : 0 < e.version)
  (hstamped : (written entity e).lookup columnVersion = some (.num e.version))
include hvalid hverb hpos hstamped

theorem heldVersion_handle_upsert (hheld : heldVersion g ⟨entity.graphNode, e.aggId⟩ = none ∨
      ∃ m : Int, heldVersion g ⟨entity.graphNode, e.aggId⟩ = some (.num m))
    (hstep : handle reg g e = some h) :
    ∃ n : Int, heldVersion h ⟨entity.graphNode, e.aggId⟩ = some (.num n) ∧ e.version ≤ n ∧
      (n = e.version ∨ heldVersion g ⟨entity.graphNode, e.aggId⟩ = some (.num n)) ∧
      ∀ m : Int, heldVersion g ⟨entity.graphNode, e.aggId⟩ = some (.num m) → m ≤ n := by
  generalize hprops : (g.nodes.lookup ⟨entity.graphNode, e.aggId⟩).getD
    [(columnId, .str e.aggId)] = props
  have hold : heldVersion g ⟨entity.graphNode, e.aggId⟩ = props.lookup columnVersion := by
    rw [heldVersion, ← hprops]
    cases g.nodes.lookup ⟨entity.graphNode, e.aggId⟩ <;> rfl
  have hnode := (handle_node hvalid hget hkind hlabel hverb hstep hprops hstamped).1
  have hnew : heldVersion h ⟨entity.graphNode, e.aggId⟩ =
      (if gate props e.version then setProps (written entity e) props else props).lookup
        columnVersion := by
    rw [heldVersion, hnode]
    rfl
  rw [hold] at hheld ⊢
  have hgate : ∀ m : Int, props.lookup columnVersion = some (.num m) →
      (gate props e.version ↔ m ≤ e.version) := fun m hm => by
    rw [gate_of_lookup hm, decide_eq_true_iff]
  by_cases hopen : gate props e.version
  · refine ⟨e.version, ?_, le_rfl, .inl rfl, fun m hm => (hgate m hm).mp hopen⟩
    rw [hnew, if_pos hopen, lookup_setProps, hstamped]
    rfl
  · rcases hheld with hnone | ⟨m, hm⟩
    · simp [gate, hnone, hpos.le] at hopen
    · have hlt : e.version < m := not_le.mp (mt (hgate m hm).mpr hopen)
      refine ⟨m, ?_, hlt.le, .inr hm, fun k hk => ?_⟩
      · rw [hnew, if_neg hopen, hm]
      · rw [hm, some.injEq, Json.num.injEq, Rat.intCast_inj] at hk
        exact hk.ge

end

end Fabriq.Projection.NodeVersion
