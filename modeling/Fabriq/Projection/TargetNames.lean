import Fabriq.Core.Tenant
import Fabriq.Lib.Separated
import Fabriq.Projection.Rebuild

namespace Fabriq.Projection.TargetNames

open Core.Tenant Lib Lib.Separated
open Projection.Rebuild (graphName graphNameVersioned)

def searchIndexAlias (tenant base : String) : String :=
  "fabriq_" ++ tenant ++ "_" ++ base

def searchIndexVersioned (tenant base : String) (version : Nat) : String :=
  "fabriq_" ++ tenant ++ "_" ++ base ++ "_v" ++ toString version

def graphTarget (tenant : String) : Option Nat → String
  | none => graphName tenant
  | some version => graphNameVersioned tenant version

/-- The search names of a tenant: the alias, and the index of each model version. -/
def searchTarget (tenant base : String) : Option Nat → String
  | none => searchIndexAlias tenant base
  | some version => searchIndexVersioned tenant base version

variable {α : Type}

/-- `DropTarget` of the graph store. -/
def dropGraph (graphs : List (String × α)) (target : String) : List (String × α) :=
  Assoc.drop graphs target

/-- `DropTarget` of the search store: the indexes of one model version for every entity that
is searchable. -/
def dropIndexes (indexes : List (String × α)) (tenant : String) (bases : List String)
    (version : Nat) : List (String × α) :=
  (bases.filter (· ≠ "")).foldl
    (fun kept base => Assoc.drop kept (searchIndexVersioned tenant base version)) indexes

/-- The names that a deployment with these tenants and these index bases derives are apart,
and what one tenant drops is not live for another. -/
structure NamesApart (α : Type) (tenants : Set TenantId) (bases : Set String) : Prop where
  graphs : ∀ t ∈ tenants, ∀ t' ∈ tenants, ∀ v v',
    graphTarget t.id v = graphTarget t'.id v' → t = t' ∧ v = v'
  indexes : ∀ t ∈ tenants, ∀ t' ∈ tenants, ∀ b ∈ bases, ∀ b' ∈ bases, ∀ v v',
    searchTarget t.id b v = searchTarget t'.id b' v' → t = t' ∧ b = b' ∧ v = v'
  graphDrops : ∀ t ∈ tenants, ∀ t' ∈ tenants, t ≠ t' → ∀ v live, ∀ stored : List (String × α),
    (dropGraph stored (graphTarget t.id v)).lookup (graphTarget t'.id live) =
      stored.lookup (graphTarget t'.id live)
  indexDrops : ∀ t ∈ tenants, ∀ t' ∈ tenants, t ≠ t' → ∀ declared : List String,
    (∀ b ∈ declared, b ∈ bases) → ∀ v, ∀ b ∈ declared, ∀ live, ∀ stored : List (String × α),
      (dropIndexes stored t.id declared v).lookup (searchIndexVersioned t'.id b live) =
        stored.lookup (searchIndexVersioned t'.id b live)

/-- No tenant and no base ends in the version suffix of another one, and where a tenant is another
one with `_w` after it, no base is a base with `w_` before it, suffixes included. -/
structure SuffixFree (tenants : Set TenantId) (bases : Set String) : Prop where
  tenant : ∀ t ∈ tenants, ∀ t' ∈ tenants, ∀ n : Nat, t'.id ≠ t.id ++ "_v" ++ toString n
  base : tenants.Nonempty → ∀ b ∈ bases, ∀ b' ∈ bases, ∀ n : Nat, b' ≠ b ++ "_v" ++ toString n
  both : ∀ t ∈ tenants, ∀ t' ∈ tenants, ∀ b ∈ bases, ∀ b' ∈ bases, ∀ w,
    t'.id = t.id ++ "_" ++ w → b ≠ w ++ "_" ++ b' ∧
      ∀ n : Nat, b ≠ w ++ "_" ++ b' ++ "_v" ++ toString n ∧
        b ++ "_v" ++ toString n ≠ w ++ "_" ++ b'

variable {a a' : String} {v v' : Option Nat} {n n' : Nat}

def suffixed (name : String) : Option Nat → String
  | none => name
  | some version => name ++ "_v" ++ toString version

theorem underscore_notMem_version : '_' ∉ ("v" ++ toString n).toList := by
  rw [String.toList_append, List.mem_append, not_or]
  refine ⟨by decide, fun hmem => ?_⟩
  exact absurd (isDigit_of_mem_toString hmem) (by decide)

theorem append_version (name : String) (n : Nat) :
    name ++ "_v" ++ toString n = name ++ "_" ++ ("v" ++ toString n) := by
  rw [show "_v" = "_" ++ "v" from rfl]
  simp only [String.append_assoc]

theorem append_version_inj (h : a ++ "_v" ++ toString n = a' ++ "_v" ++ toString n') :
    a = a' ∧ n = n' := by
  rw [append_version, append_version] at h
  obtain ⟨ha, hn⟩ := append_sep_inj_right (show "_".toList = ['_'] from rfl)
    underscore_notMem_version underscore_notMem_version h
  exact ⟨ha, toString_inj.mp ((String.append_right_inj "v").mp hn)⟩

theorem suffixed_inj (h : suffixed a v = suffixed a' v')
    (hfree : ∀ n : Nat, a' ≠ a ++ "_v" ++ toString n)
    (hfree' : ∀ n : Nat, a ≠ a' ++ "_v" ++ toString n) : a = a' ∧ v = v' := by
  cases v with
  | none =>
    cases v' with
    | none => exact ⟨h, rfl⟩
    | some n => exact absurd h (hfree' n)
  | some n =>
    cases v' with
    | none => exact absurd h.symm (hfree n)
    | some n' =>
      obtain ⟨rfl, rfl⟩ := append_version_inj h
      exact ⟨rfl, rfl⟩

theorem graphTarget_eq (tenant : String) (v : Option Nat) :
    graphTarget tenant v = "tenant_" ++ suffixed tenant v := by
  cases v with
  | none => rfl
  | some n => simp only [graphTarget, graphNameVersioned, suffixed, String.append_assoc]

theorem searchTarget_eq (tenant base : String) (v : Option Nat) :
    searchTarget tenant base v = "fabriq_" ++ (tenant ++ "_" ++ suffixed base v) := by
  cases v with
  | none => simp only [searchTarget, searchIndexAlias, suffixed, String.append_assoc]
  | some n => simp only [searchTarget, searchIndexVersioned, suffixed, String.append_assoc]

theorem ne_append_sep (a w : String) : a ≠ a ++ "_" ++ w := by
  intro h
  have hlength : a.length = (a ++ "_" ++ w).length := congrArg String.length h
  rw [String.length_append, String.length_append, show "_".length = 1 from rfl] at hlength
  omega

theorem lookup_dropIndexes {tenant name : String} {version : Nat} {bases : List String}
    (stored : List (String × α)) (h : ∀ b ∈ bases, name ≠ searchIndexVersioned tenant b version) :
    (dropIndexes stored tenant bases version).lookup name = stored.lookup name := by
  rw [dropIndexes]
  apply Assoc.lookup_foldl_drop fun base => searchIndexVersioned tenant base version
  exact fun b hb => h b (List.mem_of_mem_filter hb)

variable {tenants : Set TenantId} {bases : Set String} {t t' : TenantId} {b b' : String}

theorem SuffixFree.graphTarget_inj (free : SuffixFree tenants bases) (ht : t ∈ tenants)
    (ht' : t' ∈ tenants) (h : graphTarget t.id v = graphTarget t'.id v') : t = t' ∧ v = v' := by
  rw [graphTarget_eq, graphTarget_eq, String.append_right_inj] at h
  obtain ⟨hid, hv⟩ := suffixed_inj h (free.tenant t ht t' ht') (free.tenant t' ht' t ht)
  exact ⟨TenantId.ext_id hid, hv⟩

theorem SuffixFree.suffixed_ne (free : SuffixFree tenants bases) (ht : t ∈ tenants)
    (ht' : t' ∈ tenants) (hb : b ∈ bases) (hb' : b' ∈ bases) {w : String}
    (hw : t'.id = t.id ++ "_" ++ w) : suffixed b v ≠ w ++ "_" ++ suffixed b' v' := by
  obtain ⟨hplain, hversions⟩ := free.both t ht t' ht' b hb b' hb' w hw
  intro h
  cases v with
  | none =>
    cases v' with
    | none => exact hplain h
    | some n' =>
      apply (hversions n').1
      rw [suffixed, suffixed] at h
      rw [h]
      simp only [String.append_assoc]
  | some n =>
    cases v' with
    | none => exact (hversions n).2 h
    | some n' =>
      have hjoined : b ++ "_v" ++ toString n = w ++ "_" ++ b' ++ "_v" ++ toString n' := by
        rw [suffixed, suffixed] at h
        rw [h]
        simp only [String.append_assoc]
      exact hplain (append_version_inj hjoined).1

theorem SuffixFree.searchTarget_inj (free : SuffixFree tenants bases) (ht : t ∈ tenants)
    (ht' : t' ∈ tenants) (hb : b ∈ bases) (hb' : b' ∈ bases)
    (h : searchTarget t.id b v = searchTarget t'.id b' v') : t = t' ∧ b = b' ∧ v = v' := by
  rw [searchTarget_eq, searchTarget_eq, String.append_right_inj] at h
  -- the underscore after the tenant stands at one place, or inside the other tenant
  rcases (append_sep_iff (show "_".toList = ['_'] from rfl)).mp h with
    ⟨hid, hsuffixed⟩ | ⟨w, hid, hsuffixed⟩ | ⟨w, hid, hsuffixed⟩
  · have hnonempty : tenants.Nonempty := ⟨t, ht⟩
    obtain ⟨hbase, hv⟩ := suffixed_inj hsuffixed (free.base hnonempty b hb b' hb')
      (free.base hnonempty b' hb' b hb)
    exact ⟨TenantId.ext_id hid, hbase, hv⟩
  · exact absurd hsuffixed (free.suffixed_ne ht' ht hb' hb hid)
  · exact absurd hsuffixed (free.suffixed_ne ht ht' hb hb' hid)

theorem SuffixFree.namesApart (free : SuffixFree tenants bases) (α : Type) :
    NamesApart α tenants bases where
  graphs t ht t' ht' v v' h := free.graphTarget_inj ht ht' h
  indexes t ht t' ht' b hb b' hb' v v' h := free.searchTarget_inj ht ht' hb hb' h
  graphDrops t ht t' ht' hne v live stored := by
    rw [dropGraph, Assoc.lookup_drop, if_neg]
    intro h
    exact hne (free.graphTarget_inj ht ht' h.symm).1
  indexDrops t ht t' ht' hne declared hdeclared v b hb live stored := by
    apply lookup_dropIndexes
    intro b' hb' h
    have hnames : searchTarget t.id b' (some v) = searchTarget t'.id b (some live) := h.symm
    exact hne (free.searchTarget_inj ht ht' (hdeclared b' hb') (hdeclared b hb) hnames).1

theorem NamesApart.rest_ne (apart : NamesApart α tenants bases) (ht : t ∈ tenants)
    (ht' : t' ∈ tenants) {w : String} (hb : b ∈ bases) (hb' : b' ∈ bases)
    (hw : t'.id = t.id ++ "_" ++ w) (v v' : Option Nat) :
    suffixed b v ≠ w ++ "_" ++ suffixed b' v' := by
  intro h
  have hnames : searchTarget t.id b v = searchTarget t'.id b' v' := by
    rw [searchTarget_eq, searchTarget_eq, h, hw]
    simp only [String.append_assoc]
  obtain ⟨rfl, -, -⟩ := apart.indexes t ht t' ht' b hb b' hb' v v' hnames
  exact ne_append_sep t.id w hw

theorem NamesApart.suffixFree (apart : NamesApart α tenants bases) : SuffixFree tenants bases where
  tenant t ht t' ht' n h := by
    have hnames : graphTarget t'.id none = graphTarget t.id (some n) := by
      rw [graphTarget_eq, graphTarget_eq]
      exact congrArg ("tenant_" ++ ·) h
    exact absurd (apart.graphs t' ht' t ht none (some n) hnames).2 (Option.some_ne_none n).symm
  base := by
    rintro ⟨t, ht⟩ b hb b' hb' n h
    have hnames : searchTarget t.id b' none = searchTarget t.id b (some n) := by
      rw [searchTarget_eq, searchTarget_eq]
      exact congrArg (fun rest => "fabriq_" ++ (t.id ++ "_" ++ rest)) h
    exact absurd (apart.indexes t ht t ht b' hb' b hb none (some n) hnames).2.2
      (Option.some_ne_none n).symm
  both t ht t' ht' b hb b' hb' w hw := by
    refine ⟨apart.rest_ne ht ht' hb hb' hw none none, fun n => ⟨?_, ?_⟩⟩
    · have hne := apart.rest_ne ht ht' hb hb' hw none (some n)
      simpa only [suffixed, String.append_assoc] using hne
    · exact apart.rest_ne ht ht' hb hb' hw (some n) none

/-- The derived names of a deployment are apart exactly if no tenant and no base is another
one up to the separators. -/
theorem namesApart_iff_suffixFree (α : Type) (tenants : Set TenantId) (bases : Set String) :
    NamesApart α tenants bases ↔ SuffixFree tenants bases :=
  ⟨NamesApart.suffixFree, fun free => free.namesApart α⟩

def acme : TenantId := ⟨"acme", valid_acme⟩

def acmeV2 : TenantId := ⟨"acme_v2", by decide⟩

def acmeEu : TenantId := ⟨"acme_eu", valid_acmeEu⟩

theorem rebuild_drops_other_tenant :
    acme ≠ acmeV2 ∧ graphNameVersioned acme.id 2 = graphName acmeV2.id ∧
    (dropGraph [(graphName acmeV2.id, 7)] (graphNameVersioned acme.id 2)).lookup
        (graphName acmeV2.id) = none ∧
    (dropIndexes [(searchIndexVersioned acmeEu.id "assets" 1, 7)] acme.id ["eu_assets"]
        1).lookup (searchIndexVersioned acmeEu.id "assets" 1) = none ∧
    ¬ NamesApart Nat Set.univ Set.univ := by
  refine ⟨?_, by decide +kernel, by decide +kernel, by decide +kernel, fun apart => ?_⟩
  · intro h
    exact absurd (congrArg TenantId.id h) (by decide)
  · exact apart.suffixFree.tenant acme trivial acmeV2 trivial 2 (by decide +kernel)

end Fabriq.Projection.TargetNames
