import Mathlib.Data.List.Forall2
import Fabriq.Core.Tenant
import Fabriq.Provision.Lifecycle

/-!
Where a tenant's rows are kept: the names that both isolation modes derive from its id, their use
by the cluster operations and the router, and when two tenants are kept apart.
-/

namespace Fabriq.Provision.PhysicalNames

open Core.Tenant Provision.Lifecycle List Option

/-- A name as Postgres keeps it.  All names here are ASCII, so a byte is a character. -/
def identifier (name : String) : String :=
  String.ofList (name.toList.take 63)

def databaseName (tenantId : String) : String :=
  "fabriq_" ++ tenantId

/-- The pattern `^[a-z_][a-z0-9_]{0,62}$`. -/
def dbIdent (name : String) : Bool :=
  match name.toList with
  | [] => false
  | c :: rest => (c.isLower || c == '_') && rest.all schemaChar && decide (rest.length ≤ 62)

/-- Where the operations of a mode work for an entry: `CreateDatabase`, or `TenantDSN` and
`CreateSchema`, unless they refuse a name. -/
def place (mode : Mode) (e : Entry) : Option Location :=
  match mode with
  | .database =>
    if dbIdent e.database then some ⟨e.clusterId, identifier e.database, ""⟩ else none
  | .schema =>
    if dbIdent e.database && dbIdent e.schema then
      some ⟨e.clusterId, identifier e.database, identifier e.schema⟩
    else none

/-- `SchemaRouter.AcquireFor`: the shard of the inner router with the schema that is stamped on
the context. -/
def acquireFor {Shard : Type*} (inner : String → Option Shard) (tenantId : String) :
    Option (Shard × String) :=
  match schemaForTenant tenantId with
  | none => none
  | some schema =>
    match inner tenantId with
    | none => none
    | some sh => if validSchema schema then some (sh, schema) else none

/-- Two tenants whose names Postgres tells apart, so that no call puts or routes them into one
schema or database. -/
structure Isolated (t t' : TenantId) : Prop where
  schemaNames : ∀ s s', schemaForTenant t.id = some s → schemaForTenant t'.id = some s' →
    identifier s ≠ identifier s'
  databaseNames : identifier (databaseName t.id) ≠ identifier (databaseName t'.id)
  provisioned : ∀ (r r' : Request) (e e' : Entry) (p p' : Location), r.mode = r'.mode →
    r.tenantId = t.id → r'.tenantId = t'.id → r.entry = some e → r'.entry = some e' →
    place r.mode e = some p → place r'.mode e' = some p' → p ≠ p'
  routed : ∀ (inner : String → Option Location) (sh sh' : Location) (s s' : String),
    acquireFor inner t.id = some (sh, s) → acquireFor inner t'.id = some (sh', s') →
    identifier s ≠ identifier s'

variable {id id' : String}

/-- `ReplaceAll(id, "-", "_")`, character by character. -/
def foldDash (c : Char) : Char :=
  if c = '-' then '_' else c

/-- The ids that `SchemaForTenant` accepts: in lower case and of at most 54 characters. -/
def schemaId (id : String) : Bool :=
  id.toList.all (fun c => schemaChar c || c == '-') && decide (1 ≤ id.length) &&
    decide (id.length ≤ 54)

/-- Equal but for dashes that stand where the other has underscores. -/
def DashVariants (a b : String) : Prop :=
  List.Forall₂ (fun c d => c = d ∨ (c ∈ ['-', '_'] ∧ d ∈ ['-', '_'])) a.toList b.toList

instance : DecidableRel DashVariants :=
  fun a b => inferInstanceAs (Decidable (List.Forall₂ _ a.toList b.toList))

theorem schemaChar_foldDash (c : Char) : schemaChar (foldDash c) = (schemaChar c || c == '-') := by
  by_cases hc : c = '-'
  · subst hc
    decide
  · simp [foldDash, hc]

theorem all_map_foldDash (cs : List Char) :
    (cs.map foldDash).all schemaChar = cs.all (fun c => schemaChar c || c == '-') := by
  rw [List.all_map]
  exact congrArg _ (funext schemaChar_foldDash)

theorem foldDash_eq_iff (c d : Char) :
    foldDash c = foldDash d ↔ c = d ∨ (c ∈ ['-', '_'] ∧ d ∈ ['-', '_']) := by
  simp only [foldDash, mem_cons, not_mem_nil, or_false]
  split <;> split <;> grind

theorem schemaForTenant_eq (id : String) :
    schemaForTenant id =
      if schemaId id then some ("tenant_" ++ String.ofList (id.toList.map foldDash)) else none := by
  have hlist : ("tenant_" ++ String.ofList (id.toList.map foldDash)).toList =
      "tenant_".toList ++ id.toList.map foldDash := by
    rw [String.toList_append]
    exact congrArg _ String.toList_ofList
  have htake : ("tenant_".toList ++ id.toList.map foldDash).take 7 = "tenant_".toList := rfl
  have hdrop : ("tenant_".toList ++ id.toList.map foldDash).drop 7 = id.toList.map foldDash := rfl
  have hvalid : validSchema ("tenant_" ++ String.ofList (id.toList.map foldDash)) =
      schemaId id := by
    rw [validSchema, schemaId, hlist, htake, hdrop, all_map_foldDash, length_map, String.length_toList,
      beq_self_eq_true, Bool.true_and]
  change (if validSchema ("tenant_" ++ String.ofList (id.toList.map foldDash)) = true then
    some ("tenant_" ++ String.ofList (id.toList.map foldDash)) else none) = _
  rw [hvalid]

theorem map_foldDash_eq_iff : id.toList.map foldDash = id'.toList.map foldDash ↔
    DashVariants id id' := by
  rw [← forall₂_eq_eq_eq, forall₂_map_left_iff, forall₂_map_right_iff]
  simp only [foldDash_eq_iff]
  exact Iff.rfl

theorem identifier_schema (hid : schemaId id) :
    identifier ("tenant_" ++ String.ofList (id.toList.map foldDash)) =
      "tenant_" ++ String.ofList (id.toList.map foldDash) := by
  have hlength : id.length ≤ 54 := by
    simp only [schemaId, Bool.and_eq_true, decide_eq_true_eq] at hid
    exact hid.2
  rw [identifier, take_of_length_le]
  · exact String.ofList_toList
  · have hseven : "tenant_".toList.length = 7 := by decide
    rw [String.toList_append, length_append, hseven, String.toList_ofList, length_map,
      String.length_toList]
    omega

theorem schema_eq_iff (hid : schemaId id) (hid' : schemaId id') :
    identifier ("tenant_" ++ String.ofList (id.toList.map foldDash)) =
        identifier ("tenant_" ++ String.ofList (id'.toList.map foldDash)) ↔
      DashVariants id id' := by
  rw [identifier_schema hid, identifier_schema hid', String.append_right_inj,
    String.ofList_inj, map_foldDash_eq_iff]

theorem database_eq_iff :
    identifier (databaseName id) = identifier (databaseName id') ↔
      id.toList.take 56 = id'.toList.take 56 := by
  have htake : ∀ x : String, (databaseName x).toList.take 63 =
      "fabriq_".toList ++ x.toList.take 56 := by
    intro x
    rw [databaseName, String.toList_append, take_append]
    rfl
  rw [identifier, identifier, String.ofList_inj, htake, htake, append_cancel_left_eq]

theorem schemaId_congr (h : DashVariants id id') : schemaId id = schemaId id' := by
  have hmap := map_foldDash_eq_iff.mpr h
  have hlength : id.length = id'.length := by
    have hmapped := congrArg List.length hmap
    rwa [length_map, length_map, String.length_toList, String.length_toList] at hmapped
  rw [schemaId, schemaId, ← all_map_foldDash, ← all_map_foldDash, hmap, hlength]

variable {t t' : TenantId}

theorem id_eq_of_created (hid : dbIdent (databaseName id)) (hid' : dbIdent (databaseName id'))
    (h : identifier (databaseName id) = identifier (databaseName id')) : id = id' := by
  have hshort : ∀ {name : String}, dbIdent name → identifier name = name := by
    intro name hname
    rw [identifier, take_of_length_le, String.ofList_toList]
    unfold dbIdent at hname
    split at hname
    · cases hname
    · rename_i c rest hlist
      simp only [Bool.and_eq_true, decide_eq_true_eq] at hname
      rw [hlist, length_cons]
      omega
  rw [hshort hid, hshort hid'] at h
  exact (String.append_right_inj _).mp h

theorem acquireFor_schema {Shard : Type*} {inner : String → Option Shard} {s : String} {sh : Shard}
    (h : acquireFor inner id = some (sh, s)) : schemaForTenant id = some s := by
  revert h
  fun_cases acquireFor inner id <;> rintro ⟨⟩
  assumption

variable {r : Request} {e : Entry}

theorem entry_database (hmode : r.mode = .database) (h : r.entry = some e) :
    e.database = databaseName r.tenantId := by
  simp only [Request.entry, hmode] at h
  split at h
  · cases h
  · cases h
    rfl

theorem entry_schema (hmode : r.mode = .schema) (h : r.entry = some e) :
    schemaForTenant r.tenantId = some e.schema := by
  simp only [Request.entry, hmode] at h
  split at h
  · cases h
  · obtain ⟨schema, hschema, rfl⟩ := map_eq_some_iff.mp h
    exact hschema

theorem places_ne (hne : t ≠ t')
    (hschemas : ∀ s s', schemaForTenant t.id = some s → schemaForTenant t'.id = some s' →
      identifier s ≠ identifier s') {r' : Request} {e' : Entry} {p p' : Location}
    (hmode : r.mode = r'.mode) (ht : r.tenantId = t.id) (ht' : r'.tenantId = t'.id)
    (he : r.entry = some e) (he' : r'.entry = some e') (hp : place r.mode e = some p)
    (hp' : place r'.mode e' = some p') :
    p ≠ p' := by
  rintro rfl
  cases hm : r.mode with
  | database =>
    rw [hm] at hp hmode
    rw [← hmode] at hp'
    rw [place] at hp hp'
    split at hp <;> split at hp'
    · rename_i hname hname'
      rw [entry_database hm he, ht] at hname hp
      rw [entry_database hmode.symm he', ht'] at hname' hp'
      have hplace := (some.inj hp).trans (some.inj hp').symm
      exact hne (TenantId.ext_id
        (id_eq_of_created hname hname' (congrArg Location.database hplace)))
    all_goals simp_all
  | schema =>
    rw [hm] at hp hmode
    rw [← hmode] at hp'
    rw [place] at hp hp'
    split at hp <;> split at hp'
    · have hplace := (some.inj hp).trans (some.inj hp').symm
      have hs := entry_schema hm he
      have hs' := entry_schema hmode.symm he'
      rw [ht] at hs
      rw [ht'] at hs'
      exact hschemas _ _ hs hs' (congrArg Location.schema hplace)
    all_goals simp_all

/-- Two tenants are isolated exactly when their ids differ in the first 56 characters and
are not, in lower case and of at most 54 characters, equal up to dashes and underscores. -/
theorem isolated_iff (t t' : TenantId) :
    Isolated t t' ↔
      t.id.toList.take 56 ≠ t'.id.toList.take 56 ∧
        ¬ (schemaId t.id = true ∧ DashVariants t.id t'.id) := by
  constructor
  · intro h
    refine ⟨fun htake => h.databaseNames (database_eq_iff.mpr htake), ?_⟩
    rintro ⟨hid, hdash⟩
    have hid' : schemaId t'.id := schemaId_congr hdash ▸ hid
    exact h.schemaNames _ _ (by rw [schemaForTenant_eq, if_pos hid])
      (by rw [schemaForTenant_eq, if_pos hid']) ((schema_eq_iff hid hid').mpr hdash)
  · rintro ⟨htake, hdash⟩
    have hne : t ≠ t' := by
      rintro rfl
      exact htake rfl
    have hschemas : ∀ s s', schemaForTenant t.id = some s → schemaForTenant t'.id = some s' →
        identifier s ≠ identifier s' := by
      intro s s' hs hs' heq
      rw [schemaForTenant_eq] at hs hs'
      split at hs <;> split at hs'
      · rename_i hid hid'
        cases hs
        cases hs'
        exact hdash ⟨hid, (schema_eq_iff hid hid').mp heq⟩
      all_goals simp_all
    exact {
      schemaNames := hschemas
      databaseNames := fun heq => htake (database_eq_iff.mp heq)
      provisioned := fun _ _ _ _ _ _ => places_ne hne hschemas
      routed := fun _ _ _ _ _ hs hs' => hschemas _ _ (acquireFor_schema hs) (acquireFor_schema hs') }

def dashed : TenantId := ⟨"acme-eu", by decide⟩

def underscored : TenantId := ⟨"acme_eu", valid_acmeEu⟩

def shared : Request := ⟨.schema, dashed.id, "c1", "shared"⟩

/-- One schema for two tenants, both for the provisioner and for the router; and two ids of 57
characters whose database names are one identifier. -/
theorem dash_variants_share_schema :
    dashed ≠ underscored ∧
    ((shared.entry).bind (place .schema)) =
      some ⟨"c1", "shared", "tenant_acme_eu"⟩ ∧
    (({ shared with tenantId := underscored.id } : Request).entry.bind (place .schema)) =
      some ⟨"c1", "shared", "tenant_acme_eu"⟩ ∧
    acquireFor (fun _ => some "c1/shared") dashed.id =
      acquireFor (fun _ => some "c1/shared") underscored.id ∧
    identifier (databaseName (String.ofList (List.replicate 56 'a' ++ ['b']))) =
      identifier (databaseName (String.ofList (List.replicate 56 'a' ++ ['c']))) ∧
    ¬ Isolated dashed underscored := by
  refine ⟨?_, by decide +kernel, by decide +kernel, by decide +kernel, by decide +kernel, ?_⟩
  · intro h
    exact absurd (congrArg TenantId.id h) (by decide)
  · intro h
    exact h.schemaNames "tenant_acme_eu" "tenant_acme_eu" (by decide +kernel)
      (by decide +kernel) rfl

end Fabriq.Provision.PhysicalNames
