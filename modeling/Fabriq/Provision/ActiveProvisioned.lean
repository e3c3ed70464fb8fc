import Fabriq.Provision.Lifecycle

/-!
An active tenant has been created and migrated, as long as only active tenants are suspended and
each is provisioned in the mode of its entry.
-/

namespace Fabriq.Provision.ActiveProvisioned

open Lib Lib.Machine Provision.Lifecycle List

def Provisioned (w : World) (e : Entry) : Prop :=
  e.location ∈ w.created ∧ e.location ∈ w.migrated

def ActiveMeansProvisioned (w : World) : Prop :=
  ∀ tenantId stamp e, w.catalog.get tenantId = some (stamp, e) → e.state = .active →
    Provisioned w e

/-- A suspend reads an entry that is active or already suspended, and a provisioner an entry of
its own mode. -/
def JobOk (cat : Catalog) : Job → Prop
  | .suspend tenantId => ∀ row ∈ cat.get tenantId,
      row.2.state = .active ∨ row.2.state = .suspended
  | .provision r => ∀ row ∈ cat.get r.tenantId, row.2.mode = r.mode
  | _ => True

def LifecycleOk (w : World) : Action → Prop
  | .advance i _ _ => ∀ job ∈ w.jobs[i]?, JobOk w.catalog job
  | _ => True

instance (cat : Catalog) : ∀ job, Decidable (JobOk cat job)
  | .suspend tenantId => inferInstanceAs (Decidable (∀ row ∈ cat.get tenantId,
      row.2.state = .active ∨ row.2.state = .suspended))
  | .provision r => inferInstanceAs (Decidable (∀ row ∈ cat.get r.tenantId, row.2.mode = r.mode))
  | .insert _ _ | .enter _ _ _ | .bootstrap _ _ _ | .create _ _ _ | .created _ _ _
  | .migrate _ _ _ | .activate _ _ | .fail _ _ | .suspendEntry _ _ | .resume _
  | .resumeEntry _ _ | .roll _ _ _ | .rollMigrate _ _ _ | .rollRecord _ _ | .done =>
    inferInstanceAs (Decidable True)

instance (w : World) : ∀ a, Decidable (LifecycleOk w a)
  | .advance i _ _ => inferInstanceAs (Decidable (∀ job ∈ w.jobs[i]?, JobOk w.catalog job))
  | .call _ | .crash _ => inferInstanceAs (Decidable True)

def acme : Entry :=
  ⟨"acme", "c1", "fabriq_acme", .pending, "", ""⟩

/-- A provisioning ends after it has inserted the entry; the tenant is suspended and resumed. -/
def suspendedEarly : List Action :=
  [.call (.provision ⟨.database, "acme", "c1", ""⟩), .advance 0 true "", .advance 0 true "",
    .crash 0, .call (.suspend "acme"), .advance 1 true "", .advance 1 true "",
    .call (.resume "acme"), .advance 2 true "", .advance 2 true ""]

def suspendedEarlyEnd : World :=
  ⟨⟨[("acme", 3, { acme with state := .active })], 3⟩, [], [], [.done, .done, .done]⟩

def acmeSchema : Entry :=
  ⟨"acme", "c1", "shared", .pending, "", "tenant_acme"⟩

/-- A provisioning in schema mode ends early, and one in database mode goes on with its entry.
-/
def otherMode : List Action :=
  [.call (.provision ⟨.schema, "acme", "c1", "shared"⟩), .advance 0 true "", .advance 0 true "",
    .crash 0, .call (.provision ⟨.database, "acme", "c1", ""⟩), .advance 1 true "",
    .advance 1 true "", .advance 1 true "", .advance 1 true "", .advance 1 true "7",
    .advance 1 true ""]

def otherModeEnd : World :=
  ⟨⟨[("acme", 4, { acmeSchema with state := .active, version := "7" })], 4⟩,
    [⟨"c1", "shared", ""⟩], [⟨"c1", "shared", ""⟩], [.done, .done]⟩

theorem active_without_provisioning : (run step start suspendedEarly = some suspendedEarlyEnd ∧
        ¬ ActiveMeansProvisioned suspendedEarlyEnd) ∧
      run step start otherMode = some otherModeEnd ∧ ¬ ActiveMeansProvisioned otherModeEnd := by
  refine ⟨⟨by decide, fun h => ?_⟩, by decide, fun h => ?_⟩
  · have hcreated := (h "acme" 3 _ rfl rfl).1
    revert hcreated
    decide
  · have hcreated := (h "acme" 4 _ rfl rfl).1
    revert hcreated
    decide

variable {w w' : World} {ok : Bool} {version : String}

def JobInv (w : World) : Job → Prop
  | .insert mode e => e.mode = mode ∧ e.state = .pending
  | .enter mode _ e | .bootstrap mode _ e | .create mode _ e => e.mode = mode
  | .created mode _ e | .migrate mode _ e => e.mode = mode ∧ e.location ∈ w.created
  | .activate _ e | .suspendEntry _ e | .resumeEntry _ e | .rollMigrate _ _ e
  | .rollRecord _ e => Provisioned w e
  | .provision _ | .fail _ _ | .suspend _ | .resume _ | .roll _ _ _ | .done => True

def Served (e : Entry) : Prop :=
  e.state = .active ∨ e.state = .suspended

structure Inv (w : World) : Prop where
  served : ∀ tenantId stamp e, w.catalog.get tenantId = some (stamp, e) → Served e →
    Provisioned w e
  jobs : ∀ job ∈ w.jobs, JobInv w job

theorem Inv.activeMeansProvisioned (hinv : Inv w) : ActiveMeansProvisioned w :=
  fun tenantId stamp e hget hactive => hinv.served tenantId stamp e hget (.inl hactive)

structure Grows (w w' : World) : Prop where
  created : w.created ⊆ w'.created
  migrated : w.migrated ⊆ w'.migrated

variable {e : Entry} {r : Request}

theorem Provisioned.mono (hp : Provisioned w e) (hgrows : Grows w w') : Provisioned w' e :=
  ⟨hgrows.created hp.1, hgrows.migrated hp.2⟩

variable {job : Job}

theorem JobInv.mono (hjob : JobInv w job) (hgrows : Grows w w') : JobInv w' job := by
  cases job with
  | created mode stamp e | migrate mode stamp e => exact ⟨hjob.1, hgrows.created hjob.2⟩
  | activate stamp e | suspendEntry stamp e | resumeEntry stamp e | rollRecord stamp e =>
    exact Provisioned.mono hjob hgrows
  | rollMigrate mode stamp e => exact Provisioned.mono hjob hgrows
  | insert mode e | enter mode stamp e | bootstrap mode stamp e | create mode stamp e => exact hjob
  | provision r | fail stamp e | suspend tenantId | resume tenantId | roll mode tenantId target
  | done => trivial

theorem get_put {cat cat' : Catalog} {stamp : Option Nat}
    (hput : cat.put stamp e = some cat') (tenantId : String) :
    cat'.get tenantId =
      if tenantId = e.tenantId then some (cat.clock + 1, e) else cat.get tenantId := by
  rw [Catalog.put] at hput
  split at hput
  · cases hput
    exact Assoc.lookup_put
  · cases hput

/-- One step of a job: what it leaves is provisioned where it is served, and the job knows what
it needs for the next. -/
structure Performed (w w' : World) (job : Job) : Prop where
  grows : Grows w w'
  served : ∀ tenantId stamp e, w'.catalog.get tenantId = some (stamp, e) → Served e →
    Provisioned w' e
  job : JobInv w' job

theorem grows_refl (w : World) : Grows w w := ⟨List.Subset.refl _, List.Subset.refl _⟩

theorem Inv.unchanged (hinv : Inv w) (hjob : JobInv w job) : Performed w w job :=
  ⟨grows_refl w, hinv.served, hjob⟩

theorem Inv.transition (hinv : Inv w) {stamp : Option Nat} {next : Nat → Entry → Job}
    (hserved : Served e → Provisioned w e) (hnext : ∀ stamp, JobInv w (next stamp e)) :
    Performed w (transition w stamp e next).1 (transition w stamp e next).2 := by
  rw [Lifecycle.transition]
  split
  · rename_i cat hput
    have hgrows : Grows w { w with catalog := cat } := ⟨List.Subset.refl _, List.Subset.refl _⟩
    refine ⟨hgrows, fun tenantId s e' hget hs => ?_, (hnext cat.clock).mono hgrows⟩
    rw [get_put hput] at hget
    split at hget
    · cases hget
      exact (hserved hs).mono hgrows
    · exact (hinv.served tenantId s e' hget hs).mono hgrows
  · exact hinv.unchanged trivial

theorem mode_location {mode : Mode} (hmode : e.mode = mode) : mode.location e = e.location := by
  subst hmode
  rw [Entry.mode]
  split
  · rename_i hschema
    simp [Mode.location, Entry.location, hschema]
  · rfl

theorem Inv.physical (hinv : Inv w) (hgrows : Grows w w') (hcatalog : w'.catalog = w.catalog)
    (hjob : JobInv w' job) : Performed w w' job :=
  ⟨hgrows, fun tenantId stamp e hget hs =>
    (hinv.served tenantId stamp e (hcatalog ▸ hget) hs).mono hgrows, hjob⟩

theorem schemaForTenant_ne_empty {tenantId schema : String}
    (hschema : schemaForTenant tenantId = some schema) : schema ≠ "" := by
  rw [schemaForTenant] at hschema
  split at hschema
  · rename_i hvalid
    cases hschema
    intro hempty
    rw [hempty] at hvalid
    exact absurd hvalid (by decide)
  · cases hschema

theorem requestEntry_inv (hentry : r.entry = some e) : e.mode = r.mode ∧ e.state = .pending := by
  revert hentry
  fun_cases Request.entry r <;> intro hentry <;> try cases hentry
  · rename_i hmode _
    exact ⟨hmode.symm, rfl⟩
  · rename_i hmode _
    obtain ⟨schema, hschema, rfl⟩ := Option.map_eq_some_iff.mp hentry
    rw [hmode]
    exact ⟨if_neg (schemaForTenant_ne_empty hschema), rfl⟩

theorem resumeProvision_inv {stamp : Nat} (hmode : e.mode = r.mode) :
    JobInv w (resumeProvision r stamp e) := by
  rw [resumeProvision]
  split_ifs
  · trivial
  · trivial
  · exact hmode

theorem not_served (hactive : e.state ≠ .active) (hsuspended : e.state ≠ .suspended) :
    Served e → Provisioned w e :=
  fun h => (h.elim hactive hsuspended).elim

theorem Inv.perform (hinv : Inv w) (hjob : JobInv w job) (hok : JobOk w.catalog job) :
    Performed w (perform w ok version job).1 (perform w ok version job).2 := by
  have hmigrated : ∀ location, Grows w { w with migrated := location :: w.migrated } :=
    fun _ => ⟨List.Subset.refl _, subset_cons_self _ _⟩
  revert hjob hok
  -- what is left are the requests and operations that succeed
  fun_cases Lifecycle.perform w ok version job <;> intro hjob hok <;>
    try exact hinv.unchanged trivial
  · rename_i hentry _ _
    exact hinv.unchanged (requestEntry_inv hentry)
  · rename_i hget
    exact hinv.unchanged (resumeProvision_inv (hok _ hget))
  · exact hinv.transition (not_served (by simp [hjob.2]) (by simp [hjob.2])) fun _ => hjob.1
  · rename_i mode _ _ _
    refine hinv.transition (not_served (by simp) (by simp)) fun _ => ?_
    cases mode <;> exact hjob
  · refine hinv.unchanged ?_
    split_ifs
    · exact hjob
    · trivial
  · exact hinv.physical ⟨subset_cons_self _ _, List.Subset.refl _⟩ rfl
      ⟨hjob, mode_location hjob ▸ mem_cons_self⟩
  · exact hinv.transition (not_served (by simp) (by simp)) fun _ => hjob
  · exact hinv.physical (hmigrated _) rfl ⟨hjob.2, mode_location hjob.1 ▸ mem_cons_self⟩
  · exact hinv.transition (fun _ => hjob) fun _ => trivial
  · exact hinv.transition (not_served (by simp) (by simp)) fun _ => trivial
  · rename_i hget
    exact hinv.unchanged (hinv.served _ _ _ hget (hok _ hget))
  · exact hinv.transition (fun _ => hjob) fun _ => trivial
  · rename_i hget
    refine hinv.unchanged ?_
    split_ifs with hsuspended
    · exact hinv.served _ _ _ hget (.inr hsuspended)
    · trivial
  · exact hinv.transition (fun _ => hjob) fun _ => trivial
  · rename_i hget hactive
    have hstate := by_contra fun h => hactive (.inl h)
    exact hinv.unchanged (hinv.served _ _ _ hget (.inl hstate))
  · exact hinv.physical (hmigrated _) rfl (Provisioned.mono hjob (hmigrated _))
  · exact hinv.transition (fun _ => hjob) fun _ => trivial

theorem inv_step {a : Action} (hinv : Inv w) (hok : LifecycleOk w a)
    (hstep : step w a = some w') : Inv w' := by
  revert hok hstep
  fun_cases step w a <;> rintro hok ⟨⟩
  · rename_i c
    refine ⟨hinv.served, forall_mem_concat hinv.jobs ?_⟩
    cases c <;> trivial
  · rename_i ok version job hget _
    have hdone : Performed w (perform w ok version job).1 (perform w ok version job).2 :=
      hinv.perform (hinv.jobs job (mem_of_getElem? hget)) (hok job hget)
    refine ⟨hdone.served, forall_mem_set (fun job' hold => ?_) hdone.job⟩
    exact (hinv.jobs job' hold).mono ⟨hdone.grows.created, hdone.grows.migrated⟩
  · exact ⟨hinv.served, forall_mem_set hinv.jobs trivial⟩

theorem inv_start : Inv start where
  served _ _ _ hget := by cases hget
  jobs _ hjob := by cases hjob

/-- In every such run an active entry names a database or a schema that has been created and
migrated. -/
theorem active_provisioned_run {trace : List Action} {w : World}
    (hok : Along step LifecycleOk start trace) (hrun : run step start trace = some w) :
    ActiveMeansProvisioned w :=
  (run_invariant (fun _ _ _ => inv_step) inv_start hok
    hrun).activeMeansProvisioned

def lifecycle : List Action :=
  [.call (.provision ⟨.schema, "acme", "c1", "shared"⟩), .advance 0 true "", .advance 0 true "",
    .advance 0 true "", .advance 0 true "", .advance 0 true "", .advance 0 true "",
    .advance 0 false "", .advance 0 true "",
    .call (.provision ⟨.schema, "acme", "c1", "shared"⟩), .advance 1 true "", .advance 1 true "",
    .advance 1 true "", .advance 1 true "", .advance 1 true "", .advance 1 true "7",
    .advance 1 true "", .call (.suspend "acme"), .advance 2 true "", .advance 2 true "",
    .call (.resume "acme"), .advance 3 true "", .advance 3 true "",
    .call (.migrateTenant .schema "acme" "8"), .advance 4 true "", .advance 4 true "8",
    .advance 4 true ""]

theorem active_provisioned_run_lifecycle : ∃ w, run step start lifecycle = some w ∧
      w.catalog.get "acme" = some (10, { acmeSchema with state := .active, version := "8" }) ∧
        ActiveMeansProvisioned w := by
  have hok : Along step LifecycleOk start lifecycle := by decide
  exact ⟨_, rfl, by decide, active_provisioned_run hok rfl⟩

end Fabriq.Provision.ActiveProvisioned
