import Mathlib.Data.List.Dedup

namespace Fabriq.Blob

inductive Owner
  | blobObject (id : String)
  | digestNode (id : String)
  deriving DecidableEq

/-- A row of `fabriq_blob_cas`. -/
structure LedgerRow where
  hash : String
  key : String
  size : Int
  refCount : Int
  pinned : Bool
  createdAt : Int
  deriving DecidableEq

structure Object where
  key : String
  lastModified : Int
  deriving DecidableEq

structure Tenant where
  refs : List (Owner × String)
  ledger : List LedgerRow
  objects : List Object
  deriving DecidableEq

def Tenant.hashes (s : Tenant) : List String :=
  s.ledger.map LedgerRow.hash

structure KeyScheme where
  keyOf : String → String
  inj : Function.Injective keyOf

def plainKeys : KeyScheme where
  keyOf := id
  inj := Function.injective_id

structure Tenant.Consistent (k : KeyScheme) (s : Tenant) : Prop where
  hashes : s.hashes.Nodup
  keys : ∀ row ∈ s.ledger, row.key = k.keyOf row.hash

/-- A digest node without a summary has an empty hash. -/
def isRef : Owner × String → Bool
  | (.blobObject _, _) => true
  | (.digestNode _, hash) => hash ≠ ""

/-- The hashes that `truthCounts` counts, each as often as it is named. -/
def named (refs : List (Owner × String)) : List String :=
  (refs.filter isRef).map Prod.snd

def truthCounts (refs : List (Owner × String)) (hash : String) : Nat :=
  (named refs).count hash

theorem truthCounts_pos {refs : List (Owner × String)} {hash : String} :
    0 < truthCounts refs hash ↔ hash ∈ named refs :=
  List.count_pos_iff

def Tenant.setRefCount (s : Tenant) (hash : String) (n : Int) : Tenant :=
  { s with ledger := s.ledger.map fun row =>
      if row.hash = hash then { row with refCount := n } else row }

def Tenant.deleteRow (s : Tenant) (hash : String) : Tenant :=
  { s with ledger := s.ledger.filter fun row => row.hash ≠ hash }

def Tenant.deleteByte (s : Tenant) (key : String) : Tenant :=
  { s with objects := s.objects.filter fun o => o.key ≠ key }

def Tenant.byteExists (s : Tenant) (key : String) : Bool :=
  s.objects.any fun o => o.key = key

structure BlobReconciler where
  grace : Int

def BlobReconciler.past (r : BlobReconciler) (now time : Int) : Bool :=
  now - time > r.grace

def BlobReconciler.collects (r : BlobReconciler) (now : Int) (truth : String → Nat)
    (row : LedgerRow) : Bool :=
  truth row.hash = 0 && !row.pinned && r.past now row.createdAt

def BlobReconciler.orphanKeys (r : BlobReconciler) (now : Int) (s : Tenant)
    (ledgerKeys : List String) : List String :=
  (s.objects.filter fun o => o.key ∉ ledgerKeys ∧ r.past now o.lastModified).map Object.key

structure Report where
  refsCorrected : Nat := 0
  gcCount : Nat := 0
  bytesFreed : Int := 0
  broken : List String := []
  orphansDeleted : Nat := 0

structure Pass where
  tenant : Tenant
  report : Report

def Pass.correct (p : Pass) (repair : Bool) (truth : String → Nat) (row : LedgerRow) : Pass :=
  if row.refCount = truth row.hash then p
  else {
    tenant := if repair ∧ 0 < truth row.hash then
        p.tenant.setRefCount row.hash (truth row.hash)
      else p.tenant
    report := { p.report with refsCorrected := p.report.refsCorrected + 1 } }

def Pass.collect (p : Pass) (repair : Bool) (row : LedgerRow) : Pass where
  tenant := if repair then (p.tenant.deleteByte row.key).deleteRow row.hash else p.tenant
  report := { p.report with
    gcCount := p.report.gcCount + 1
    bytesFreed := p.report.bytesFreed + row.size }

def Pass.reportBroken (p : Pass) (hashes : List String) : Pass :=
  { p with report := { p.report with broken := p.report.broken ++ hashes } }

def BlobReconciler.examine (r : BlobReconciler) (repair : Bool) (now : Int)
    (truth : String → Nat) (row : LedgerRow) (p : Pass) : Pass :=
  if r.collects now truth row then p.collect repair row
  else if 0 < truth row.hash ∧ p.tenant.byteExists row.key = false then
    p.reportBroken [row.hash]
  else p

/-- The loop body of `Reconcile`. -/
def BlobReconciler.visitRow (r : BlobReconciler) (repair : Bool) (now : Int)
    (truth : String → Nat) (p : Pass) (row : LedgerRow) : Pass :=
  r.examine repair now truth row (p.correct repair truth row)

def Pass.deleteOrphan (repair : Bool) (p : Pass) (key : String) : Pass where
  tenant := if repair then p.tenant.deleteByte key else p.tenant
  report := { p.report with orphansDeleted := p.report.orphansDeleted + 1 }

def BlobReconciler.visited (r : BlobReconciler) (repair : Bool) (now : Int) (s : Tenant) : Pass :=
  s.ledger.foldl (r.visitRow repair now (truthCounts s.refs)) ⟨s, {}⟩

/-- `Reconcile` at one moment, with no other writer and every call successful. -/
def BlobReconciler.reconcile (r : BlobReconciler) (repair : Bool) (now : Int) (s : Tenant) : Pass :=
  let unledgered := (r.visited repair now s).reportBroken
    ((named s.refs).dedup.filter fun hash => hash ∉ s.hashes)
  (r.orphanKeys now unledgered.tenant (s.ledger.map LedgerRow.key)).foldl
    (Pass.deleteOrphan repair) unledgered

end Fabriq.Blob
