import Fabriq.Blob.Ledger
import Fabriq.Lib.Assoc
import Fabriq.Lib.Machine

namespace Fabriq.Blob.SafeCollection

open Blob Lib List Option Lib.Assoc

structure InFlight where
  hash : String
  storedAt : Int
  deriving DecidableEq

/-- How far a pass of `Reconcile` is.  `collect` is between the decision about a row and its
deletion; the flag says that the bytes are gone. -/
inductive Phase
  | counted
  | rows (keys : List String) (todo : List LedgerRow)
  | collect (keys : List String) (row : LedgerRow) (gone : Bool) (todo : List LedgerRow)
  | sweep (orphans : List String)

structure Running where
  refs : List (Owner × String)
  countedAt : Int
  phase : Phase

structure World where
  now : Int
  tenant : Tenant
  inFlight : List InFlight
  passes : List Running

inductive PassStep
  | readLedger
  | visit
  | deleteByte
  | deleteRow
  | listOrphans
  | deleteOrphan

inductive Action
  | store (hash : String) (size : Int)
  | catalogue (put : InFlight) (owner : Owner)
  | fail (put : InFlight)
  | remove (owner : Owner)
  | tick (time : Nat)
  | begin
  | pass (i : Nat) (step : PassStep)
  | stop (i : Nat)

/-- The content store: what the index knows is counted, and all else is written. -/
def storeContent (k : KeyScheme) (now : Int) (s : Tenant) (hash : String) (size : Int) : Tenant :=
  if hash ∈ s.hashes then
    { s with ledger := s.ledger.map fun row =>
        if row.hash = hash then { row with refCount := row.refCount + 1 } else row }
  else
    { s with
      ledger := ⟨hash, k.keyOf hash, size, 1, false, now⟩ :: s.ledger
      objects := ⟨k.keyOf hash, now⟩ :: s.objects.filter fun o => o.key ≠ k.keyOf hash }

def Running.advance (r : BlobReconciler) (now : Int) (s : Tenant) (p : Running) :
    PassStep → Phase → Option (Tenant × Phase)
  | .readLedger, .counted => some (s, .rows (s.ledger.map LedgerRow.key) s.ledger)
  | .visit, .rows keys (row :: todo) =>
    if r.collects now (truthCounts p.refs) row then some (s, .collect keys row false todo)
    else if row.refCount ≠ truthCounts p.refs row.hash ∧ 0 < truthCounts p.refs row.hash then
      some (s.setRefCount row.hash (truthCounts p.refs row.hash), .rows keys todo)
    else some (s, .rows keys todo)
  | .deleteByte, .collect keys row false todo =>
    some (s.deleteByte row.key, .collect keys row true todo)
  | .deleteRow, .collect keys row true todo => some (s.deleteRow row.hash, .rows keys todo)
  | .listOrphans, .rows keys [] => some (s, .sweep (r.orphanKeys now s keys))
  | .deleteOrphan, .sweep (key :: rest) => some (s.deleteByte key, .sweep rest)
  | _, _ => none

def World.store (k : KeyScheme) (w : World) (hash : String) (size : Int) : World :=
  { w with
    tenant := storeContent k w.now w.tenant hash size
    inFlight := ⟨hash, w.now⟩ :: w.inFlight }

def World.catalogue (w : World) (put : InFlight) (owner : Owner) : World :=
  { w with
    tenant := { w.tenant with refs := Assoc.put w.tenant.refs owner put.hash }
    inFlight := w.inFlight.erase put }

/-- A step of the tenant.  Between the two steps of a `PutBlob`, or between the store of a
summary and the write of its digest node, at most `span` passes. -/
def step (k : KeyScheme) (r : BlobReconciler) (span : Int) (w : World) : Action → Option World
  | .store hash size => some (w.store k hash size)
  | .catalogue put owner =>
    if put ∈ w.inFlight ∧ isRef (owner, put.hash) then some (w.catalogue put owner) else none
  | .fail put => some { w with inFlight := w.inFlight.erase put }
  | .remove owner => some { w with
      tenant := { w.tenant with refs := drop w.tenant.refs owner } }
  | .tick time =>
    if ∀ put ∈ w.inFlight, w.now + time ≤ put.storedAt + span then
      some { w with now := w.now + time }
    else none
  | .begin => some { w with passes := ⟨w.tenant.refs, w.now, .counted⟩ :: w.passes }
  | .pass i a => w.passes[i]?.bind fun p =>
    (p.advance r w.now w.tenant a p.phase).map fun next =>
      { w with tenant := next.1, passes := w.passes.set i { p with phase := next.2 } }
  | .stop i => some { w with passes := w.passes.eraseIdx i }

def World.Live (w : World) (hash : String) : Prop :=
  hash ∈ named w.tenant.refs ∨ ∃ put ∈ w.inFlight, put.hash = hash

def Running.listed (p : Running) : List String :=
  match p.phase with
  | .sweep orphans => orphans
  | _ => []

/-- Content that the ledger holds for nothing, or that a pass has listed as an orphan, is not
stored again; the last row that names a hash does not go, nor a store of an unnamed hash fail,
while another store of it is in flight; one pass runs at a time, with a grace window that covers
the span of a store. -/
def Careful (k : KeyScheme) (r : BlobReconciler) (span : Int) (w : World) : Action → Prop
  | .store hash _ => (hash ∈ w.tenant.hashes → w.Live hash) ∧
      ∀ p ∈ w.passes, k.keyOf hash ∉ p.listed
  | .catalogue put owner => ∀ other ∈ w.inFlight.erase put, other.hash ∈ named w.tenant.refs →
      other.hash ∈ named (Assoc.put w.tenant.refs owner put.hash)
  | .fail put => ∀ other ∈ w.inFlight.erase put, other.hash = put.hash →
      other.hash ∈ named w.tenant.refs
  | .remove owner => ∀ other ∈ w.inFlight, other.hash ∈ named w.tenant.refs →
      other.hash ∈ named (drop w.tenant.refs owner)
  | .begin => w.passes = []
  | .pass i .visit | .pass i .listOrphans =>
    ∀ p ∈ w.passes[i]?, w.now + span ≤ p.countedAt + r.grace
  | _ => True

instance (w : World) (hash : String) : Decidable (w.Live hash) :=
  inferInstanceAs (Decidable (_ ∨ _))

instance (k : KeyScheme) (r : BlobReconciler) (span : Int) (w : World) :
    ∀ a, Decidable (Careful k r span w a)
  | .store _ _ => inferInstanceAs (Decidable (_ ∧ _))
  | .catalogue _ _ | .fail _ | .remove _ => inferInstanceAs (Decidable (∀ other ∈ _, _))
  | .begin => decidable_of_iff (w.passes.isEmpty = true) isEmpty_iff
  | .pass i .visit | .pass i .listOrphans =>
    inferInstanceAs (Decidable (∀ p ∈ w.passes[i]?, w.now + span ≤ p.countedAt + r.grace))
  | .tick _ | .stop _ | .pass _ .readLedger | .pass _ .deleteByte | .pass _ .deleteRow
  | .pass _ .deleteOrphan => isTrue trivial

structure Start (k : KeyScheme) (w : World) : Prop where
  consistent : w.tenant.Consistent k
  held : ∀ hash ∈ named w.tenant.refs,
    hash ∈ w.tenant.hashes ∧ w.tenant.byteExists (k.keyOf hash) = true
  idle : w.inFlight = [] ∧ w.passes = []

section

variable (k : KeyScheme) (span : Int) (w : World) (refs : List (Owner × String)) (countedAt : Int)

structure Unjudged (keys : List String) (todo : List LedgerRow) : Prop where
  nodup : (todo.map LedgerRow.hash).Nodup
  key : ∀ row ∈ todo, row.key = k.keyOf row.hash
  present : ∀ row ∈ todo, row.hash ∈ w.tenant.hashes
  young : ∀ row ∈ todo, row.hash ∉ named refs → w.Live row.hash →
    countedAt ≤ row.createdAt + span
  written : ∀ hash, w.Live hash → k.keyOf hash ∉ keys → ∀ o ∈ w.tenant.objects,
    o.key = k.keyOf hash → countedAt ≤ o.lastModified

def PhaseInv : Phase → Prop
  | .counted => True
  | .rows keys todo => Unjudged k span w refs countedAt keys todo
  | .collect keys row _ todo => Unjudged k span w refs countedAt keys todo ∧
      row.key = k.keyOf row.hash ∧ ¬ w.Live row.hash ∧ row.hash ∈ w.tenant.hashes ∧
      row.hash ∉ todo.map LedgerRow.hash
  | .sweep orphans => ∀ hash, w.Live hash → k.keyOf hash ∉ orphans

structure PassInv (p : Running) : Prop where
  counted : p.countedAt ≤ w.now
  young : ∀ row ∈ w.tenant.ledger, row.hash ∉ named p.refs → w.Live row.hash →
    p.countedAt ≤ row.createdAt + span
  phase : PhaseInv k span w p.refs p.countedAt p.phase

structure Inv : Prop where
  consistent : w.tenant.Consistent k
  row : ∀ hash, w.Live hash → hash ∈ w.tenant.hashes
  bytes : ∀ hash, w.Live hash → ∃ o ∈ w.tenant.objects, o.key = k.keyOf hash
  first : ∀ put ∈ w.inFlight, put.hash ∈ named w.tenant.refs ∨ ∃ first ∈ w.inFlight,
    first.hash = put.hash ∧
      ∀ row ∈ w.tenant.ledger, row.hash = put.hash → first.storedAt ≤ row.createdAt
  prompt : ∀ put ∈ w.inFlight, w.now ≤ put.storedAt + span
  single : w.passes.length ≤ 1
  pass : ∀ p ∈ w.passes, PassInv k span w p

end

/-- Nothing becomes live, no row or object is new, and every row keeps its age. -/
structure Calm (w w' : World) : Prop where
  now : w.now ≤ w'.now
  live : ∀ hash, w'.Live hash → w.Live hash
  hashes : w'.tenant.hashes = w.tenant.hashes
  rows : ∀ row' ∈ w'.tenant.ledger, ∃ row ∈ w.tenant.ledger, row.hash = row'.hash ∧
    row.key = row'.key ∧ row.createdAt = row'.createdAt
  objects : ∀ o ∈ w'.tenant.objects, o ∈ w.tenant.objects

variable {k : KeyScheme} {r : BlobReconciler} {span : Int} {w w' : World} {p : Running}
  {refs : List (Owner × String)} {countedAt : Int} {keys : List String} {todo : List LedgerRow}
  {phase : Phase}

theorem Unjudged.calm (h : Unjudged k span w refs countedAt keys todo) (hcalm : Calm w w') :
    Unjudged k span w' refs countedAt keys todo where
  nodup := h.nodup
  key := h.key
  present row hrow := hcalm.hashes ▸ h.present row hrow
  young row hrow href hlive := h.young row hrow href (hcalm.live _ hlive)
  written hash hlive hkey o ho := h.written hash (hcalm.live _ hlive) hkey o (hcalm.objects o ho)

theorem PhaseInv.calm (h : PhaseInv k span w refs countedAt phase) (hcalm : Calm w w') :
    PhaseInv k span w' refs countedAt phase := by
  cases phase with
  | counted => trivial
  | rows keys todo => exact Unjudged.calm h hcalm
  | collect keys row gone todo =>
    obtain ⟨htodo, hkey, hlive, hpresent, hapart⟩ := h
    exact ⟨htodo.calm hcalm, hkey, fun hnow => hlive (hcalm.live _ hnow),
      hcalm.hashes ▸ hpresent, hapart⟩
  | sweep orphans => exact fun hash hlive => h hash (hcalm.live _ hlive)

theorem PassInv.calm (h : PassInv k span w p) (hcalm : Calm w w')
    (hphase : PhaseInv k span w p.refs p.countedAt phase) :
    PassInv k span w' { p with phase := phase } where
  counted := Int.le_trans h.counted hcalm.now
  young row' hrow' href hlive := by
    obtain ⟨row, hrow, hhash, -, hcreated⟩ := hcalm.rows row' hrow'
    rw [← hhash] at href hlive
    exact hcreated ▸ h.young row hrow href (hcalm.live _ hlive)
  phase := hphase.calm hcalm

section

variable (h : Inv k span w)
include h

theorem Inv.calm (hcalm : Calm w w')
    (hbytes : ∀ hash, w'.Live hash → ∃ o ∈ w'.tenant.objects, o.key = k.keyOf hash)
    (hfirst : ∀ put ∈ w'.inFlight, put.hash ∈ named w'.tenant.refs ∨ ∃ first ∈ w'.inFlight,
      first.hash = put.hash ∧
        ∀ row ∈ w.tenant.ledger, row.hash = put.hash → first.storedAt ≤ row.createdAt)
    (hprompt : ∀ put ∈ w'.inFlight, w'.now ≤ put.storedAt + span)
    (hsingle : w'.passes.length ≤ 1) (hpass : ∀ p ∈ w'.passes, PassInv k span w' p) :
    Inv k span w' where
  consistent := by
    refine ⟨hcalm.hashes ▸ h.consistent.hashes, fun row' hrow' => ?_⟩
    obtain ⟨row, hrow, hhash, hkey, -⟩ := hcalm.rows row' hrow'
    rw [← hkey, ← hhash, h.consistent.keys row hrow]
  row hash hlive := hcalm.hashes ▸ h.row hash (hcalm.live hash hlive)
  bytes := hbytes
  first put hput := by
    refine (hfirst put hput).imp_right ?_
    rintro ⟨first, hmem, hhash, hage⟩
    refine ⟨first, hmem, hhash, fun row' hrow' heq => ?_⟩
    obtain ⟨row, hrow, hsame, -, hcreated⟩ := hcalm.rows row' hrow'
    exact hcreated ▸ hage row hrow (hsame.trans heq)
  prompt := hprompt
  single := hsingle
  pass := hpass

variable {put : InFlight} {owner : Owner} {hash : String}

omit h in
theorem mem_named_drop (h : hash ∈ named (drop w.tenant.refs owner)) :
    hash ∈ named w.tenant.refs := by
  simp only [named, Assoc.drop, List.mem_map, mem_filter] at h ⊢
  obtain ⟨e, ⟨⟨he, -⟩, href⟩, rfl⟩ := h
  exact ⟨e, ⟨he, href⟩, rfl⟩

omit h in
theorem mem_named_put {new : String} (h : hash ∈ named (Assoc.put w.tenant.refs owner new)) :
    hash = new ∨ hash ∈ named w.tenant.refs := by
  simp only [named, put, List.mem_map, mem_filter, mem_cons] at h ⊢
  obtain ⟨e, ⟨rfl | ⟨he, -⟩, href⟩, rfl⟩ := h
  · exact .inl rfl
  · exact .inr ⟨e, ⟨he, href⟩, rfl⟩

theorem Inv.of_refs (hledger : w'.tenant.ledger = w.tenant.ledger)
    (hobjects : w'.tenant.objects = w.tenant.objects) (hpasses : w'.passes = w.passes)
    (hnow : w.now ≤ w'.now) (hlive : ∀ hash, w'.Live hash → w.Live hash)
    (hfirst : ∀ put ∈ w'.inFlight, put.hash ∈ named w'.tenant.refs ∨ ∃ first ∈ w'.inFlight,
      first.hash = put.hash ∧
        ∀ row ∈ w.tenant.ledger, row.hash = put.hash → first.storedAt ≤ row.createdAt)
    (hprompt : ∀ put ∈ w'.inFlight, w'.now ≤ put.storedAt + span) : Inv k span w' := by
  have hcalm : Calm w w' := ⟨hnow, hlive, by rw [Tenant.hashes, hledger, Tenant.hashes],
    fun row hrow => ⟨row, hledger ▸ hrow, rfl, rfl, rfl⟩, fun o ho => hobjects ▸ ho⟩
  refine h.calm hcalm ?_ hfirst hprompt (hpasses ▸ h.single) ?_
  · exact fun hash hnow => hobjects ▸ h.bytes hash (hlive hash hnow)
  · exact fun p hp => (h.pass p (hpasses ▸ hp)).calm hcalm (h.pass p (hpasses ▸ hp)).phase

theorem Inv.first_erase {refs' : List (Owner × String)}
    (hkeep : ∀ other ∈ w.inFlight.erase put, other.hash ∈ named w.tenant.refs →
      other.hash ∈ named refs')
    (hsame : ∀ other ∈ w.inFlight.erase put, other.hash = put.hash → other.hash ∈ named refs') :
    ∀ other ∈ w.inFlight.erase put, other.hash ∈ named refs' ∨
      ∃ first ∈ w.inFlight.erase put, first.hash = other.hash ∧
        ∀ row ∈ w.tenant.ledger, row.hash = other.hash → first.storedAt ≤ row.createdAt := by
  intro other hother
  rcases h.first other (mem_of_mem_erase hother) with hnamed | ⟨first, hfirst, hhash, hage⟩
  · exact .inl (hkeep other hother hnamed)
  · by_cases heq : first = put
    · exact .inl (hsame other hother (heq ▸ hhash.symm))
    · exact .inr ⟨first, (mem_erase_of_ne heq).mpr hfirst, hhash, hage⟩

theorem inv_catalogue (hput : put ∈ w.inFlight) (href : isRef (owner, put.hash))
    (hkeep : ∀ other ∈ w.inFlight.erase put, other.hash ∈ named w.tenant.refs →
      other.hash ∈ named (Assoc.put w.tenant.refs owner put.hash)) :
    Inv k span (w.catalogue put owner) := by
  have hnamed : put.hash ∈ named (Assoc.put w.tenant.refs owner _) :=
    mem_map.mpr ⟨(owner, put.hash), mem_filter.mpr ⟨mem_cons_self, href⟩, rfl⟩
  refine h.of_refs rfl rfl rfl (Int.le_refl _) ?_ ?_ ?_
  · rintro hash (hmem | ⟨other, hother, hhash⟩)
    · rcases mem_named_put hmem with rfl | hmem
      · exact .inr ⟨put, hput, rfl⟩
      · exact .inl hmem
    · exact .inr ⟨other, mem_of_mem_erase hother, hhash⟩
  · exact h.first_erase hkeep fun other _ heq => heq ▸ hnamed
  · exact fun other hother => h.prompt other (mem_of_mem_erase hother)

theorem inv_fail (hsame : ∀ other ∈ w.inFlight.erase put,
      other.hash = put.hash → other.hash ∈ named w.tenant.refs) :
    Inv k span { w with inFlight := w.inFlight.erase put } := by
  refine h.of_refs rfl rfl rfl (Int.le_refl _) ?_ ?_ ?_
  · exact fun hash hlive => hlive.imp_right fun ⟨other, hother, hhash⟩ =>
      ⟨other, mem_of_mem_erase hother, hhash⟩
  · exact h.first_erase (fun _ _ hnamed => hnamed) hsame
  · exact fun other hother => h.prompt other (mem_of_mem_erase hother)

theorem inv_remove (hkeep : ∀ other ∈ w.inFlight, other.hash ∈ named w.tenant.refs →
      other.hash ∈ named (drop w.tenant.refs owner)) :
    Inv k span { w with tenant := { w.tenant with refs := drop w.tenant.refs owner } } := by
  refine h.of_refs rfl rfl rfl (Int.le_refl _) ?_ ?_ h.prompt
  · exact fun hash hlive => hlive.imp_left mem_named_drop
  · exact fun other hother => (h.first other hother).imp_left (hkeep other hother)

theorem inv_tick {time : Nat} (hprompt : ∀ put ∈ w.inFlight, w.now + time ≤ put.storedAt + span) :
    Inv k span { w with now := w.now + time } :=
  h.of_refs rfl rfl rfl (Int.le_add_of_nonneg_right (Int.natCast_nonneg time))
    (fun _ hlive => hlive) h.first hprompt

theorem inv_stop {i : Nat} :
    Inv k span { w with passes := w.passes.eraseIdx i } := by
  have hcalm : Calm w { w with passes := w.passes.eraseIdx i } :=
    ⟨Int.le_refl _, fun _ hlive => hlive, rfl, fun row hrow => ⟨row, hrow, rfl, rfl, rfl⟩,
      fun _ ho => ho⟩
  refine h.calm hcalm h.bytes h.first h.prompt ?_ ?_
  · exact Nat.le_trans (eraseIdx_sublist _ _).length_le h.single
  · intro p hp
    have hpass := h.pass p ((eraseIdx_sublist _ _).subset hp)
    exact hpass.calm hcalm hpass.phase

theorem inv_begin (hidle : w.passes = []) :
    Inv k span { w with passes := ⟨w.tenant.refs, w.now, .counted⟩ :: w.passes } := by
  have hcalm : Calm w { w with passes := ⟨w.tenant.refs, w.now, .counted⟩ :: w.passes } :=
    ⟨Int.le_refl _, fun _ hlive => hlive, rfl, fun row hrow => ⟨row, hrow, rfl, rfl, rfl⟩,
      fun _ ho => ho⟩
  refine h.calm hcalm h.bytes h.first h.prompt (by simp [hidle]) ?_
  rw [hidle]
  intro p hp
  obtain rfl := mem_singleton.mp hp
  refine ⟨Int.le_refl _, fun row hrow href hlive => ?_, trivial⟩
  -- What is live and not named is in flight, with a row as young as its first store.
  obtain ⟨put, hput, hhash⟩ := hlive.resolve_left href
  rcases h.first put hput with hnamed | ⟨first, hfirst, -, hage⟩
  · exact absurd (hhash ▸ hnamed) href
  · have hstored := hage row hrow hhash.symm
    have hprompt := h.prompt first hfirst
    change w.now ≤ row.createdAt + span
    omega

omit h in
theorem map_refCount {f : LedgerRow → LedgerRow}
    (hf : ∀ row, (f row).hash = row.hash ∧ (f row).key = row.key ∧
      (f row).createdAt = row.createdAt) (ledger : List LedgerRow) :
    (ledger.map f).map LedgerRow.hash = ledger.map LedgerRow.hash ∧
      ∀ row' ∈ ledger.map f, ∃ row ∈ ledger, row.hash = row'.hash ∧ row.key = row'.key ∧
        row.createdAt = row'.createdAt := by
  refine ⟨by rw [List.map_map]; exact List.map_congr_left fun row _ => (hf row).1, ?_⟩
  intro row' hrow'
  obtain ⟨row, hrow, rfl⟩ := mem_map.mp hrow'
  exact ⟨row, hrow, (hf row).1.symm, (hf row).2.1.symm, (hf row).2.2.symm⟩

variable {size : Int}

omit h in
theorem live_store {other : String} (h : (w.store k hash size).Live other) :
    other = hash ∨ w.Live other := by
  have hrefs : (w.store k hash size).tenant.refs = w.tenant.refs := by
    unfold World.store storeContent
    split <;> rfl
  rw [World.Live, hrefs] at h
  rcases h with hmem | ⟨put, hput, rfl⟩
  · exact .inr (.inl hmem)
  · rcases mem_cons.mp hput with rfl | hput
    · exact .inl rfl
    · exact .inr (.inr ⟨put, hput, rfl⟩)

theorem inv_store_known (hspan : 0 ≤ span) (hknown : hash ∈ w.tenant.hashes)
    (hlive : w.Live hash) : Inv k span (w.store k hash size) := by
  have hstored : (w.store k hash size).tenant = { w.tenant with
      ledger := w.tenant.ledger.map fun row =>
        if row.hash = hash then { row with refCount := row.refCount + 1 } else row } := by
    rw [World.store, storeContent, if_pos hknown]
  have hstay : ∀ other, (w.store k hash size).Live other → w.Live other := fun other hother =>
    (live_store hother).elim (fun heq => heq ▸ hlive) id
  obtain ⟨hhashes, hrows⟩ := map_refCount (f := fun row =>
    if row.hash = hash then { row with refCount := row.refCount + 1 } else row)
    (fun row => by split <;> exact ⟨rfl, rfl, rfl⟩) w.tenant.ledger
  have hcalm : Calm w (w.store k hash size) := by
    refine ⟨Int.le_refl _, hstay, ?_, ?_, ?_⟩ <;> rw [hstored]
    · exact hhashes
    · exact hrows
    · exact fun _ ho => ho
  refine h.calm hcalm ?_ ?_ ?_ h.single fun p hp => (h.pass p hp).calm hcalm (h.pass p hp).phase
  · rw [hstored]
    exact fun other hother => h.bytes other (hstay other hother)
  · rw [hstored]
    have hold : ∀ put ∈ w.inFlight, put.hash ∈ named w.tenant.refs ∨
        ∃ first ∈ (⟨hash, w.now⟩ : InFlight) :: w.inFlight, first.hash = put.hash ∧
          ∀ row ∈ w.tenant.ledger, row.hash = put.hash → first.storedAt ≤ row.createdAt :=
      fun put hput => (h.first put hput).imp_right fun ⟨first, hfirst, hage⟩ =>
        ⟨first, mem_cons_of_mem _ hfirst, hage⟩
    refine forall_mem_cons.mpr ⟨?_, hold⟩
    rcases hlive with hnamed | ⟨put, hput, rfl⟩
    · exact .inl hnamed
    · exact hold put hput
  · exact forall_mem_cons.mpr ⟨Int.le_add_of_nonneg_right hspan, h.prompt⟩

theorem passInv_store_new (hspan : 0 ≤ span) (hnew : hash ∉ w.tenant.hashes)
    (hp : p ∈ w.passes) (hlisted : k.keyOf hash ∉ p.listed) :
    PassInv k span (w.store k hash size) p := by
  have hstored : (w.store k hash size).tenant = { w.tenant with
      ledger := ⟨hash, k.keyOf hash, size, 1, false, w.now⟩ :: w.tenant.ledger
      objects := ⟨k.keyOf hash, w.now⟩ :: w.tenant.objects.filter fun o =>
        o.key ≠ k.keyOf hash } := by
    rw [World.store, storeContent, if_neg hnew]
  have hpass := h.pass p hp
  have hstay : ∀ other ∈ w.tenant.hashes, (w.store k hash size).Live other → w.Live other :=
    fun other hmem hother => (live_store hother).resolve_left fun heq => hnew (heq ▸ hmem)
  have htodo : ∀ keys todo, Unjudged k span w p.refs p.countedAt keys todo →
      Unjudged k span (w.store k hash size) p.refs p.countedAt keys todo := by
    intro keys todo hun
    refine ⟨hun.nodup, hun.key, ?_, ?_, ?_⟩
    · rw [hstored]
      exact fun row hrow => mem_cons_of_mem _ (hun.present row hrow)
    · exact fun row hrow href hlive =>
        hun.young row hrow href (hstay _ (hun.present row hrow) hlive)
    · rw [hstored]
      intro other hlive hkey o ho heq
      rcases mem_cons.mp ho with rfl | ho
      · exact hpass.counted
      · obtain ⟨ho, hne⟩ := mem_filter.mp ho
        rcases live_store hlive with rfl | hlive
        · simp [heq] at hne
        · exact hun.written other hlive hkey o ho heq
  refine ⟨hpass.counted, ?_, ?_⟩
  · rw [hstored]
    refine forall_mem_cons.mpr ⟨fun _ _ => ?_, fun row hrow href hlive => ?_⟩
    · exact Int.le_trans hpass.counted (Int.le_add_of_nonneg_right hspan)
    · exact hpass.young row hrow href (hstay _ (mem_map_of_mem hrow) hlive)
  · have hphase := hpass.phase
    rw [Running.listed] at hlisted
    cases hp : p.phase with
    | counted => trivial
    | rows keys todo =>
      rw [hp] at hphase
      exact htodo keys todo hphase
    | collect keys row gone todo =>
      rw [hp] at hphase
      obtain ⟨hun, hkey, hlive, hpresent, hapart⟩ := hphase
      refine ⟨htodo keys todo hun, hkey, fun hnow => hlive (hstay _ hpresent hnow), ?_, hapart⟩
      rw [hstored]
      exact mem_cons_of_mem _ hpresent
    | sweep orphans =>
      rw [hp] at hphase hlisted
      intro other hlive
      rcases live_store hlive with rfl | hlive
      · exact hlisted
      · exact hphase other hlive

theorem inv_store_new (hspan : 0 ≤ span) (hnew : hash ∉ w.tenant.hashes)
    (hlisted : ∀ p ∈ w.passes, k.keyOf hash ∉ p.listed) :
    Inv k span (w.store k hash size) := by
  have hne : ∀ other ∈ w.tenant.hashes, other ≠ hash := fun other hmem heq => hnew (heq ▸ hmem)
  have hpass : ∀ p ∈ w.passes, PassInv k span (w.store k hash size) p := fun p hp =>
    passInv_store_new h hspan hnew hp (hlisted p hp)
  have hlive : ∀ other, (w.store k hash size).Live other → other = hash ∨ w.Live other :=
    fun _ => live_store
  unfold World.store at hlive hpass ⊢
  rw [storeContent, if_neg hnew] at hlive hpass ⊢
  refine ⟨⟨?_, ?_⟩, ?_, ?_, ?_, ?_, h.single, hpass⟩
  · exact nodup_cons.mpr ⟨hnew, h.consistent.hashes⟩
  · exact forall_mem_cons.mpr ⟨rfl, h.consistent.keys⟩
  · intro other hother
    rcases hlive other hother with rfl | hother
    · exact mem_cons_self
    · exact mem_cons_of_mem _ (h.row other hother)
  · intro other hother
    rcases hlive other hother with rfl | hother
    · exact ⟨_, mem_cons_self, rfl⟩
    · obtain ⟨o, ho, hkey⟩ := h.bytes other hother
      have hkept : o.key ≠ k.keyOf hash := fun heq =>
        hne other (h.row other hother) (k.inj (hkey.symm.trans heq))
      exact ⟨o, mem_cons_of_mem _ (mem_filter.mpr ⟨ho, by simpa using hkept⟩), hkey⟩
  · intro put hput
    rcases mem_cons.mp hput with rfl | hput
    · refine .inr ⟨_, mem_cons_self, rfl,
        forall_mem_cons.mpr ⟨fun _ => Int.le_refl _, fun row hrow heq => ?_⟩⟩
      exact absurd heq (hne _ (mem_map_of_mem hrow))
    · refine (h.first put hput).imp_right ?_
      rintro ⟨first, hfirst, hhash, hage⟩
      refine ⟨first, mem_cons_of_mem _ hfirst, hhash, forall_mem_cons.mpr ⟨?_, hage⟩⟩
      exact fun heq => absurd heq.symm (hne _ (h.row _ (.inr ⟨put, hput, rfl⟩)))
  · exact forall_mem_cons.mpr ⟨Int.le_add_of_nonneg_right hspan, h.prompt⟩

def World.after (w : World) (p : Running) (t : Tenant) (phase : Phase) : World :=
  { w with tenant := t, passes := [{ p with phase := phase }] }

theorem Inv.advance (hp : w.passes = [p]) {t : Tenant}
    (hrefs : t.refs = w.tenant.refs) (hhashes : t.hashes = w.tenant.hashes)
    (hrows : ∀ row' ∈ t.ledger, ∃ row ∈ w.tenant.ledger, row.hash = row'.hash ∧
      row.key = row'.key ∧ row.createdAt = row'.createdAt)
    (hobjects : ∀ o ∈ t.objects, o ∈ w.tenant.objects)
    (hbytes : ∀ hash, w.Live hash → ∃ o ∈ t.objects, o.key = k.keyOf hash)
    (hphase : PhaseInv k span w p.refs p.countedAt phase) : Inv k span (w.after p t phase) := by
  have hlive : ∀ hash, (w.after p t phase).Live hash → w.Live hash := fun hash hlive =>
    hlive.imp_left fun hmem => hrefs ▸ hmem
  have hcalm : Calm w (w.after p t phase) := ⟨Int.le_refl _, hlive, hhashes, hrows, hobjects⟩
  refine h.calm hcalm (fun hash hnow => hbytes hash (hlive hash hnow)) ?_ h.prompt
    (Nat.le_refl 1) ?_
  · exact fun put hput => (h.first put hput).imp_left fun hmem => by
      change put.hash ∈ named t.refs
      rwa [hrefs]
  · intro q hq
    obtain rfl := mem_singleton.mp hq
    exact (h.pass p (hp ▸ mem_singleton_self p)).calm hcalm hphase

theorem inv_deleteByte (hp : w.passes = [p]) {key : String}
    (hdead : ∀ hash, w.Live hash → k.keyOf hash ≠ key)
    (hphase : PhaseInv k span w p.refs p.countedAt phase) :
    Inv k span (w.after p (w.tenant.deleteByte key) phase) := by
  refine h.advance hp rfl rfl (fun row hrow => ⟨row, hrow, rfl, rfl, rfl⟩)
    (fun o ho => mem_of_mem_filter ho) (fun hash hlive => ?_) hphase
  obtain ⟨o, ho, hkey⟩ := h.bytes hash hlive
  refine ⟨o, mem_filter.mpr ⟨ho, ?_⟩, hkey⟩
  simpa [hkey] using hdead hash hlive

theorem Inv.stay (hp : w.passes = [p])
    (hphase : PhaseInv k span w p.refs p.countedAt phase) : Inv k span (w.after p w.tenant phase) :=
  h.advance hp rfl rfl (fun row hrow => ⟨row, hrow, rfl, rfl, rfl⟩) (fun _ ho => ho) h.bytes hphase

variable {row : LedgerRow}

theorem inv_deleteRow (hp : w.passes = [p])
    (hphase : PhaseInv k span w p.refs p.countedAt (.collect keys row true todo)) :
    Inv k span (w.after p (w.tenant.deleteRow row.hash) (.rows keys todo)) := by
  obtain ⟨hun, -, hdead, -, hapart⟩ := hphase
  have hpass := h.pass p (hp ▸ mem_singleton_self p)
  have hkept : ∀ hash ∈ w.tenant.hashes, hash ≠ row.hash →
      hash ∈ (w.tenant.deleteRow row.hash).hashes := by
    intro hash hmem hne
    obtain ⟨x, hx, rfl⟩ := mem_map.mp hmem
    exact mem_map_of_mem (mem_filter.mpr ⟨hx, by simpa using hne⟩)
  have hrows : ∀ x ∈ (w.tenant.deleteRow row.hash).ledger, x ∈ w.tenant.ledger :=
    fun x hx => mem_of_mem_filter hx
  refine ⟨⟨?_, fun x hx => h.consistent.keys x (hrows x hx)⟩, ?_, h.bytes, ?_, h.prompt,
    Nat.le_refl 1, ?_⟩
  · exact (filter_sublist.map _).nodup h.consistent.hashes
  · exact fun hash hlive => hkept hash (h.row hash hlive) fun heq => hdead (heq ▸ hlive)
  · exact fun put hput => (h.first put hput).imp_right fun ⟨first, hfirst, hhash, hage⟩ =>
      ⟨first, hfirst, hhash, fun x hx => hage x (hrows x hx)⟩
  · intro q hq
    obtain rfl := mem_singleton.mp hq
    refine ⟨hpass.counted, fun x hx => hpass.young x (hrows x hx), hun.nodup, hun.key, ?_,
      hun.young, hun.written⟩
    intro x hx
    exact hkept _ (hun.present x hx) fun heq => hapart (heq ▸ mem_map_of_mem hx)

omit h in
theorem not_live_of_collects (hun : Unjudged k span w p.refs p.countedAt keys (row :: todo))
    (hcoll : r.collects w.now (truthCounts p.refs) row)
    (hwindow : w.now + span ≤ p.countedAt + r.grace) : ¬ w.Live row.hash := by
  intro hlive
  simp only [BlobReconciler.collects, BlobReconciler.past, Bool.and_eq_true,
    decide_eq_true_eq] at hcoll
  have href : row.hash ∉ named p.refs := by
    rw [← truthCounts_pos]
    omega
  have hyoung := hun.young row mem_cons_self href hlive
  omega

theorem inv_visit (hp : w.passes = [p]) {next : Tenant × Phase}
    (hphase : PhaseInv k span w p.refs p.countedAt (.rows keys (row :: todo)))
    (hwindow : w.now + span ≤ p.countedAt + r.grace)
    (hstep : p.advance r w.now w.tenant .visit (.rows keys (row :: todo)) = some next) :
    Inv k span (w.after p next.1 next.2) := by
  have hun : Unjudged k span w p.refs p.countedAt keys (row :: todo) := hphase
  have hnodup := nodup_cons.mp hun.nodup
  have hrest : Unjudged k span w p.refs p.countedAt keys todo :=
    ⟨hnodup.2, forall_mem_of_forall_mem_cons hun.key, forall_mem_of_forall_mem_cons hun.present,
      forall_mem_of_forall_mem_cons hun.young, hun.written⟩
  simp only [Running.advance] at hstep
  split_ifs at hstep with hcoll hcount <;> cases hstep
  · exact h.stay hp ⟨hrest, hun.key row mem_cons_self,
      not_live_of_collects hun hcoll hwindow, hun.present row mem_cons_self, hnodup.1⟩
  · obtain ⟨hhashes, hrows⟩ := map_refCount (f := fun x =>
      if x.hash = row.hash then { x with refCount := truthCounts p.refs row.hash } else x)
      (fun x => by split <;> exact ⟨rfl, rfl, rfl⟩) w.tenant.ledger
    exact h.advance hp rfl hhashes hrows (fun _ ho => ho) h.bytes hrest
  · exact h.stay hp hrest

theorem inv_listOrphans (hspan : 0 ≤ span) (hp : w.passes = [p])
    (hphase : PhaseInv k span w p.refs p.countedAt (.rows keys []))
    (hwindow : w.now + span ≤ p.countedAt + r.grace) :
    Inv k span (w.after p w.tenant (.sweep (r.orphanKeys w.now w.tenant keys))) := by
  refine h.stay hp fun hash hlive hmem => ?_
  obtain ⟨o, ho, hkey⟩ := mem_map.mp hmem
  obtain ⟨ho, hold⟩ := mem_filter.mp ho
  simp only [BlobReconciler.past, decide_eq_true_eq] at hold
  have hwritten := Unjudged.written hphase hash hlive (hkey ▸ hold.1) o ho hkey
  omega

theorem inv_readLedger (hp : w.passes = [p]) : Inv k span (w.after p w.tenant
      (.rows (w.tenant.ledger.map LedgerRow.key) w.tenant.ledger)) := by
  have hpass := h.pass p (hp ▸ mem_singleton_self p)
  refine h.stay hp ⟨h.consistent.hashes, h.consistent.keys,
    fun row hrow => mem_map_of_mem hrow, hpass.young, fun hash hlive hkey => ?_⟩
  obtain ⟨row, hrow, rfl⟩ := mem_map.mp (h.row hash hlive)
  exact absurd (h.consistent.keys row hrow ▸ mem_map_of_mem hrow) hkey

theorem inv_pass (hspan : 0 ≤ span) (hp : w.passes = [p]) {a : PassStep}
    {next : Tenant × Phase} (hstep : p.advance r w.now w.tenant a p.phase = some next)
    (hwindow : a = .visit ∨ a = .listOrphans → w.now + span ≤ p.countedAt + r.grace) :
    Inv k span (w.after p next.1 next.2) := by
  have hphase := (h.pass p (hp ▸ mem_singleton_self p)).phase
  generalize p.phase = phase at hstep hphase
  cases phase with
  | counted =>
    cases a <;> simp only [Running.advance, reduceCtorEq] at hstep
    cases hstep
    exact inv_readLedger h hp
  | rows keys todo =>
    cases todo with
    | nil =>
      cases a <;> simp only [Running.advance, reduceCtorEq] at hstep
      cases hstep
      exact inv_listOrphans h hspan hp hphase (hwindow (.inr rfl))
    | cons row todo =>
      cases a <;> try simp only [Running.advance, reduceCtorEq] at hstep
      exact inv_visit h hp hphase (hwindow (.inl rfl)) hstep
  | collect keys row gone todo =>
    cases gone with
    | false =>
      cases a <;> simp only [Running.advance, reduceCtorEq] at hstep
      cases hstep
      obtain ⟨-, hkey, hdead, -, -⟩ := id hphase
      refine inv_deleteByte h hp (fun hash hlive heq => hdead ?_) hphase
      exact k.inj (heq.trans hkey) ▸ hlive
    | true =>
      cases a <;> simp only [Running.advance, reduceCtorEq] at hstep
      cases hstep
      exact inv_deleteRow h hp hphase
  | sweep orphans =>
    cases orphans with
    | nil => cases a <;> simp only [Running.advance, reduceCtorEq] at hstep
    | cons key rest =>
      cases a <;> simp only [Running.advance, reduceCtorEq] at hstep
      cases hstep
      refine inv_deleteByte h hp (fun hash hlive heq => ?_) fun hash hlive hmem => ?_
      · exact hphase hash hlive (heq ▸ mem_cons_self)
      · exact hphase hash hlive (mem_cons_of_mem _ hmem)

end

theorem passes_eq {passes : List Running} {i : Nat} (hlength : passes.length ≤ 1)
    (hget : passes[i]? = some p) : passes = [p] ∧ i = 0 := by
  obtain ⟨hlt, rfl⟩ := List.getElem?_eq_some_iff.mp hget
  obtain rfl : i = 0 := by omega
  obtain ⟨q, rfl⟩ := length_eq_one_iff.mp (by omega : passes.length = 1)
  exact ⟨rfl, rfl⟩

theorem inv_step {a : Action} (hspan : 0 ≤ span) (h : Inv k span w) (hok : Careful k r span w a)
    (hstep : step k r span w a = some w') : Inv k span w' := by
  cases a with
  | store hash size =>
    obtain rfl : w.store k hash size = w' := some.inj hstep
    by_cases hknown : hash ∈ w.tenant.hashes
    · exact inv_store_known h hspan hknown (hok.1 hknown)
    · exact inv_store_new h hspan hknown hok.2
  | catalogue put owner =>
    simp only [step, ite_none_right_eq_some, some.injEq] at hstep
    obtain ⟨⟨hput, href⟩, rfl⟩ := hstep
    exact inv_catalogue h hput href hok
  | fail put =>
    cases hstep
    exact inv_fail h hok
  | remove owner =>
    cases hstep
    exact inv_remove h hok
  | tick time =>
    simp only [step, ite_none_right_eq_some, some.injEq] at hstep
    obtain ⟨hprompt, rfl⟩ := hstep
    exact inv_tick h hprompt
  | begin =>
    cases hstep
    exact inv_begin h hok
  | pass i a =>
    simp only [step, bind_eq_some_iff, map_eq_some_iff] at hstep
    obtain ⟨p, hget, next, hnext, rfl⟩ := hstep
    obtain ⟨hp, rfl⟩ := passes_eq h.single hget
    have hafter := inv_pass h hspan hp hnext (by
      rintro (rfl | rfl)
      · exact hok p hget
      · exact hok p hget)
    rwa [hp, set_cons_zero]
  | stop i =>
    cases hstep
    exact inv_stop h

theorem Start.inv (h : Start k w) : Inv k span w := by
  have hlive : ∀ hash, w.Live hash → hash ∈ named w.tenant.refs := by
    rintro hash (hmem | ⟨put, hput, -⟩)
    · exact hmem
    · simp [h.idle.1] at hput
  refine ⟨h.consistent, fun hash hmem => (h.held hash (hlive hash hmem)).1, ?_, ?_, ?_, ?_, ?_⟩
  · intro hash hmem
    simpa [Tenant.byteExists] using (h.held hash (hlive hash hmem)).2
  all_goals simp [h.idle.1, h.idle.2]

/-- In every run of careful steps, whatever a row names has its bytes, also in the middle of a
pass. -/
theorem referenced_bytes_stay {k : KeyScheme} {r : BlobReconciler} {span : Int} {w w' : World}
    {trace : List Action} (hspan : 0 ≤ span) (hstart : Start k w)
    (hok : Machine.Along (step k r span) (Careful k r span) w trace)
    (hrun : Machine.run (step k r span) w trace = some w') (hash : String)
    (hnamed : hash ∈ named w'.tenant.refs) : w'.tenant.byteExists (k.keyOf hash) = true := by
  have hinv := Machine.run_invariant (fun _ _ _ => inv_step hspan)
    hstart.inv hok hrun
  simpa [Tenant.byteExists] using hinv.bytes hash (.inl hnamed)

def emptyWorld : World where
  now := 0
  tenant := ⟨[], [], []⟩
  inFlight := []
  passes := []

def putAgain : List Action :=
  [.store "photo" 5, .catalogue ⟨"photo", 0⟩ (.blobObject "b1"), .remove (.blobObject "b1"),
    .tick 20, .begin, .pass 0 .readLedger, .pass 0 .visit, .pass 0 .deleteByte,
    .pass 0 .deleteRow, .pass 0 .listOrphans, .stop 0, .store "photo" 5,
    .catalogue ⟨"photo", 20⟩ (.blobObject "b2")]

theorem referenced_bytes_stay_putAgain :
    ∃ w, Machine.run (step plainKeys ⟨10⟩ 1) emptyWorld putAgain = some w ∧
      "photo" ∈ named w.tenant.refs ∧ w.tenant.byteExists "photo" = true := by
  have hstart : Start plainKeys emptyWorld := ⟨⟨by decide, by decide⟩, by decide, rfl, rfl⟩
  have hok : Machine.Along (step plainKeys ⟨10⟩ 1) (Careful plainKeys ⟨10⟩ 1) emptyWorld
      putAgain := by decide
  exact ⟨_, rfl, by decide, referenced_bytes_stay (by decide) hstart hok rfl "photo" (by decide)⟩

/-- The blob is put again while a pass collects what is left of the old one. -/
def putMeanwhile : List Action :=
  [.store "photo" 5, .catalogue ⟨"photo", 0⟩ (.blobObject "b1"), .remove (.blobObject "b1"),
    .tick 20, .store "photo" 5, .begin, .pass 0 .readLedger, .pass 0 .visit,
    .pass 0 .deleteByte, .pass 0 .deleteRow, .pass 0 .listOrphans, .stop 0,
    .catalogue ⟨"photo", 20⟩ (.blobObject "b2")]

theorem collected_while_stored : Start plainKeys emptyWorld ∧
    ∃ w, Machine.run (step plainKeys ⟨10⟩ 1) emptyWorld putMeanwhile = some w ∧ w.passes = [] ∧
      "photo" ∈ named w.tenant.refs ∧ w.tenant.byteExists "photo" = false :=
  ⟨⟨⟨by decide, by decide⟩, by decide, rfl, rfl⟩, _, rfl, rfl, by decide, by decide⟩

end Fabriq.Blob.SafeCollection
