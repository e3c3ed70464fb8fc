import Fabriq.Blob.Ledger

namespace Fabriq.Blob.ReconcileHeals

open Blob List

variable {r : BlobReconciler} {now : Int} {truth : String → Nat} {p : Pass} {row : LedgerRow}
  {rows : List LedgerRow} {o : Object} {hash : String}

def settled (truth : String → Nat) (row : LedgerRow) : LedgerRow :=
  if 0 < truth row.hash then { row with refCount := truth row.hash } else row

theorem settled_hash : (settled truth row).hash = row.hash := by
  unfold settled
  split <;> rfl

theorem settled_key : (settled truth row).key = row.key := by
  unfold settled
  split <;> rfl

theorem correct_objects : (p.correct true truth row).tenant.objects = p.tenant.objects := by
  unfold Pass.correct Tenant.setRefCount
  split_ifs <;> rfl

theorem correct_refs : (p.correct true truth row).tenant.refs = p.tenant.refs := by
  unfold Pass.correct Tenant.setRefCount
  split_ifs <;> rfl

theorem visit_tenant : (r.visitRow true now truth p row).tenant = if r.collects now truth row then
      ((p.correct true truth row).tenant.deleteByte row.key).deleteRow row.hash
    else (p.correct true truth row).tenant := by
  unfold BlobReconciler.visitRow BlobReconciler.examine
  split_ifs <;> rfl

theorem visit_objects : (r.visitRow true now truth p row).tenant.objects =
    if r.collects now truth row then p.tenant.objects.filter fun o => o.key ≠ row.key
    else p.tenant.objects := by
  rw [visit_tenant]
  split_ifs <;> simp [Tenant.deleteRow, Tenant.deleteByte, correct_objects]

theorem visit_refs : (r.visitRow true now truth p row).tenant.refs = p.tenant.refs := by
  rw [visit_tenant]
  split_ifs <;> simp [Tenant.deleteRow, Tenant.deleteByte, correct_refs]

theorem settled_of_refCount (h : row.refCount = truth row.hash) : settled truth row = row := by
  rw [settled, ← h, ite_self]

theorem correct_ledger {before after : List LedgerRow}
    (hledger : p.tenant.ledger = before ++ row :: after)
    (hbefore : ∀ x ∈ before, x.hash ≠ row.hash) (hafter : ∀ x ∈ after, x.hash ≠ row.hash) :
    (p.correct true truth row).tenant.ledger = before ++ settled truth row :: after := by
  have hset : ∀ l : List LedgerRow, (∀ x ∈ l, x.hash ≠ row.hash) → (l.map fun x =>
      if x.hash = row.hash then { x with refCount := (truth row.hash : Int) } else x) = l :=
    fun l hl => (map_congr_left fun x hx => if_neg (hl x hx)).trans (map_id l)
  unfold Pass.correct
  by_cases hcount : row.refCount = truth row.hash
  · rw [if_pos hcount, settled_of_refCount hcount, hledger]
  · by_cases hpos : 0 < truth row.hash
    · simp [hcount, hpos, Tenant.setRefCount, hledger, hset before hbefore, hset after hafter,
        settled]
    · simp [hcount, hpos, hledger, settled]

theorem visit_ledger {before after : List LedgerRow}
    (hledger : p.tenant.ledger = before ++ row :: after)
    (hbefore : ∀ x ∈ before, x.hash ≠ row.hash) (hafter : ∀ x ∈ after, x.hash ≠ row.hash) :
    (r.visitRow true now truth p row).tenant.ledger =
      before ++ ([row].filter fun x => !r.collects now truth x).map (settled truth) ++ after := by
  have hcorrect := @correct_ledger truth p row before after hledger hbefore hafter
  have hkeep : ∀ l : List LedgerRow, (∀ x ∈ l, x.hash ≠ row.hash) →
      l.filter (fun x => x.hash ≠ row.hash) = l :=
    fun l hl => filter_eq_self.mpr fun x hx => by simpa using hl x hx
  rw [visit_tenant]
  cases hcoll : r.collects now truth row with
  | true =>
    simp only [if_true, Tenant.deleteRow, Tenant.deleteByte, hcorrect, filter_append,
      filter_cons, hkeep before hbefore, hkeep after hafter]
    simp [settled_hash, hcoll]
  | false => simp [hcorrect, hcoll]

theorem foldl_ledger (before : List LedgerRow) (hledger : p.tenant.ledger = before ++ rows)
    (hnodup : (rows.map LedgerRow.hash).Nodup)
    (hapart : ∀ x ∈ before, ∀ y ∈ rows, x.hash ≠ y.hash) :
    (rows.foldl (r.visitRow true now truth) p).tenant.ledger =
      before ++ (rows.filter fun x => !r.collects now truth x).map (settled truth) := by
  induction rows generalizing p before with
  | nil => simpa using hledger
  | cons row rest ih =>
    rw [map_cons, nodup_cons] at hnodup
    have hrest : ∀ y ∈ rest, y.hash ≠ row.hash := fun y hy heq =>
      hnodup.1 (heq ▸ mem_map_of_mem hy)
    have hvisit := @visit_ledger r now truth p row before rest hledger
      (fun x hx => hapart x hx row mem_cons_self) hrest
    rw [foldl_cons, ih _ hvisit hnodup.2, append_assoc, ← map_append,
      ← filter_append, singleton_append]
    intro x hx y hy
    rcases mem_append.mp hx with hx | hx
    · exact hapart x hx y (mem_cons_of_mem _ hy)
    · obtain ⟨z, hz, rfl⟩ := mem_map.mp hx
      rw [settled_hash, mem_singleton.mp (mem_of_mem_filter hz)]
      exact (hrest y hy).symm

theorem mem_foldl_objects : o ∈ (rows.foldl (r.visitRow true now truth) p).tenant.objects ↔
    o ∈ p.tenant.objects ∧ ∀ row ∈ rows, r.collects now truth row → o.key ≠ row.key := by
  induction rows generalizing p with
  | nil => simp
  | cons row rest ih =>
    rw [foldl_cons, ih, visit_objects, forall_mem_cons]
    cases r.collects now truth row <;> simp [and_assoc]

theorem foldl_refs : (rows.foldl (r.visitRow true now truth) p).tenant.refs = p.tenant.refs := by
  induction rows generalizing p with
  | nil => rfl
  | cons row rest ih => rw [foldl_cons, ih, visit_refs]

def wrong (truth : String → Nat) (row : LedgerRow) : Bool :=
  row.refCount ≠ (truth row.hash : Int)

theorem visit_counts : (r.visitRow true now truth p row).report.refsCorrected =
      p.report.refsCorrected + (if wrong truth row then 1 else 0) ∧
    (r.visitRow true now truth p row).report.gcCount =
      p.report.gcCount + (if r.collects now truth row then 1 else 0) ∧
    (r.visitRow true now truth p row).report.orphansDeleted = p.report.orphansDeleted := by
  unfold BlobReconciler.visitRow BlobReconciler.examine Pass.collect Pass.reportBroken
    Pass.correct wrong
  split_ifs <;> simp_all

theorem foldl_counts : (rows.foldl (r.visitRow true now truth) p).report.refsCorrected =
      p.report.refsCorrected + rows.countP (wrong truth) ∧
    (rows.foldl (r.visitRow true now truth) p).report.gcCount =
      p.report.gcCount + rows.countP (r.collects now truth) ∧
    (rows.foldl (r.visitRow true now truth) p).report.orphansDeleted = p.report.orphansDeleted := by
  induction rows generalizing p with
  | nil => exact ⟨rfl, rfl, rfl⟩
  | cons row rest ih =>
    obtain ⟨hrefs, hgc, horphans⟩ := @visit_counts r now truth p row
    rw [foldl_cons, ih.1, ih.2.1, ih.2.2, hrefs, hgc, horphans, countP_cons, countP_cons]
    omega

theorem visit_broken : hash ∈ (r.visitRow true now truth p row).report.broken ↔
    hash ∈ p.report.broken ∨ row.hash = hash ∧ 0 < truth row.hash ∧
      p.tenant.byteExists row.key = false := by
  have hcorrect : (p.correct true truth row).report.broken = p.report.broken := by
    unfold Pass.correct
    split_ifs <;> rfl
  have hbytes : (p.correct true truth row).tenant.byteExists row.key =
      p.tenant.byteExists row.key := by
    rw [Tenant.byteExists, correct_objects, Tenant.byteExists]
  rw [BlobReconciler.visitRow, BlobReconciler.examine, hbytes]
  split_ifs with hcoll hmissing
  · have hzero : ¬ 0 < truth row.hash := by
      simp only [BlobReconciler.collects, Bool.and_eq_true, decide_eq_true_eq] at hcoll
      omega
    simp [Pass.collect, hcorrect, hzero]
  · simp [Pass.reportBroken, hcorrect, hmissing, eq_comm]
  · simp only [hcorrect, hmissing, and_false, or_false]

theorem mem_foldl_broken (hkeys : ∀ c ∈ rows, r.collects now truth c →
      ∀ row ∈ rows, 0 < truth row.hash → row.key ≠ c.key) :
    hash ∈ (rows.foldl (r.visitRow true now truth) p).report.broken ↔
      hash ∈ p.report.broken ∨ ∃ row ∈ rows, row.hash = hash ∧ 0 < truth row.hash ∧
        p.tenant.byteExists row.key = false := by
  induction rows generalizing p with
  | nil => simp
  | cons row rest ih =>
    have hexists : ∀ y ∈ rest, 0 < truth y.hash →
        (r.visitRow true now truth p row).tenant.byteExists y.key = p.tenant.byteExists y.key := by
      intro y hy hpos
      rw [Tenant.byteExists, Tenant.byteExists, visit_objects]
      split_ifs with hcoll
      · have hne := hkeys row mem_cons_self hcoll y (mem_cons_of_mem _ hy) hpos
        rw [Bool.eq_iff_iff]
        simp only [any_eq_true, mem_filter, decide_eq_true_eq]
        exact ⟨fun ⟨o, ho, hkey⟩ => ⟨o, ho.1, hkey⟩,
          fun ⟨o, ho, hkey⟩ => ⟨o, ⟨ho, hkey ▸ hne⟩, hkey⟩⟩
      · rfl
    rw [foldl_cons, ih fun c hc hcol y hy => hkeys c (mem_cons_of_mem _ hc) hcol y
      (mem_cons_of_mem _ hy), visit_broken]
    simp only [mem_cons, exists_eq_or_imp, or_assoc]
    refine or_congr_right (or_congr_right ?_)
    refine exists_congr fun y => and_congr_right fun hy => and_congr_right fun _ =>
      and_congr_right fun hpos => ?_
    rw [hexists y hy hpos]

theorem foldl_deleteOrphan {keys : List String} : keys.foldl (Pass.deleteOrphan true) p =
    ⟨{ p.tenant with objects := p.tenant.objects.filter fun o => o.key ∉ keys },
      { p.report with orphansDeleted := p.report.orphansDeleted + keys.length }⟩ := by
  induction keys generalizing p with
  | nil => simp
  | cons key rest ih =>
    rw [foldl_cons, ih]
    simp only [Pass.deleteOrphan, if_true, Tenant.deleteByte, filter_filter,
      mem_cons, length_cons, Pass.mk.injEq, Tenant.mk.injEq, Report.mk.injEq, true_and]
    exact ⟨filter_congr fun o _ => by simp [Bool.and_comm], by omega⟩

variable {k : KeyScheme} {s : Tenant}

def garbage (r : BlobReconciler) (now : Int) (s : Tenant) (row : LedgerRow) : Bool :=
  r.collects now (truthCounts s.refs) row

def orphan (r : BlobReconciler) (now : Int) (s : Tenant) (o : Object) : Prop :=
  o.key ∉ s.ledger.map LedgerRow.key ∧ r.past now o.lastModified = true

def healed (r : BlobReconciler) (now : Int) (s : Tenant) : Tenant :=
  (r.reconcile true now s).tenant

theorem healed_refs : (healed r now s).refs = s.refs := by
  rw [healed, BlobReconciler.reconcile, foldl_deleteOrphan]
  exact foldl_refs

theorem mem_healed_ledger (hs : s.Consistent k) : row ∈ (healed r now s).ledger ↔
      ∃ x ∈ s.ledger, garbage r now s x = false ∧ settled (truthCounts s.refs) x = row := by
  have hledger : (healed r now s).ledger = (s.ledger.filter fun x => !garbage r now s x).map
      (settled (truthCounts s.refs)) := by
    rw [healed, BlobReconciler.reconcile, foldl_deleteOrphan]
    exact foldl_ledger [] rfl hs.hashes (by simp)
  simp [hledger, and_assoc]

theorem mem_orphanKeys {key : String} :
    key ∈ r.orphanKeys now (r.visited true now s).tenant (s.ledger.map LedgerRow.key) ↔
      ∃ o ∈ s.objects, orphan r now s o ∧ o.key = key := by
  simp only [BlobReconciler.visited, BlobReconciler.orphanKeys, mem_map, mem_filter, mem_foldl_objects,
    decide_eq_true_eq]
  constructor
  · rintro ⟨o, ⟨⟨ho, -⟩, horphan⟩, rfl⟩
    exact ⟨o, ho, by simpa [orphan] using horphan, rfl⟩
  · rintro ⟨o, ho, horphan, rfl⟩
    refine ⟨o, ⟨⟨ho, fun row hrow _ heq => horphan.1 ?_⟩, by simpa [orphan] using horphan⟩, rfl⟩
    exact heq ▸ mem_map_of_mem hrow

theorem mem_healed_objects : o ∈ (healed r now s).objects ↔ o ∈ s.objects ∧
    (∀ row ∈ s.ledger, garbage r now s row → o.key ≠ row.key) ∧
      ∀ o' ∈ s.objects, o'.key = o.key → ¬ orphan r now s o' := by
  rw [healed, BlobReconciler.reconcile, foldl_deleteOrphan, mem_filter]
  simp only [Pass.reportBroken, BlobReconciler.visited, mem_foldl_objects, and_assoc]
  refine and_congr_right fun _ => and_congr_right fun _ => ?_
  constructor
  · intro hkeep o' ho' heq horphan
    exact of_decide_eq_true hkeep (mem_orphanKeys.mpr ⟨o', ho', horphan, heq⟩)
  · intro hkeep
    refine decide_eq_true fun hmem => ?_
    obtain ⟨o', ho', horphan, heq⟩ := mem_orphanKeys.mp hmem
    exact hkeep o' ho' heq horphan

theorem reconcile_quiet (hcounts : ∀ row ∈ s.ledger, row.refCount = truthCounts s.refs row.hash)
    (hgarbage : ∀ row ∈ s.ledger, garbage r now s row = false)
    (horphan : ∀ o ∈ s.objects, ¬ orphan r now s o) :
    (r.reconcile true now s).report.refsCorrected = 0 ∧
      (r.reconcile true now s).report.gcCount = 0 ∧
      (r.reconcile true now s).report.orphansDeleted = 0 := by
  have hkeys : ∀ key, key ∉ r.orphanKeys now (r.visited true now s).tenant
      (s.ledger.map LedgerRow.key) := by
    intro key hmem
    obtain ⟨o, ho, hold, -⟩ := mem_orphanKeys.mp hmem
    exact horphan o ho hold
  have hwrong : s.ledger.countP (wrong (truthCounts s.refs)) = 0 :=
    countP_eq_zero.mpr fun row hrow => by simp [wrong, hcounts row hrow]
  have hcoll : s.ledger.countP (r.collects now (truthCounts s.refs)) = 0 :=
    countP_eq_zero.mpr fun row hrow => by
      have hrow := hgarbage row hrow
      rw [garbage] at hrow
      simp [hrow]
  rw [BlobReconciler.reconcile, foldl_deleteOrphan]
  refine ⟨foldl_counts.1.trans (by rw [hwrong]), foldl_counts.2.1.trans (by rw [hcoll]), ?_⟩
  have hlength := congrArg List.length (eq_nil_iff_forall_not_mem.mpr hkeys)
  exact Nat.add_eq_zero_iff.mpr ⟨foldl_counts.2.2, hlength⟩

theorem mem_broken (hs : s.Consistent k) :
    hash ∈ (r.reconcile true now s).report.broken ↔ 0 < truthCounts s.refs hash ∧
      (s.byteExists (k.keyOf hash) = false ∨ hash ∉ s.hashes) := by
  have hkeys : ∀ c ∈ s.ledger, r.collects now (truthCounts s.refs) c →
      ∀ row ∈ s.ledger, 0 < truthCounts s.refs row.hash → row.key ≠ c.key := by
    intro c hc hcoll row hrow hpos heq
    rw [hs.keys row hrow, hs.keys c hc] at heq
    simp only [BlobReconciler.collects, Bool.and_eq_true, decide_eq_true_eq] at hcoll
    rw [k.inj heq, hcoll.1.1] at hpos
    exact Nat.lt_irrefl 0 hpos
  rw [BlobReconciler.reconcile, foldl_deleteOrphan]
  simp only [Pass.reportBroken, BlobReconciler.visited, mem_append, mem_foldl_broken hkeys, not_mem_nil,
    false_or, mem_filter, mem_dedup, ← truthCounts_pos, decide_eq_true_eq]
  constructor
  · rintro (⟨row, hrow, rfl, hpos, hmissing⟩ | ⟨hpos, hrow⟩)
    · exact ⟨hpos, .inl (hs.keys row hrow ▸ hmissing)⟩
    · exact ⟨hpos, .inr hrow⟩
  · rintro ⟨hpos, hmissing⟩
    by_cases hmem : hash ∈ s.hashes
    · obtain ⟨row, hrow, rfl⟩ := mem_map.mp hmem
      have hbytes := hmissing.resolve_right (not_not_intro hmem)
      exact .inl ⟨row, hrow, rfl, hpos, (hs.keys row hrow).symm ▸ hbytes⟩
    · exact .inr ⟨hpos, hmem⟩

structure Heals (r : BlobReconciler) (now : Int) (k : KeyScheme) (s : Tenant) : Prop where
  counts : ∀ row ∈ (healed r now s).ledger, row.refCount = truthCounts s.refs row.hash
  collected : ∀ row ∈ (healed r now s).ledger, truthCounts s.refs row.hash = 0 →
    row.pinned = false → r.past now row.createdAt = false
  swept : ∀ o ∈ (healed r now s).objects, r.past now o.lastModified = true →
    ∃ row ∈ (healed r now s).ledger, row.key = o.key
  keepsRows : ∀ row ∈ s.ledger, 0 < truthCounts s.refs row.hash →
    ∃ row' ∈ (healed r now s).ledger, row'.hash = row.hash
  keepsBytes : ∀ hash, 0 < truthCounts s.refs hash → ∀ o ∈ s.objects, o.key = k.keyOf hash →
    o ∈ (healed r now s).objects
  broken : ∀ hash, hash ∈ (r.reconcile true now s).report.broken ↔
    0 < truthCounts s.refs hash ∧
      (s.byteExists (k.keyOf hash) = false ∨ hash ∉ s.hashes)
  again : (r.reconcile true now (healed r now s)).report.refsCorrected = 0 ∧
    (r.reconcile true now (healed r now s)).report.gcCount = 0 ∧
    (r.reconcile true now (healed r now s)).report.orphansDeleted = 0

/-- No row that the pass keeps without a reference has a count, and no bytes that it would take
for an orphan are referenced. -/
structure Healable (r : BlobReconciler) (now : Int) (k : KeyScheme) (s : Tenant) : Prop where
  counts : ∀ row ∈ s.ledger, truthCounts s.refs row.hash = 0 → row.refCount ≠ 0 →
    row.pinned = false ∧ r.past now row.createdAt = true
  bytes : ∀ hash, 0 < truthCounts s.refs hash → hash ∉ s.hashes →
    ∀ o ∈ s.objects, o.key = k.keyOf hash → r.past now o.lastModified = false

variable {r : BlobReconciler} {now : Int} {k : KeyScheme} {s : Tenant}

theorem not_garbage : garbage r now s row = false ↔
    (truthCounts s.refs row.hash = 0 → row.pinned = false → r.past now row.createdAt = false) := by
  simp [garbage, BlobReconciler.collects]

theorem Heals.of_healable (hs : s.Consistent k) (h : Healable r now k s) : Heals r now k s := by
  have hcounts : ∀ row ∈ (healed r now s).ledger, row.refCount = truthCounts s.refs row.hash := by
    intro row hrow
    obtain ⟨x, hx, hkept, rfl⟩ := (mem_healed_ledger hs).mp hrow
    rw [settled_hash, settled]
    split_ifs with hpos
    · rfl
    · have hzero : truthCounts s.refs x.hash = 0 := by omega
      by_contra hcount
      have hgarbage := h.counts x hx hzero (by simpa [hzero] using hcount)
      simp [not_garbage.mp hkept hzero hgarbage.1] at hgarbage
  have hcollected : ∀ row ∈ (healed r now s).ledger, truthCounts s.refs row.hash = 0 →
      row.pinned = false → r.past now row.createdAt = false := by
    intro row hrow hzero
    obtain ⟨x, hx, hkept, rfl⟩ := (mem_healed_ledger hs).mp hrow
    rw [settled_hash] at hzero
    rw [settled, if_neg (by omega)]
    exact not_garbage.mp hkept hzero
  have hswept : ∀ o ∈ (healed r now s).objects, r.past now o.lastModified →
      ∃ row ∈ (healed r now s).ledger, row.key = o.key := by
    intro o ho hold
    obtain ⟨hmem, hkept, hledgered⟩ := mem_healed_objects.mp ho
    have hkey : o.key ∈ s.ledger.map LedgerRow.key := by
      by_contra hkey
      exact hledgered o hmem rfl ⟨hkey, hold⟩
    obtain ⟨row, hrow, hkey⟩ := mem_map.mp hkey
    have hgarbage : garbage r now s row = false := by
      rw [← Bool.not_eq_true]
      exact fun hgarbage => hkept row hrow hgarbage hkey.symm
    exact ⟨_, (mem_healed_ledger hs).mpr ⟨row, hrow, hgarbage, rfl⟩, settled_key.trans hkey⟩
  refine ⟨hcounts, hcollected, hswept, ?_, ?_, fun _ => mem_broken hs, ?_⟩
  · intro row hrow hpos
    refine ⟨_, (mem_healed_ledger hs).mpr ⟨row, hrow, not_garbage.mpr ?_, rfl⟩, settled_hash⟩
    omega
  · intro hash hpos o ho hkey
    refine mem_healed_objects.mpr ⟨ho, ?_, ?_⟩
    · intro row hrow hgarbage heq
      rw [hkey, hs.keys row hrow] at heq
      obtain rfl := k.inj heq
      simp only [garbage, BlobReconciler.collects, Bool.and_eq_true, decide_eq_true_eq] at hgarbage
      omega
    · intro o' ho' heq horphan
      have hrow : hash ∉ s.hashes := by
        intro hmem
        obtain ⟨row, hrow, rfl⟩ := mem_map.mp hmem
        refine horphan.1 ?_
        rw [heq, hkey, ← hs.keys row hrow]
        exact mem_map_of_mem hrow
      simpa [h.bytes hash hpos hrow o' ho' (heq.trans hkey)] using horphan.2
  · refine reconcile_quiet ?_ ?_ ?_
    · rwa [healed_refs]
    · intro row hrow
      rw [not_garbage, healed_refs]
      exact hcollected row hrow
    · rintro o ho ⟨hkey, hold⟩
      obtain ⟨row, hrow, heq⟩ := hswept o ho hold
      exact hkey (heq ▸ mem_map_of_mem hrow)

theorem Heals.healable (hs : s.Consistent k) (h : Heals r now k s) : Healable r now k s := by
  constructor
  · intro row hrow hzero hcount
    by_contra hkept
    have hgarbage : garbage r now s row = false := by
      rw [not_garbage]
      intro _ hpinned
      rw [← Bool.not_eq_true]
      exact fun hpast => hkept ⟨hpinned, hpast⟩
    have hrow' := h.counts _ ((mem_healed_ledger hs).mpr ⟨row, hrow, hgarbage, rfl⟩)
    rw [settled_hash, hzero, settled, if_neg (by omega)] at hrow'
    exact hcount hrow'
  · intro hash hpos hrow o ho hkey
    rw [← Bool.not_eq_true]
    intro hpast
    have hmem := h.keepsBytes hash hpos o ho hkey
    refine (mem_healed_objects.mp hmem).2.2 o ho rfl ⟨fun hledgered => hrow ?_, hpast⟩
    obtain ⟨row, hmem, heq⟩ := mem_map.mp hledgered
    rw [hs.keys row hmem, hkey] at heq
    exact k.inj heq ▸ mem_map_of_mem hmem

theorem reconcile_heals_iff (hs : s.Consistent k) : Heals r now k s ↔ Healable r now k s :=
  ⟨Heals.healable hs, Heals.of_healable hs⟩

def drifted : Tenant where
  refs := [(.blobObject "b1", "photo"), (.digestNode "d1", "summary")]
  ledger := [⟨"photo", "photo", 5, 3, false, 0⟩, ⟨"draft", "draft", 7, 1, false, 0⟩]
  objects := [⟨"photo", 0⟩, ⟨"draft", 0⟩, ⟨"stray", 0⟩]

theorem reconcile_heals_drifted : Heals ⟨10⟩ 100 plainKeys drifted := by
  refine (reconcile_heals_iff ⟨by decide, by decide⟩).mpr ⟨by decide, ?_⟩
  intro hash hpos hrow o ho hkey
  rw [truthCounts_pos] at hpos
  revert o
  revert hash
  decide

def pinnedDraft : Tenant where
  refs := []
  ledger := [⟨"draft", "draft", 7, 1, true, 0⟩]
  objects := [⟨"draft", 0⟩]

def unledgeredPhoto : Tenant where
  refs := [(.blobObject "b1", "photo")]
  ledger := []
  objects := [⟨"photo", 0⟩]

theorem pass_leaves_count_and_takes_bytes :
    (pinnedDraft.Consistent plainKeys ∧ ¬ Heals ⟨10⟩ 100 plainKeys pinnedDraft) ∧
      unledgeredPhoto.Consistent plainKeys ∧ ¬ Heals ⟨10⟩ 100 plainKeys unledgeredPhoto := by
  refine ⟨⟨⟨by decide, by decide⟩, fun h => ?_⟩, ⟨by decide, by decide⟩, fun h => ?_⟩
  · exact absurd (h.counts ⟨"draft", "draft", 7, 1, true, 0⟩ (by decide)) (by decide)
  · exact absurd (h.keepsBytes "photo" (by decide) ⟨"photo", 0⟩ (by decide) rfl) (by decide)

end Fabriq.Blob.ReconcileHeals
