import Fabriq.Document.CompactionSafety
import Fabriq.Document.Tenants

/-!
What a tenant does with documents is invisible to the other tenants, as long as no update goes to a
document of another tenant and no document of the tenant stops a sweep.
-/

namespace Fabriq.Document.TenantIsolation

open Document.Store Document.Tenants Lib.Machine List Option
open Document.Materialize (EntityRow)

variable {α : Type*} {b tenant docId : String}

def others (b : String) (rows : List (Owned α)) : List (Owned α) :=
  rows.filter fun row => row.tenant != b

def otherDocs (b : String) (docs : List DocsRow) : List DocsRow :=
  docs.filter fun row => row.tenant != b

theorem visible_others (htenant : tenant ≠ b) (rows : List (Owned α)) :
    visible (others b rows) tenant docId = visible rows tenant docId := by
  rw [visible, visible, others, List.filter_filter]
  congr 1
  apply filter_congr
  intro row _
  by_cases his : row.is tenant docId
  · have heq : row.tenant = tenant := by
      simp only [Owned.is, Bool.and_eq_true, beq_iff_eq] at his
      exact his.1
    simp [his, heq, htenant]
  · simp [his]

theorem others_append (rows more : List (Owned α)) :
    others b (rows ++ more) = others b rows ++ others b more :=
  filter_append ..

theorem others_singleton_self (docId : String) (val : α) : others b [⟨docId, b, val⟩] = [] := by
  simp [others]

theorem others_singleton (htenant : tenant ≠ b) (docId : String) (val : α) :
    others b [⟨docId, tenant, val⟩] = [⟨docId, tenant, val⟩] := by
  simp [others, htenant]

theorem others_filter_self {keep : Owned α → Bool}
    (hkeep : ∀ row, keep row = false → row.tenant = b) (rows : List (Owned α)) :
    others b (rows.filter keep) = others b rows := by
  rw [others, others, List.filter_filter]
  apply filter_congr
  intro row _
  cases hrow : keep row with
  | true => simp
  | false => simp [hkeep row hrow]

theorem others_filter (keep : Owned α → Bool) (rows : List (Owned α)) :
    others b (rows.filter keep) = (others b rows).filter keep := by
  rw [others, others, List.filter_filter, List.filter_filter]
  exact filter_congr fun row _ => Bool.and_comm _ _

theorem not_is_self {row : Owned α} (h : (!row.is b docId) = false) : row.tenant = b := by
  simp only [Owned.is, Bool.not_eq_false', Bool.and_eq_true, beq_iff_eq] at h
  exact h.1

theorem others_put_self (rows : List (Owned α)) (val : α) :
    others b (put rows b docId val) = others b rows := by
  rw [put, others_append, others_singleton_self, append_nil,
    others_filter_self fun row h => not_is_self h]

theorem others_put (htenant : tenant ≠ b) (rows : List (Owned α)) (val : α) :
    others b (put rows tenant docId val) = put (others b rows) tenant docId val := by
  rw [put, put, others_append, others_singleton htenant, others_filter]

theorem otherDocs_filter (keep : DocsRow → Bool) (docs : List DocsRow) :
    otherDocs b (docs.filter keep) = (otherDocs b docs).filter keep := by
  rw [otherDocs, otherDocs, List.filter_filter, List.filter_filter]
  exact filter_congr fun row _ => Bool.and_comm _ _

theorem otherDocs_updateDocs {set : DocsRow → DocsRow} (hset : ∀ row, (set row).tenant = row.tenant)
    (docs : List DocsRow) :
    otherDocs b (updateDocs docs docId set) = updateDocs (otherDocs b docs) docId set := by
  rw [otherDocs, otherDocs, updateDocs, updateDocs, List.filter_map]
  congr 1
  apply filter_congr
  intro row _
  simp only [Function.comp_apply]
  split
  · rw [hset]
  · rfl

theorem otherDocs_updateDocs_self {set : DocsRow → DocsRow} {docs : List DocsRow}
    (hset : ∀ row, (set row).tenant = row.tenant)
    (hdocs : ∀ row ∈ docs, row.docId = docId → row.tenant = b) :
    otherDocs b (updateDocs docs docId set) = otherDocs b docs := by
  rw [otherDocs_updateDocs hset, updateDocs]
  refine (map_congr_left fun row hrow => ?_).trans (map_id _)
  obtain ⟨hmem, hother⟩ := mem_filter.mp hrow
  have hne : row.docId ≠ docId := fun heq => by
    rw [hdocs row hmem heq] at hother
    simp at hother
  rw [if_neg hne, id]

variable {Update State Vals : Type*} {db v : Database Update State Vals}

def owners (docs : List DocsRow) : List (String × String) :=
  docs.map fun row => (row.docId, row.tenant)

variable {docs : List DocsRow}

theorem mem_owners {row : DocsRow} (hrow : row ∈ docs) : (row.docId, row.tenant) ∈ owners docs :=
  mem_map.mpr ⟨row, hrow, rfl⟩

theorem owners_updateDocs {set : DocsRow → DocsRow}
    (hset : ∀ row, (set row).docId = row.docId ∧ (set row).tenant = row.tenant) :
    owners (updateDocs docs docId set) = owners docs := by
  rw [owners, owners, updateDocs, List.map_map]
  apply map_congr_left
  intro row _
  simp only [Function.comp_apply]
  split
  · rw [(hset row).1, (hset row).2]
  · rfl

theorem mem_owners_otherDocs :
    (docId, tenant) ∈ owners (otherDocs b docs) ↔ (docId, tenant) ∈ owners docs ∧ tenant ≠ b := by
  simp only [owners, otherDocs, List.mem_map, List.mem_filter, Prod.mk.injEq, bne_iff_ne]
  constructor
  · rintro ⟨row, ⟨hrow, hother⟩, rfl, rfl⟩
    exact ⟨⟨row, hrow, rfl, rfl⟩, hother⟩
  · rintro ⟨⟨row, hrow, rfl, rfl⟩, hother⟩
    exact ⟨row, ⟨hrow, hother⟩, rfl, rfl⟩

theorem listed_others {rows : List (Owned α)}
    (h : ∀ row ∈ rows, (row.docId, row.tenant) ∈ owners docs) :
    ∀ row ∈ others b rows, (row.docId, row.tenant) ∈ owners (otherDocs b docs) := by
  intro row hrow
  obtain ⟨hmem, hother⟩ := mem_filter.mp hrow
  exact mem_owners_otherDocs.mpr ⟨h row hmem, bne_iff_ne.mp hother⟩

theorem listed_put {owned : List (String × String)} {rows : List (Owned α)} {val : α}
    (h : ∀ row ∈ rows, (row.docId, row.tenant) ∈ owned) (hnew : (docId, tenant) ∈ owned) :
    ∀ row ∈ put rows tenant docId val, (row.docId, row.tenant) ∈ owned :=
  forall_mem_concat (fun row hold => h row (mem_filter.mp hold).1) hnew

/-- A document has one owner, and its rows in the other tables are the owner's. -/
structure Owns (db : Database Update State Vals) : Prop where
  docs : ∀ docId t u, (docId, t) ∈ owners db.docs → (docId, u) ∈ owners db.docs → t = u
  updates : ∀ row ∈ db.updates, (row.docId, row.tenant) ∈ owners db.docs
  snapshots : ∀ row ∈ db.snapshots, (row.docId, row.tenant) ∈ owners db.docs
  entities : ∀ row ∈ db.entities, (row.docId, row.tenant) ∈ owners db.docs

theorem owns_empty : Owns (Database.empty : Database Update State Vals) where
  docs := by simp [Database.empty, owners]
  updates := by simp [Database.empty]
  snapshots := by simp [Database.empty]
  entities := by simp [Database.empty]

structure Restricts (b : String) (db v : Database Update State Vals) : Prop where
  docs : v.docs = otherDocs b db.docs
  updates : v.updates = others b db.updates
  snapshots : v.snapshots = others b db.snapshots
  entities : v.entities = others b db.entities
  outbox : v.outbox = others b db.outbox
  lastSeq : v.lastSeq ≤ db.lastSeq

theorem restricts_empty (b : String) :
    Restricts b (Database.empty : Database Update State Vals) Database.empty :=
  ⟨rfl, rfl, rfl, rfl, rfl, le_rfl⟩

theorem Restricts.owns (h : Restricts b db v) (howns : Owns db) : Owns v := by
  refine ⟨fun docId t u ht hu => ?_, ?_, ?_, ?_⟩
  · rw [h.docs] at ht hu
    exact howns.docs docId t u (mem_owners_otherDocs.mp ht).1 (mem_owners_otherDocs.mp hu).1
  · rw [h.updates, h.docs]
    exact listed_others howns.updates
  · rw [h.snapshots, h.docs]
    exact listed_others howns.snapshots
  · rw [h.entities, h.docs]
    exact listed_others howns.entities

theorem Restricts.observe (h : Restricts b db v) {a : String} (ha : a ≠ b) (docId : String) :
    observe v a docId = observe db a docId := by
  simp only [Tenants.observe, h.updates, h.snapshots, h.entities, h.outbox, visible_others ha]

section

variable [SemilatticeSup State] [OrderBot State] {plane : Plane Update State Vals}

theorem Restricts.merged (h : Restricts b db v) (htenant : tenant ≠ b) (docId : String) :
    merged plane v tenant docId = merged plane db tenant docId := by
  rw [Tenants.merged, Tenants.merged, h.snapshots, h.updates, visible_others htenant,
    visible_others htenant]

omit [OrderBot State] in
theorem Restricts.readable (h : Restricts b db v) (htenant : tenant ≠ b) (docId : String) :
    readable plane v tenant docId = readable plane db tenant docId := by
  rw [Tenants.readable, Tenants.readable, h.snapshots, h.updates, visible_others htenant,
    visible_others htenant]

theorem Owns.listed_of_merged (h : Owns db) (hmax : (merged plane db tenant docId).maxSeq ≠ 0) :
    (docId, tenant) ∈ owners db.docs := by
  have hrows : rowsAfter (visible db.updates tenant docId)
      (snapshotSeq (visible db.snapshots tenant docId).head?) ≠ [] := by
    intro hnil
    apply hmax
    simp [Tenants.merged, mergedState, hnil, lastRowSeq]
  obtain ⟨row, hrow⟩ := exists_mem_of_ne_nil _ hrows
  obtain ⟨stored, hstored, -⟩ := mem_map.mp (mem_rowsAfter.mp hrow).1
  obtain ⟨hmem, his⟩ := mem_filter.mp hstored
  simp only [Owned.is, Bool.and_eq_true, beq_iff_eq] at his
  rw [← his.1, ← his.2]
  exact h.updates stored hmem

theorem Owns.compact_eq (h : Owns db) (tenant docId : String) :
    (compact plane db tenant docId).getD db =
      if readable plane db tenant docId = false ∨ (merged plane db tenant docId).maxSeq = 0 then db
      else compactWrite plane db tenant docId := by
  rw [compact]
  cases readable plane db tenant docId with
  | false => simp
  | true =>
    simp only [Bool.not_true, Bool.false_eq_true, if_false, Bool.true_eq_false, false_or]
    split
    · rfl
    rename_i hmax
    have hlisted := h.listed_of_merged hmax
    rw [if_neg]
    · rfl
    intro hany
    obtain ⟨row, hrow, hfor⟩ := any_eq_true.mp hany
    simp only [Bool.and_eq_true, beq_iff_eq, bne_iff_ne] at hfor
    exact hfor.2 (h.docs docId _ _ (hfor.1 ▸ h.snapshots row hrow) hlisted)

theorem Owns.compact (h : Owns db) (tenant docId : String) :
    Owns ((compact plane db tenant docId).getD db) := by
  rw [h.compact_eq]
  split
  · exact h
  · rename_i hwrites
    exact ⟨h.docs, fun row hrow => h.updates row (mem_filter.mp hrow).1,
      listed_put h.snapshots (h.listed_of_merged (not_or.mp hwrites).2), h.entities⟩

theorem Restricts.compact_self (h : Restricts b db v) (howns : Owns db) (docId : String) :
    Restricts b ((compact plane db b docId).getD db) v := by
  rw [howns.compact_eq]
  split
  · exact h
  · refine ⟨h.docs, ?_, ?_, h.entities, h.outbox, h.lastSeq⟩
    · rw [h.updates]
      refine (others_filter_self (fun row hrow => ?_) _).symm
      simp only [Bool.not_eq_false', Bool.and_eq_true, Owned.is, beq_iff_eq] at hrow
      exact hrow.1.1
    · rw [h.snapshots]
      exact (others_put_self _ _).symm

theorem Restricts.compact (h : Restricts b db v) (howns : Owns db) (htenant : tenant ≠ b)
    (docId : String) :
    Restricts b ((compact plane db tenant docId).getD db)
      ((Tenants.compact plane v tenant docId).getD v) := by
  rw [howns.compact_eq, (h.owns howns).compact_eq, h.merged htenant, h.readable htenant]
  split
  · exact h
  · refine ⟨h.docs, ?_, ?_, h.entities, h.outbox, h.lastSeq⟩
    · simp only [compactWrite, h.updates, h.merged htenant]
      exact (others_filter _ _).symm
    · simp only [compactWrite, h.snapshots, h.merged htenant]
      exact (others_put htenant _ _).symm

end

section

variable [SemilatticeSup State] [OrderBot State] {plane : Plane Update State Vals} {row : DocsRow}

def swept (plane : Plane Update State Vals) (db : Database Update State Vals) (row : DocsRow) :
    Database Update State Vals :=
  if !plane.projection.accepts
      (plane.projection.stateValues (merged plane db row.tenant row.docId).state) then
    flag db row.docId
  else materializeWrite plane db row

theorem Owns.materializeOne_eq (h : Owns db) (hrow : (row.docId, row.tenant) ∈ owners db.docs) :
    materializeOne plane db row =
      if stuck plane db row then none else some (swept plane db row) := by
  have hfree : visible db.entities row.tenant row.docId = [] →
      ∀ entity ∈ db.entities, ¬ entity.docId = row.docId := by
    intro hnone entity hentity hid
    have htenant : entity.tenant = row.tenant :=
      h.docs row.docId _ _ (hid ▸ h.entities entity hentity) hrow
    have hmem : entity.val ∈ visible db.entities row.tenant row.docId := by
      refine mem_map.mpr ⟨entity, mem_filter.mpr ⟨hentity, ?_⟩, rfl⟩
      simp [Owned.is, htenant, hid]
    rw [hnone] at hmem
    cases hmem
  by_cases hread : readable plane db row.tenant row.docId
  · by_cases haccepts : plane.projection.accepts
        (plane.projection.stateValues (merged plane db row.tenant row.docId).state)
    · by_cases hwrites : plane.writes row.docId
          (plane.projection.stateValues (merged plane db row.tenant row.docId).state)
      · simpa [materializeOne, stuck, swept, hread, haccepts, hwrites] using hfree
      · simp [materializeOne, stuck, hread, haccepts, hwrites]
    · simp [materializeOne, stuck, swept, hread, haccepts]
  · simp [materializeOne, stuck, hread]

theorem stuck_swept (other : DocsRow) :
    stuck plane (swept plane db row) other = stuck plane db other := by
  rw [swept]
  split <;> rfl

theorem Restricts.stuck (h : Restricts b db v) (hb : row.tenant ≠ b) :
    stuck plane v row = stuck plane db row := by
  rw [Tenants.stuck, Tenants.stuck, h.readable hb, h.merged hb]

theorem owners_swept : owners (swept plane db row).docs = owners db.docs := by
  rw [swept]
  split
  · exact owners_updateDocs fun _ => ⟨rfl, rfl⟩
  · exact owners_updateDocs fun _ => ⟨rfl, rfl⟩

theorem Owns.sweep (h : Owns db) (hrow : (row.docId, row.tenant) ∈ owners db.docs) :
    Owns (swept plane db row) := by
  refine ⟨?_, ?_, ?_, ?_⟩
  · rw [owners_swept]
    exact h.docs
  · rw [owners_swept, swept]
    split
    · exact h.updates
    · exact h.updates
  · rw [owners_swept, swept]
    split
    · exact h.snapshots
    · exact h.snapshots
  · rw [owners_swept, swept]
    split
    · exact h.entities
    · exact listed_put h.entities hrow

section

variable (h : Restricts b db v)
include h

theorem Restricts.sweep_self (howns : Owns db)
    (hrow : (row.docId, row.tenant) ∈ owners db.docs) (hb : row.tenant = b) :
    Restricts b (swept plane db row) v := by
  have hdocs : ∀ r ∈ db.docs, r.docId = row.docId → r.tenant = b := by
    intro r hr heq
    exact hb ▸ howns.docs row.docId _ _ (heq ▸ mem_owners hr) hrow
  rw [swept]
  split
  · exact ⟨h.docs.trans (otherDocs_updateDocs_self (by simp) hdocs).symm, h.updates,
      h.snapshots, h.entities, h.outbox, h.lastSeq⟩
  · refine ⟨h.docs.trans (otherDocs_updateDocs_self (by simp) hdocs).symm, h.updates,
      h.snapshots, ?_, ?_, h.lastSeq⟩
    · rw [h.entities, materializeWrite, hb]
      exact (others_put_self _ _).symm
    · rw [h.outbox, materializeWrite, hb]
      simp only [others_append, others_singleton_self, append_nil]

theorem Restricts.sweep (hb : row.tenant ≠ b) :
    Restricts b (swept plane db row) (swept plane v row) := by
  rw [swept, swept, h.merged hb]
  split
  · refine ⟨?_, h.updates, h.snapshots, h.entities, h.outbox, h.lastSeq⟩
    simp only [flag, h.docs]
    exact (otherDocs_updateDocs (by simp) _).symm
  · refine ⟨?_, h.updates, h.snapshots, ?_, ?_, h.lastSeq⟩
    · simp only [materializeWrite, h.docs, h.merged hb]
      exact (otherDocs_updateDocs (by simp) _).symm
    · simp only [materializeWrite, h.entities, h.merged hb, visible_others hb]
      exact (others_put hb _ _).symm
    · simp only [materializeWrite, h.outbox, h.entities, h.merged hb, visible_others hb,
        others_append, others_singleton hb]

theorem Restricts.materializeRows (howns : Owns db) (now : Nat)
    {rows : List DocsRow} (hrows : ∀ row ∈ rows, (row.docId, row.tenant) ∈ owners db.docs)
    (hfree : ∀ row ∈ rows, quiet plane now row = true → row.tenant = b →
      Tenants.stuck plane db row = false) :
    Restricts b (materializeRows plane now db rows)
        (Tenants.materializeRows plane now v (otherDocs b rows)) ∧
      Owns (Tenants.materializeRows plane now db rows) := by
  induction rows generalizing db v with
  | nil => exact ⟨h, howns⟩
  | cons row rest ih =>
    have hrow := hrows row mem_cons_self
    have hrest : ∀ r ∈ rest, (r.docId, r.tenant) ∈ owners (swept plane db row).docs := by
      intro r hr
      rw [owners_swept]
      exact hrows r (mem_cons_of_mem _ hr)
    have hskip := fun r hr => hrows r (mem_cons_of_mem _ hr)
    have hfreeRest := fun r hr => hfree r (mem_cons_of_mem _ hr)
    have hfreeSwept : ∀ r ∈ rest, quiet plane now r = true → r.tenant = b →
        Tenants.stuck plane (swept plane db row) r = false := by
      intro r hr
      rw [stuck_swept]
      exact hfreeRest r hr
    rw [Tenants.materializeRows, howns.materializeOne_eq hrow]
    by_cases hb : row.tenant = b
    · have hother : otherDocs b (row :: rest) = otherDocs b rest := by simp [otherDocs, hb]
      rw [hother]
      split
      · rename_i hquiet
        rw [hfree row mem_cons_self hquiet hb]
        exact ih (h.sweep_self howns hrow hb) (howns.sweep hrow) hrest hfreeSwept
      · exact ih h howns hskip hfreeRest
    · have hother : otherDocs b (row :: rest) = row :: otherDocs b rest := by
        simp [otherDocs, hb]
      have hlisted : (row.docId, row.tenant) ∈ owners v.docs := by
        rw [h.docs]
        exact mem_owners_otherDocs.mpr ⟨hrow, hb⟩
      rw [hother, Tenants.materializeRows, (h.owns howns).materializeOne_eq hlisted, h.stuck hb]
      split
      · -- a document of another tenant that is stuck ends both sweeps
        cases Tenants.stuck plane db row with
        | true => exact ⟨h, howns⟩
        | false => exact ih (h.sweep hb) (howns.sweep hrow) hrest hfreeSwept
      · exact ih h howns hskip hfreeRest

theorem Restricts.compactRows (howns : Owns db) (rows : List DocsRow) :
    Restricts b (compactRows plane db rows) (Tenants.compactRows plane v (otherDocs b rows)) ∧
      Owns (Tenants.compactRows plane db rows) := by
  induction rows generalizing db v with
  | nil => exact ⟨h, howns⟩
  | cons row rest ih =>
    rw [Tenants.compactRows, foldl_cons]
    by_cases hb : row.tenant = b
    · have hother : otherDocs b (row :: rest) = otherDocs b rest := by simp [otherDocs, hb]
      rw [hother, hb]
      exact ih (h.compact_self howns _) (howns.compact b _)
    · have hother : otherDocs b (row :: rest) = row :: otherDocs b rest := by
        simp [otherDocs, hb]
      rw [hother, Tenants.compactRows, foldl_cons]
      exact ih (h.compact howns hb _) (howns.compact _ _)

end

end

variable {seq now : Nat}

theorem owners_recordAppend (seq now : Nat)
    (hown : ∀ row ∈ docs, row.docId = docId → row.tenant = tenant) :
    (∀ owned ∈ owners (recordAppend docs tenant docId seq now),
        owned ∈ owners docs ∨ owned = (docId, tenant)) ∧
      (∀ owned ∈ owners docs, owned ∈ owners (recordAppend docs tenant docId seq now)) ∧
        (docId, tenant) ∈ owners (recordAppend docs tenant docId seq now) := by
  rw [recordAppend]
  split
  · rename_i hany
    rw [owners_updateDocs (by simp)]
    obtain ⟨row, hrow, hid⟩ := any_eq_true.mp hany
    have hdoc : row.docId = docId := beq_iff_eq.mp hid
    refine ⟨fun _ => .inl, fun _ h => h, ?_⟩
    rw [← hdoc, ← hown row hrow hdoc]
    exact mem_owners hrow
  · have happend : owners (docs ++ [⟨docId, tenant, seq, 0, now, false⟩]) =
        owners docs ++ [(docId, tenant)] := map_append ..
    rw [happend]
    refine ⟨fun owned howned => ?_, fun owned howned => mem_append_left _ howned,
      mem_append_right _ (mem_singleton_self _)⟩
    exact (mem_append.mp howned).imp id mem_singleton.mp

theorem Owns.applyUpdate (h : Owns db) (update : Update)
    (hown : ∀ row ∈ db.docs, row.docId = docId → row.tenant = tenant) :
    Owns { db with
      updates := db.updates ++ [⟨docId, tenant, ⟨seq, update⟩⟩]
      docs := recordAppend db.docs tenant docId seq now
      lastSeq := seq } := by
  obtain ⟨hold, hkept, hnew⟩ := owners_recordAppend seq now hown
  have hsame : ∀ t, (docId, t) ∈ owners db.docs → t = tenant := by
    intro t ht
    obtain ⟨row, hrow, heq⟩ := mem_map.mp ht
    obtain ⟨hid, rfl⟩ := Prod.mk.inj heq
    exact hown row hrow hid
  refine ⟨fun d t u ht hu => ?_, fun row hrow => ?_, fun row hrow => hkept _ (h.snapshots row hrow),
    fun row hrow => hkept _ (h.entities row hrow)⟩
  · rcases hold _ ht with hdt | hdt
    · rcases hold _ hu with hdu | hdu
      · exact h.docs d t u hdt hdu
      · cases hdu
        exact hsame t hdt
    · cases hdt
      rcases hold _ hu with hdu | hdu
      · exact (hsame u hdu).symm
      · exact (Prod.mk.inj hdu).2.symm
  · rcases mem_append.mp hrow with hrow | hrow
    · exact hkept _ (h.updates row hrow)
    · rw [mem_singleton.mp hrow]
      exact hnew

theorem otherDocs_recordAppend_self (hown : ∀ row ∈ docs, row.docId = docId → row.tenant = b) :
    otherDocs b (recordAppend docs b docId seq now) = otherDocs b docs := by
  rw [recordAppend]
  split
  · exact otherDocs_updateDocs_self (by simp) hown
  · simp [otherDocs]

theorem otherDocs_recordAppend (htenant : tenant ≠ b)
    (hown : ∀ row ∈ docs, row.docId = docId → row.tenant = tenant) :
    otherDocs b (recordAppend docs tenant docId seq now) =
      recordAppend (otherDocs b docs) tenant docId seq now := by
  have hany : ((otherDocs b docs).any fun row => row.docId == docId) =
      docs.any fun row => row.docId == docId := by
    rw [Bool.eq_iff_iff, List.any_eq_true, List.any_eq_true]
    constructor
    · rintro ⟨row, hrow, hid⟩
      exact ⟨row, (mem_filter.mp hrow).1, hid⟩
    · rintro ⟨row, hrow, hid⟩
      refine ⟨row, mem_filter.mpr ⟨hrow, ?_⟩, hid⟩
      rw [hown row hrow (beq_iff_eq.mp hid)]
      exact bne_iff_ne.mpr htenant
  rw [recordAppend, recordAppend, hany]
  split
  · exact otherDocs_updateDocs (by simp) _
  · simp [otherDocs, htenant]

section

variable [SemilatticeSup State] [OrderBot State] {plane : Plane Update State Vals}
  {db' : Database Update State Vals}

theorem step_self {a : Tenants.Action Update} (h : Restricts b db v) (howns : Owns db)
    (hown : Undisturbed plane b db a) (hb : a.calledBy b)
    (hstep : Tenants.step plane db a = some db') :
    Restricts b db' v ∧ Owns db' := by
  cases a with
  | applyUpdate tenant docId update seq now =>
    obtain rfl : tenant = b := beq_iff_eq.mp hb
    simp only [Tenants.step, ite_none_right_eq_some, some.injEq] at hstep
    obtain ⟨hseq, rfl⟩ := hstep
    refine ⟨⟨?_, ?_, h.snapshots, h.entities, h.outbox, ?_⟩, howns.applyUpdate update hown⟩
    · exact h.docs.trans (otherDocs_recordAppend_self hown).symm
    · rw [h.updates, others_append, others_singleton_self, append_nil]
    · exact Nat.le_trans h.lastSeq (Nat.le_of_lt hseq)
  | compact tenant docId =>
    obtain rfl : tenant = b := beq_iff_eq.mp hb
    cases hstep
    exact ⟨h.compact_self howns docId, howns.compact tenant docId⟩
  | materializeQuiet | compactDue => cases hb

theorem step_other {a : Tenants.Action Update} (h : Restricts b db v) (howns : Owns db)
    (hown : Undisturbed plane b db a) (hb : a.calledBy b = false)
    (hstep : Tenants.step plane db a = some db') :
    ∃ v', Tenants.step plane v a = some v' ∧ Restricts b db' v' ∧ Owns db' := by
  cases a with
  | applyUpdate tenant docId update seq now =>
    have htenant : tenant ≠ b := beq_eq_false_iff_ne.mp hb
    simp only [Tenants.step, ite_none_right_eq_some, some.injEq] at hstep
    obtain ⟨hseq, rfl⟩ := hstep
    refine ⟨_, if_pos (Nat.lt_of_le_of_lt h.lastSeq hseq),
      ⟨?_, ?_, h.snapshots, h.entities, h.outbox, le_rfl⟩, howns.applyUpdate update hown⟩
    · rw [h.docs]
      exact (otherDocs_recordAppend htenant hown).symm
    · rw [h.updates, others_append, others_singleton htenant]
  | compact tenant docId =>
    have htenant : tenant ≠ b := beq_eq_false_iff_ne.mp hb
    cases hstep
    exact ⟨_, rfl, h.compact howns htenant docId, howns.compact tenant docId⟩
  | materializeQuiet now =>
    cases hstep
    refine ⟨_, rfl, ?_⟩
    rw [h.docs, ← otherDocs_filter]
    refine h.materializeRows howns now (fun row hrow => mem_owners (mem_filter.mp hrow).1) ?_
    intro row hrow
    exact hown row (mem_filter.mp hrow).1 (mem_filter.mp hrow).2
  | compactDue =>
    cases hstep
    refine ⟨_, rfl, ?_⟩
    have hdue : (otherDocs b db.docs).filter (overBudget plane v) =
        otherDocs b (db.docs.filter (overBudget plane db)) := by
      rw [otherDocs_filter]
      apply filter_congr
      intro row hrow
      have htenant : row.tenant ≠ b := bne_iff_ne.mp (mem_filter.mp hrow).2
      rw [overBudget, overBudget, h.updates, visible_others htenant]
    rw [h.docs, hdue]
    exact h.compactRows howns _

/-- In every run in which updates go to documents that are new or the tenant's own and no document
of `b` stops a sweep, the other tenants observe what they observe without the operations of `b`. -/
theorem documents_isolated (plane : Plane Update State Vals) (b : String)
    {trace : List (Tenants.Action Update)} {db : Database Update State Vals}
    (hown : Along (Tenants.step plane) (Undisturbed plane b) Database.empty trace)
    (hrun : run (Tenants.step plane) Database.empty trace = some db) :
    ∃ v, run (Tenants.step plane) Database.empty (trace.filter fun a => !a.calledBy b) = some v ∧
      ∀ a ≠ b, ∀ docId, observe db a docId = observe v a docId := by
  have hkeep : ∀ (s v : Database Update State Vals) a t, (Restricts b s v ∧ Owns s) →
      Undisturbed plane b s a → (!a.calledBy b) → Tenants.step plane s a = some t →
        ∃ u, Tenants.step plane v a = some u ∧ Restricts b t u ∧ Owns t :=
    fun s v a t h hown hb hstep => step_other h.1 h.2 hown (by simpa using hb) hstep
  have hskip : ∀ (s v : Database Update State Vals) a t, (Restricts b s v ∧ Owns s) →
      Undisturbed plane b s a → (!a.calledBy b) = false → Tenants.step plane s a = some t →
        Restricts b t v ∧ Owns t :=
    fun s v a t h hown hb hstep => step_self h.1 h.2 hown (by simpa using hb) hstep
  obtain ⟨v, hv, hrestricts, -⟩ :=
    run_filter_refines hkeep hskip ⟨restricts_empty b, owns_empty⟩ hown hrun
  exact ⟨v, hv, fun a ha docId => (hrestricts.observe ha docId).symm⟩

end

section

open Fabriq.Document.CompactionSafety (idEngine)

def pages : Plane Nat (Finset Nat) (Finset Nat) where
  engine := idEngine
  decodes _ := true
  projection := ⟨fun state => state, fun _ => true⟩
  writes _ vals := decide (99 ∉ vals)
  quietWindow _ := 1
  snapshotEvery _ := 1

/-- The first tenant of a document is materialised again for the append of the second. -/
def materialisedAgain : List (Tenants.Action Nat) :=
  [.applyUpdate "acme" "page/1" 10 1 0, .materializeQuiet 5,
   .applyUpdate "umbrella" "page/1" 20 2 6, .materializeQuiet 10]

/-- The second tenant of a document is never materialised or compacted. -/
def neverSwept : List (Tenants.Action Nat) :=
  [.applyUpdate "umbrella" "page/1" 20 1 0, .applyUpdate "acme" "page/1" 10 2 0,
   .materializeQuiet 5, .compactDue]

/-- The snapshot of one tenant keeps the other from compacting. -/
def compactionBlocked : List (Tenants.Action Nat) :=
  [.applyUpdate "umbrella" "page/1" 20 1 0, .compact "umbrella" "page/1",
   .applyUpdate "acme" "page/1" 10 2 0, .compact "acme" "page/1"]

/-- A document whose values do not fit its row ends every sweep before the next. -/
def sweepStopped : List (Tenants.Action Nat) :=
  [.applyUpdate "umbrella" "page/0" 99 1 0, .applyUpdate "acme" "page/1" 10 2 0,
   .materializeQuiet 5]

/-- What `acme` observes of its document depends on what `umbrella` does. -/
def Interferes (trace : List (Tenants.Action Nat)) : Prop :=
  ∃ db v, run (Tenants.step pages) Database.empty trace = some db ∧
    run (Tenants.step pages) Database.empty (trace.filter fun a => !a.calledBy "umbrella") =
        some v ∧
      observe db "acme" "page/1" ≠ observe v "acme" "page/1"

def summary (seen : Observed Nat (Finset Nat) (Finset Nat)) : Option Nat × Nat × Nat × Bool :=
  (seen.entity.map EntityRow.version, seen.events.length, seen.updates.length,
    seen.snapshot.isSome)

theorem shared_document_interferes :
    Interferes materialisedAgain ∧ Interferes neverSwept ∧ Interferes compactionBlocked ∧
      Interferes sweepStopped := by
  refine ⟨⟨_, _, rfl, rfl, fun h => ?_⟩, ⟨_, _, rfl, rfl, fun h => ?_⟩,
    ⟨_, _, rfl, rfl, fun h => ?_⟩, _, _, rfl, rfl, fun h => ?_⟩
  · exact absurd (congrArg summary h) (by decide +kernel)
  · exact absurd (congrArg summary h) (by decide +kernel)
  · exact absurd (congrArg summary h) (by decide +kernel)
  · exact absurd (congrArg summary h) (by decide +kernel)

def apart : List (Tenants.Action Nat) :=
  [.applyUpdate "acme" "page/1" 10 1 0, .applyUpdate "umbrella" "page/2" 20 2 0,
   .compact "umbrella" "page/1", .materializeQuiet 5, .compactDue,
   .applyUpdate "umbrella" "page/2" 30 3 6, .materializeQuiet 10]

theorem documents_isolated_apart : ∃ db, run (Tenants.step pages) Database.empty apart = some db ∧
      summary (observe db "acme" "page/1") = (some 1, 1, 0, true) ∧
        ∃ v, run (Tenants.step pages) Database.empty
            (apart.filter fun a => !a.calledBy "umbrella") = some v ∧
          ∀ a ≠ "umbrella", ∀ docId, observe db a docId = observe v a docId := by
  exact ⟨_, rfl, by decide +kernel, documents_isolated pages _ (by decide +kernel) rfl⟩

end

end Fabriq.Document.TenantIsolation
