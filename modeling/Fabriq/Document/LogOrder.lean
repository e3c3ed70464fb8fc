import Fabriq.Document.Store
import Fabriq.Lib.Machine

/-!
What holds of the log of a document in every run: up to some seq everything has been trimmed, and
past it the log is complete.
-/

namespace Fabriq.Document.LogOrder

open Document.Store Lib.Machine List

def foldedTo {State : Type*} : Compaction State → Nat
  | .merged f | .locked f | .recounted f => f.maxSeq
  | .started | .readSnapshot _ | .finished => 0

/-- Rows up to `trimmed` may be gone from the log; past it every committed row is there, and so
will be those in flight. -/
structure Ordered {Update State : Type*} (d : Doc Update State) (trimmed : Nat) : Prop where
  trimmed_le : trimmed ≤ d.lastSeq
  floor_le : d.floor ≤ trimmed
  stored : ∀ row ∈ d.updates, trimmed < row.seq ∧ row.seq ≤ d.lastSeq
  inFlight : ∀ row ∈ d.inFlight, trimmed < row.seq ∧ row.seq ≤ d.lastSeq
  live : ∀ row ∈ d.committed, trimmed < row.seq → row ∈ d.updates
  logged : ∀ row ∈ d.updates, row ∈ d.committed
  exclusive : d.exclusiveHeld = true → d.sharedHeld = false
  compactions : ∀ c ∈ d.compactions, foldedTo c ≤ d.lastSeq

variable {Update State : Type*} {d e : Doc Update State} {k : Nat}

theorem ordered_empty : Ordered (Doc.empty : Doc Update State) 0 where
  trimmed_le := Nat.le_refl 0
  floor_le := Nat.le_refl 0
  stored := by simp [Doc.empty]
  inFlight := by simp [Doc.empty, Doc.inFlight]
  live := by simp [Doc.empty]
  logged := by simp [Doc.empty]
  exclusive := by simp [Doc.empty, Doc.exclusiveHeld]
  compactions := by simp [Doc.empty]

section

variable (h : Ordered d k)
include h

theorem Ordered.setAppends {lastSeq : Nat} {appends : List (Store.Append Update)}
    (hseq : d.lastSeq ≤ lastSeq)
    (hflight : ∀ row, .inserted row ∈ appends →
      .inserted row ∈ d.appends ∨ d.lastSeq < row.seq ∧ row.seq ≤ lastSeq)
    (hexclusive : d.exclusiveHeld → appends.any Store.Append.holdsLock = false) :
    Ordered { d with lastSeq := lastSeq, appends := appends } k where
  trimmed_le := Nat.le_trans h.trimmed_le hseq
  floor_le := h.floor_le
  stored row hrow := ⟨(h.stored row hrow).1, Nat.le_trans (h.stored row hrow).2 hseq⟩
  inFlight row hrow := by
    rcases hflight row (Doc.mem_inFlight.mp hrow) with hold | ⟨hfresh, hle⟩
    · have hbounds := h.inFlight row (Doc.mem_inFlight.mpr hold)
      exact ⟨hbounds.1, Nat.le_trans hbounds.2 hseq⟩
    · exact ⟨Nat.lt_of_le_of_lt h.trimmed_le hfresh, hle⟩
  live := h.live
  logged := h.logged
  exclusive := hexclusive
  compactions c hc := Nat.le_trans (h.compactions c hc) hseq

theorem Ordered.setCompaction {c : Nat} {next : Compaction State}
    (hlock : next.holdsLock → d.sharedHeld = false) (hfold : foldedTo next ≤ d.lastSeq) :
    Ordered { d with compactions := d.compactions.set c next } k where
  trimmed_le := h.trimmed_le
  floor_le := h.floor_le
  stored := h.stored
  inFlight := h.inFlight
  live := h.live
  logged := h.logged
  exclusive := by
    intro hheld
    obtain ⟨other, hmem, hother⟩ := any_eq_true.mp hheld
    rcases mem_or_eq_of_mem_set hmem with hold | rfl
    · exact h.exclusive (Doc.exclusiveHeld_of_mem hold hother)
    · exact hlock hother
  compactions := forall_mem_set h.compactions hfold

theorem Ordered.finish (c : Nat) :
    Ordered { d with compactions := d.compactions.set c .finished } k :=
  h.setCompaction (fun hlock => absurd hlock Bool.false_ne_true) (Nat.zero_le _)

theorem Ordered.commitAppend {i : Nat} {row : UpdateRow Update}
    (hi : d.appends[i]? = some (.inserted row)) :
    Ordered (d.appended i row) k := by
  have hmem : Store.Append.inserted row ∈ d.appends := mem_of_getElem? hi
  refine ⟨h.trimmed_le, h.floor_le,
    forall_mem_concat h.stored (h.inFlight row (Doc.mem_inFlight.mpr hmem)), ?_, ?_, ?_, ?_,
    h.compactions⟩
  · intro other hother
    rcases mem_or_eq_of_mem_set (Doc.mem_inFlight.mp hother) with hold | heq
    · exact h.inFlight other (Doc.mem_inFlight.mpr hold)
    · cases heq
  · intro other hother hseq
    rcases mem_append.mp hother with hold | hnew
    · exact mem_append_left _ (h.live other hold hseq)
    · exact mem_append_right _ hnew
  · intro other hother
    rcases mem_append.mp hother with hold | hnew
    · exact mem_append_left _ (h.logged other hold)
    · exact mem_append_right _ hnew
  · -- the append holds the shared lock, so nobody holds the exclusive one
    intro hheld
    have hshared := h.exclusive hheld
    rw [Doc.sharedHeld_of_mem hmem rfl] at hshared
    cases hshared

theorem Ordered.commitCompact {c : Nat} {f : Fold State}
    (hc : d.compactions[c]? = some (.recounted f)) (state : State) :
    Ordered (d.compacted c f state) (max k f.maxSeq) := by
  have hmem : Compaction.recounted f ∈ d.compactions := mem_of_getElem? hc
  have hshared : d.sharedHeld = false := h.exclusive (Doc.exclusiveHeld_of_mem hmem rfl)
  have hfold : f.maxSeq ≤ d.lastSeq := h.compactions _ hmem
  have hdone := h.finish c
  refine ⟨Nat.max_le.mpr ⟨h.trimmed_le, hfold⟩, Nat.le_max_right _ _, ?_, ?_, ?_, ?_,
    hdone.exclusive, hdone.compactions⟩
  · intro row hrow
    obtain ⟨hold, hpast⟩ := mem_filter.mp hrow
    have hbounds := h.stored row hold
    exact ⟨Nat.max_lt.mpr ⟨hbounds.1, of_decide_eq_true hpast⟩, hbounds.2⟩
  · intro row hrow
    change row ∈ d.inFlight at hrow
    rw [Doc.inFlight_eq_nil hshared] at hrow
    cases hrow
  · intro row hrow hpast
    obtain ⟨hk, hmax⟩ := Nat.max_lt.mp hpast
    exact mem_filter.mpr ⟨h.live row hrow hk, decide_eq_true hmax⟩
  · intro row hrow
    exact h.logged row (mem_filter.mp hrow).1

theorem Ordered.insert {i : Nat} (update : Update) (hi : d.appends[i]? = some .locked) :
    Ordered { d with
      lastSeq := d.lastSeq + 1
      appends := d.appends.set i (.inserted ⟨d.lastSeq + 1, update⟩) } k := by
  refine h.setAppends (Nat.le_succ _) ?_ ?_
  · intro row hrow
    rcases mem_or_eq_of_mem_set hrow with hold | hnew
    · exact .inl hold
    · cases hnew
      exact .inr ⟨Nat.lt_succ_self _, le_rfl⟩
  · intro hheld
    have hshared := h.exclusive hheld
    rw [Doc.sharedHeld_of_mem (mem_of_getElem? hi) rfl] at hshared
    cases hshared

theorem Ordered.appends {lastSeq : Nat} {appends : List (Store.Append Update)}
    (hseq : d.lastSeq ≤ lastSeq)
    (hflight : ∀ (n : Nat) (row : UpdateRow Update), appends[n]? = some (.inserted row) →
      d.appends[n]? = some (.inserted row))
    (hlock : appends.any Store.Append.holdsLock → d.sharedHeld = true ∨ d.exclusiveHeld = false) :
    Ordered { d with lastSeq := lastSeq, appends := appends } k := by
  refine h.setAppends hseq (fun row hrow => .inl ?_) fun hheld => ?_
  · obtain ⟨n, hn⟩ := mem_iff_getElem?.mp hrow
    exact mem_of_getElem? (hflight n row hn)
  · by_contra hany
    rcases hlock (by simpa using hany) with hshared | hfree
    · rw [h.exclusive hheld] at hshared
      cases hshared
    · rw [hheld] at hfree
      cases hfree

theorem Ordered.beginCompact : Ordered { d with compactions := d.compactions ++ [.started] } k := by
  refine ⟨h.trimmed_le, h.floor_le, h.stored, h.inFlight, h.live, h.logged,
    fun hheld => h.exclusive ?_, forall_mem_concat h.compactions (Nat.zero_le _)⟩
  simpa [Doc.exclusiveHeld, Compaction.holdsLock] using hheld

end

def issued (d : Doc Update State) : List (UpdateRow Update) :=
  d.committed ++ d.inFlight

structure Distinct (d : Doc Update State) : Prop where
  le_lastSeq : ∀ row ∈ issued d, row.seq ≤ d.lastSeq
  unique : ∀ a ∈ issued d, ∀ b ∈ issued d, a.seq = b.seq → a = b

theorem distinct_empty : Distinct (Doc.empty : Doc Update State) where
  le_lastSeq := by simp [issued, Doc.empty, Doc.inFlight]
  unique := by simp [issued, Doc.empty, Doc.inFlight]

theorem Distinct.mono (h : Distinct d) (hseq : d.lastSeq ≤ e.lastSeq)
    (hsub : ∀ row ∈ issued e, row ∈ issued d) : Distinct e where
  le_lastSeq row hrow := Nat.le_trans (h.le_lastSeq row (hsub row hrow)) hseq
  unique a ha b hb := h.unique a (hsub a ha) b (hsub b hb)

theorem Distinct.insert (h : Distinct d) (new : UpdateRow Update)
    (hseq : new.seq = d.lastSeq + 1) (hlast : e.lastSeq = d.lastSeq + 1)
    (hsub : ∀ row ∈ issued e, row ∈ issued d ∨ row = new) : Distinct e := by
  have hfresh : ∀ row ∈ issued d, row.seq ≠ new.seq := by
    intro row hrow
    have hle := h.le_lastSeq row hrow
    omega
  refine ⟨fun row hrow => ?_, fun a ha b hb hab => ?_⟩
  · rcases hsub row hrow with hold | rfl
    · have hle := h.le_lastSeq row hold
      omega
    · omega
  · rcases hsub a ha with hold | rfl
    · rcases hsub b hb with hold' | rfl
      · exact h.unique a hold b hold' hab
      · exact absurd hab (hfresh a hold)
    · rcases hsub b hb with hold' | rfl
      · exact absurd hab.symm (hfresh b hold')
      · rfl

/-- No seq is committed twice, and none that is committed or in flight is in flight elsewhere. -/
structure Once (d : Doc Update State) : Prop where
  committed : (d.committed.map UpdateRow.seq).Nodup
  pending : ∀ (n : Nat) row, d.appends[n]? = some (.inserted row) →
    ∀ old ∈ d.committed, old.seq ≠ row.seq
  apart : ∀ (m n : Nat) a b, d.appends[m]? = some (.inserted a) →
    d.appends[n]? = some (.inserted b) → a.seq = b.seq → m = n

theorem once_empty : Once (Doc.empty : Doc Update State) where
  committed := by simp [Doc.empty]
  pending := by simp [Doc.empty]
  apart := by simp [Doc.empty]

theorem Once.mono (h : Once d) (hcommitted : e.committed = d.committed)
    (hflight : ∀ (n : Nat) row, e.appends[n]? = some (.inserted row) →
      d.appends[n]? = some (.inserted row)) : Once e where
  committed := hcommitted ▸ h.committed
  pending n row hn := hcommitted ▸ h.pending n row (hflight n row hn)
  apart m n a b hm hn := h.apart m n a b (hflight m a hm) (hflight n b hn)

theorem Once.insert (h : Once d) (hdistinct : Distinct d) (i : Nat) (update : Update) :
    Once { d with
      lastSeq := d.lastSeq + 1
      appends := d.appends.set i (.inserted ⟨d.lastSeq + 1, update⟩) } := by
  have hcases : ∀ (n : Nat) row,
      (d.appends.set i (.inserted ⟨d.lastSeq + 1, update⟩))[n]? = some (.inserted row) →
        n = i ∧ row.seq = d.lastSeq + 1 ∨
          n ≠ i ∧ d.appends[n]? = some (.inserted row) ∧ row.seq ≤ d.lastSeq := by
    intro n row hn
    rw [getElem?_set] at hn
    split at hn
    · split at hn
      · cases hn
        exact .inl ⟨Eq.symm ‹_›, rfl⟩
      · cases hn
    · have hmem := mem_append_right d.committed (Doc.mem_inFlight.mpr (mem_of_getElem? hn))
      exact .inr ⟨Ne.symm ‹_›, hn, hdistinct.le_lastSeq row hmem⟩
  refine ⟨h.committed, fun n row hn old hold => ?_, fun m n a b hm hn hab => ?_⟩
  · rcases hcases n row hn with ⟨-, hseq⟩ | ⟨-, hn, -⟩
    · have hle := hdistinct.le_lastSeq old (mem_append_left _ hold)
      omega
    · exact h.pending n row hn old hold
  · rcases hcases m a hm with ⟨rfl, ha⟩ | ⟨-, hm, ha⟩
    · rcases hcases n b hn with ⟨rfl, -⟩ | ⟨-, -, hb⟩
      · rfl
      · omega
    · rcases hcases n b hn with ⟨-, hb⟩ | ⟨-, hn, -⟩
      · omega
      · exact h.apart m n a b hm hn hab

theorem Once.commitAppend (h : Once d) {i : Nat} {row : UpdateRow Update}
    (hi : d.appends[i]? = some (.inserted row)) : Once (d.appended i row) := by
  refine ⟨?_, fun n other hn old hold => ?_, fun m n a b hm hn =>
    h.apart m n a b (inserted_of_set hm) (inserted_of_set hn)⟩
  · change ((d.committed ++ [row]).map UpdateRow.seq).Nodup
    rw [map_append, map_singleton]
    refine nodup_append.mpr ⟨h.committed, nodup_singleton _, ?_⟩
    intro seq hseq _ hrow
    obtain ⟨old, hold, rfl⟩ := mem_map.mp hseq
    rw [mem_singleton.mp hrow]
    exact h.pending i row hi old hold
  · rcases mem_append.mp hold with hold | hnew
    · exact h.pending n other (inserted_of_set hn) old hold
    · -- the row that is committed has left the appends
      rw [mem_singleton.mp hnew]
      intro hseq
      obtain rfl := h.apart i n row other hi (inserted_of_set hn) hseq
      change (d.appends.set i .finished)[i]? = some (.inserted other) at hn
      rw [getElem?_set, if_pos rfl] at hn
      split at hn <;> cases hn

section

variable [SemilatticeSup State] [OrderBot State] {engine : MergeEngine Update State}

theorem step_commitAppend {i : Nat} (hstep : step engine d (.commitAppend i) = some e) :
    ∃ row, d.appends[i]? = some (.inserted row) ∧ e = d.appended i row := by
  simp only [step] at hstep
  split at hstep
  · rename_i row hi
    exact ⟨row, hi, (Option.some.inj hstep).symm⟩
  · cases hstep

theorem step_committed {a : Action Update} (ha : ∀ i, a ≠ .commitAppend i)
    (hstep : step engine d a = some e) : e.committed = d.committed := by
  cases step_effect engine hstep with
  | commitAppend => exact absurd rfl (ha _)
  | commitCompact | appends | insert | beginCompact | compaction | finish => rfl

theorem Ordered.maxSeq_mergedState_le (h : Ordered d k) (snap : Option (SnapshotRow State)) :
    (mergedState engine snap d.updates).maxSeq ≤ d.lastSeq :=
  lastRowSeq_le (Nat.zero_le _) fun row hrow => (h.stored row (mem_rowsAfter.mp hrow).1).2

theorem Ordered.compaction (h : Ordered d k) {a : Action Update} {c : Nat}
    {old next : Compaction State} (hc : d.compactions[c]? = some old)
    (hmoves : Moves engine d c a old next) :
    Ordered { d with compactions := d.compactions.set c next } k := by
  have hmem := mem_of_getElem? hc
  have hold := h.compactions old hmem
  cases hmoves with
  | readSnapshot =>
    exact h.setCompaction (fun hlock => absurd hlock Bool.false_ne_true) (Nat.zero_le _)
  | readLog =>
    exact h.setCompaction (fun hlock => absurd hlock Bool.false_ne_true) (h.maxSeq_mergedState_le _)
  | lock hfree => exact h.setCompaction (fun _ => hfree) hold
  | recount =>
    exact h.setCompaction (fun _ => h.exclusive (Doc.exclusiveHeld_of_mem hmem rfl)) hold

theorem Ordered.step (h : Ordered d k) {a : Action Update}
    (hstep : Store.step engine d a = some e) : ∃ j, k ≤ j ∧ Ordered e j := by
  cases step_effect engine hstep with
  | appends _ hseq hflight hlock => exact ⟨k, le_rfl, h.appends hseq hflight hlock⟩
  | insert hi => exact ⟨k, le_rfl, h.insert _ hi⟩
  | commitAppend hi => exact ⟨k, le_rfl, h.commitAppend hi⟩
  | beginCompact => exact ⟨k, le_rfl, h.beginCompact⟩
  | compaction _ hc hmoves => exact ⟨k, le_rfl, h.compaction hc hmoves⟩
  | finish c => exact ⟨k, le_rfl, h.finish c⟩
  | commitCompact hc => exact ⟨_, Nat.le_max_left _ _, h.commitCompact hc _⟩

theorem Distinct.step (h : Distinct d) {a : Action Update}
    (hstep : Store.step engine d a = some e) : Distinct e := by
  obtain ⟨hseq, hcommit, -⟩ := step_history engine hstep
  have hold : ∀ row ∈ e.committed, row ∈ issued d :=
    fun row hrow => mem_append.mpr (hcommit row hrow)
  cases step_effect engine hstep with
  | @insert i update =>
    refine h.insert ⟨d.lastSeq + 1, update⟩ rfl rfl fun row hrow => ?_
    rcases mem_append.mp hrow with hrow | hrow
    · exact .inl (hold row hrow)
    · rcases mem_or_eq_of_mem_set (Doc.mem_inFlight.mp hrow) with hmem | hnew
      · exact .inl (mem_append_right _ (Doc.mem_inFlight.mpr hmem))
      · cases hnew
        exact .inr rfl
  | appends _ _ hflight =>
    refine h.mono hseq fun row hrow => ?_
    rcases mem_append.mp hrow with hrow | hrow
    · exact hold row hrow
    · obtain ⟨n, hn⟩ := mem_iff_getElem?.mp (Doc.mem_inFlight.mp hrow)
      exact mem_append_right _ (Doc.mem_inFlight.mpr (mem_of_getElem? (hflight n row hn)))
  | commitAppend =>
    refine h.mono hseq fun row hrow => ?_
    rcases mem_append.mp hrow with hrow | hrow
    · exact hold row hrow
    · obtain ⟨n, hn⟩ := mem_iff_getElem?.mp (Doc.mem_inFlight.mp hrow)
      exact mem_append_right _ (Doc.mem_inFlight.mpr (mem_of_getElem? (inserted_of_set hn)))
  | beginCompact | compaction | finish | commitCompact => exact h.mono hseq fun _ hrow => hrow

theorem Once.step (h : Once d) (hdistinct : Distinct d) {a : Action Update}
    (hstep : Store.step engine d a = some e) : Once e := by
  cases step_effect engine hstep with
  | insert => exact h.insert hdistinct _ _
  | appends _ _ hflight => exact h.mono rfl hflight
  | commitAppend hi => exact h.commitAppend hi
  | beginCompact | compaction | finish | commitCompact => exact h.mono rfl fun _ _ hn => hn

end

end Fabriq.Document.LogOrder
