import Mathlib.Data.Finset.Lattice.Lemmas
import Fabriq.Document.LogOrder

/-!
No committed update is lost by compaction, unless one commits over a snapshot watermark that
moved after its fold read the log.
-/

namespace Fabriq.Document.CompactionSafety

open Document.LogOrder Document.Store Lib.Machine List

section

variable {Update State : Type*} [SemilatticeSup State] [OrderBot State]

/-- Every committed update is a log row past the snapshot, or has been folded
into the stored snapshot. -/
def NoUpdateLost (engine : MergeEngine Update State) (d : Doc Update State) : Prop :=
  ∀ row ∈ d.committed,
    (row ∈ d.updates ∧ d.floor < row.seq) ∨
      engine.changes row.updateData ≤ snapshotState d.snapshot

/-- A compaction that is about to write still sees the watermark its fold
started from. -/
def floorUnmoved (d : Doc Update State) : Action Update → Bool
  | .commitCompact c =>
    match d.compactions[c]? with
    | some (.recounted f) => f.since == d.floor
    | _ => true
  | _ => true

end

def idEngine : MergeEngine Nat (Finset Nat) where
  changes update := {update}
  compact state := state
  changes_le_compact := fun _ _ h => h

/-- Two compactions fold different sets of the same size: after seq 2 commits the first moves
the watermark to 1, and the rows between 1 and 3 are again two. -/
def racingCompactions : List (Action Nat) :=
  [.beginAppend, .insert 0 10, .commitAppend 0,
   .beginCompact, .readSnapshot 0, .readLog 0,
   .beginAppend, .insert 1 20, .beginAppend, .insert 2 30, .commitAppend 2,
   .beginCompact, .readSnapshot 1, .readLog 1,
   .commitAppend 1,
   .lockCompact 0, .recount 0, .commitCompact 0,
   .lockCompact 1, .recount 1, .commitCompact 1]

theorem racingCompactions_lose_update :
    ∃ d, run (step idEngine) Doc.empty racingCompactions = some d ∧ ¬ NoUpdateLost idEngine d := by
  refine ⟨_, rfl, fun hkept => ?_⟩
  exact absurd (hkept ⟨2, 20⟩ (by decide)) (by decide)

section

variable {Update State : Type*} [SemilatticeSup State] [OrderBot State]
  {engine : MergeEngine Update State} {d e : Doc Update State}

/-- What a finished fold knows about the log, provided no compaction has moved
the watermark since it read it. -/
structure FoldOk (engine : MergeEngine Update State) (d : Doc Update State)
    (f : Fold State) : Prop where
  maxSeq_le : f.maxSeq ≤ d.lastSeq
  since_lt : f.since < f.maxSeq
  since_le : f.since ≤ d.floor
  absorbed : f.since = d.floor →
    snapshotState d.snapshot ≤ f.state ∧
      ∃ rows : List (UpdateRow Update),
        rows.Sublist (rowsIn d.updates f.since f.maxSeq) ∧
          rows.length = f.folded ∧
            ∀ row ∈ rows, engine.changes row.updateData ≤ f.state

def CompactionOk (engine : MergeEngine Update State) (d : Doc Update State) :
    Compaction State → Prop
  | .started | .finished => True
  | .readSnapshot snap =>
    snapshotSeq snap ≤ d.floor ∧ (snapshotSeq snap = d.floor → snap = d.snapshot)
  | .merged f | .locked f => FoldOk engine d f
  | .recounted f =>
    FoldOk engine d f ∧
      (f.since = d.floor → (rowsIn d.updates f.since f.maxSeq).length = f.folded)

structure Inv (engine : MergeEngine Update State) (d : Doc Update State) : Prop where
  ordered : Ordered d d.floor
  folded : ∀ row ∈ d.committed, row.seq ≤ d.floor →
    engine.changes row.updateData ≤ snapshotState d.snapshot
  compactions : ∀ c ∈ d.compactions, CompactionOk engine d c

theorem Inv.noUpdateLost (h : Inv engine d) : NoUpdateLost engine d := by
  intro row hrow
  rcases Nat.lt_or_ge d.floor row.seq with hseq | hseq
  · exact .inl ⟨h.ordered.live row hrow hseq, hseq⟩
  · exact .inr (h.folded row hrow hseq)

theorem inv_empty : Inv engine Doc.empty where
  ordered := ordered_empty
  folded := by simp [Doc.empty]
  compactions := by simp [Doc.empty]

variable {c : Compaction State} {f : Fold State}

theorem FoldOk.mono (h : FoldOk engine d f)
    (hseq : d.lastSeq ≤ e.lastSeq) (hsnap : e.snapshot = d.snapshot)
    (hlog : d.updates.Sublist e.updates) : FoldOk engine e f := by
  have hfloor : e.floor = d.floor := congrArg snapshotSeq hsnap
  refine ⟨h.maxSeq_le.trans hseq, h.since_lt, hfloor ▸ h.since_le, ?_⟩
  intro hsince
  obtain ⟨hstate, rows, hsub, hlen, habs⟩ := h.absorbed (hsince.trans hfloor)
  exact ⟨hsnap ▸ hstate, rows, hsub.trans (hlog.filter _), hlen, habs⟩

theorem FoldOk.of_floor_lt (h : FoldOk engine d f)
    (hseq : d.lastSeq ≤ e.lastSeq) (hfloor : d.floor < e.floor) : FoldOk engine e f := by
  refine ⟨h.maxSeq_le.trans hseq, h.since_lt, h.since_le.trans hfloor.le, ?_⟩
  intro hsince
  have hle := h.since_le
  omega

theorem CompactionOk.mono (h : CompactionOk engine d c)
    (hseq : d.lastSeq ≤ e.lastSeq) (hsnap : e.snapshot = d.snapshot)
    (hlog : d.updates.Sublist e.updates)
    (hheld : c.holdsLock → e.updates = d.updates) : CompactionOk engine e c := by
  have hfloor : e.floor = d.floor := congrArg snapshotSeq hsnap
  cases c with
  | started | finished => trivial
  | readSnapshot snap =>
    simp only [CompactionOk] at h ⊢
    rw [hfloor, hsnap]
    exact h
  | merged f | locked f => exact FoldOk.mono h hseq hsnap hlog
  | recounted f =>
    refine ⟨h.1.mono hseq hsnap hlog, ?_⟩
    rw [hfloor, hheld rfl]
    exact h.2

theorem CompactionOk.of_floor_lt (h : CompactionOk engine d c)
    (hseq : d.lastSeq ≤ e.lastSeq) (hfloor : d.floor < e.floor) : CompactionOk engine e c := by
  cases c with
  | started | finished => trivial
  | readSnapshot snap =>
    have hle : snapshotSeq snap ≤ d.floor := h.1
    refine ⟨hle.trans hfloor.le, ?_⟩
    intro hsince
    omega
  | merged f | locked f => exact FoldOk.of_floor_lt h hseq hfloor
  | recounted f =>
    refine ⟨h.1.of_floor_lt hseq hfloor, ?_⟩
    intro hsince
    have hle := h.1.since_le
    omega

section

variable (hinv : Inv engine d)
include hinv

theorem foldOk_mergedState {snap : Option (SnapshotRow State)}
    (hsnap : CompactionOk engine d (.readSnapshot snap))
    (hmax : (mergedState engine snap d.updates).maxSeq ≠ 0) :
    FoldOk engine d (mergedState engine snap d.updates) := by
  have hrows : rowsAfter d.updates (snapshotSeq snap) ≠ [] := by
    intro hnil
    simp [mergedState, hnil, lastRowSeq] at hmax
  obtain ⟨row, hmem, hlast⟩ := lastRowSeq_mem hrows 0
  obtain ⟨hlog, hsince⟩ := mem_rowsAfter.mp hmem
  refine ⟨?_, ?_, hsnap.1, ?_⟩
  · simpa [mergedState, ← hlast] using (hinv.ordered.stored row hlog).2
  · simpa [mergedState, ← hlast] using hsince
  · intro hfloor
    obtain ⟨hstate, habs⟩ := le_foldl_fold engine
      (rowsAfter d.updates (snapshotSeq snap)) (snapshotState snap)
    refine ⟨by simpa [mergedState, hsnap.2 hfloor] using hstate, ?_⟩
    refine ⟨d.updates.filter fun row => snapshotSeq snap < row.seq, ?_, ?_, ?_⟩
    · -- every row past the watermark is also at most `maxSeq`
      have hrange : (d.updates.filter fun row => snapshotSeq snap < row.seq) =
          rowsIn d.updates (snapshotSeq snap) (mergedState engine snap d.updates).maxSeq := by
        apply filter_congr
        intro other hother
        by_cases hpast : snapshotSeq snap < other.seq
        · have hle : _ ≤ lastRowSeq (rowsAfter _ _) 0 :=
            seq_le_lastRowSeq 0 (pairwise_sorted _) (mem_rowsAfter.mpr ⟨hother, hpast⟩)
          simp [hpast, mergedState, hle]
        · simp [hpast]
      exact hrange ▸ List.Sublist.refl _
    · simp [mergedState, rowsAfter]
    · intro other hother
      apply habs other
      rw [mem_rowsAfter]
      simpa using hother

theorem Inv.frame (hordered : Ordered e d.floor)
    (hseq : d.lastSeq ≤ e.lastSeq) (hupdates : e.updates = d.updates)
    (hsnap : e.snapshot = d.snapshot) (hcommit : e.committed = d.committed)
    (hcomps : ∀ c ∈ e.compactions, c ∈ d.compactions ∨ CompactionOk engine e c) :
    Inv engine e := by
  have hfloor : e.floor = d.floor := congrArg snapshotSeq hsnap
  refine ⟨hfloor.symm ▸ hordered, ?_, fun c hc => ?_⟩
  · rw [hcommit, hfloor, hsnap]
    exact hinv.folded
  · rcases hcomps c hc with hold | hnew
    · exact (hinv.compactions c hold).mono hseq hsnap (hupdates ▸ List.Sublist.refl _)
        fun _ => hupdates
    · exact hnew

theorem Inv.setCompaction {c : Nat} {next : Compaction State}
    (hordered : Ordered { d with compactions := d.compactions.set c next } d.floor)
    (hok : CompactionOk engine d next) :
    Inv engine { d with compactions := d.compactions.set c next } := by
  refine hinv.frame hordered le_rfl rfl rfl rfl (forall_mem_set (fun _ => .inl) (.inr ?_))
  exact hok.mono le_rfl rfl (List.Sublist.refl _) fun _ => rfl

theorem inv_commitAppend {i : Nat} {row : UpdateRow Update}
    (hi : d.appends[i]? = some (.inserted row)) : Inv engine (d.appended i row) := by
  have hmem : Append.inserted row ∈ d.appends := mem_of_getElem? hi
  have hrow := hinv.ordered.inFlight row (Doc.mem_inFlight.mpr hmem)
  refine ⟨hinv.ordered.commitAppend hi, fun other hother hseq => ?_, fun c hc => ?_⟩
  · rcases mem_append.mp hother with hold | hnew
    · exact hinv.folded other hold hseq
    · -- the new row is past the watermark
      rw [mem_singleton.mp hnew] at hseq
      exact absurd hrow.1 (Nat.not_lt.mpr hseq)
  · refine (hinv.compactions c hc).mono le_rfl rfl (sublist_append_left _ _) fun hlock => ?_
    have hshared := hinv.ordered.exclusive (Doc.exclusiveHeld_of_mem hc hlock)
    simp [Doc.sharedHeld_of_mem hmem rfl] at hshared

theorem inv_commitCompact {c : Nat} {f : Fold State}
    (hc : d.compactions[c]? = some (.recounted f)) (hfloor : f.since = d.floor) :
    Inv engine (d.compacted c f (engine.compact f.state)) := by
  obtain ⟨hfold, hcount⟩ := hinv.compactions _ (mem_of_getElem? hc)
  obtain ⟨hstate, rows, hsub, hlen, habs⟩ := hfold.absorbed hfloor
  have hrows : rows = rowsIn d.updates f.since f.maxSeq :=
    hsub.eq_of_length (hlen.trans (hcount hfloor).symm)
  have hmoved : d.floor < f.maxSeq := hfloor ▸ hfold.since_lt
  have hordered := hinv.ordered.commitCompact hc (engine.compact f.state)
  rw [Nat.max_eq_right hmoved.le] at hordered
  refine ⟨hordered, fun row hrow hle => ?_, fun other hother => ?_⟩
  · change row.seq ≤ f.maxSeq at hle
    apply engine.changes_le_compact
    rcases Nat.lt_or_ge d.floor row.seq with hseq | hseq
    · apply habs row
      rw [hrows, mem_rowsIn]
      exact ⟨hinv.ordered.live row hrow hseq, hfloor ▸ hseq, hle⟩
    · exact (hinv.folded row hrow hseq).trans hstate
  · rcases mem_or_eq_of_mem_set hother with hold | rfl
    · exact (hinv.compactions other hold).of_floor_lt le_rfl hmoved
    · trivial

theorem inv_beginCompact :
    Inv engine { d with compactions := d.compactions ++ [.started] } :=
  hinv.frame hinv.ordered.beginCompact le_rfl rfl rfl rfl
    (forall_mem_concat (fun _ => .inl) (.inr trivial))

theorem compactionOk_moves {a : Action Update} {c : Nat}
    {old next : Compaction State} (hold : CompactionOk engine d old)
    (hmoves : Moves engine d c a old next) : CompactionOk engine d next := by
  cases hmoves with
  | readSnapshot => exact ⟨le_rfl, fun _ => rfl⟩
  | readLog hmax => exact foldOk_mergedState hinv hold hmax
  | lock => exact hold
  | recount hcount =>
    refine ⟨hold, fun hfloor => ?_⟩
    rw [hfloor]
    exact hcount

theorem inv_step {a : Action Update} (hok : floorUnmoved d a)
    (hstep : step engine d a = some e) : Inv engine e := by
  cases step_effect engine hstep with
  | appends _ hseq hflight hlock =>
    exact hinv.frame (hinv.ordered.appends hseq hflight hlock) hseq rfl rfl rfl fun _ => .inl
  | insert hi =>
    exact hinv.frame (hinv.ordered.insert _ hi) (Nat.le_succ _) rfl rfl rfl fun _ => .inl
  | commitAppend hi => exact inv_commitAppend hinv hi
  | beginCompact => exact inv_beginCompact hinv
  | compaction _ hc hmoves =>
    exact hinv.setCompaction (hinv.ordered.compaction hc hmoves)
      (compactionOk_moves hinv (hinv.compactions _ (mem_of_getElem? hc)) hmoves)
  | finish c => exact hinv.setCompaction (hinv.ordered.finish c) trivial
  | commitCompact hc =>
    apply inv_commitCompact hinv hc
    simpa [floorUnmoved, hc] using hok

end

/-- In every run in which no compaction writes over a moved watermark, no committed update is
lost. -/
theorem noUpdateLost_of_floorUnmoved (engine : MergeEngine Update State)
    (trace : List (Action Update)) (d : Doc Update State)
    (hok : Along (step engine) (fun d a => floorUnmoved d a) Doc.empty trace)
    (hrun : run (step engine) Doc.empty trace = some d) : NoUpdateLost engine d :=
  (run_invariant (fun _ _ _ h => inv_step h)
    inv_empty hok hrun).noUpdateLost

end

def compactionBetweenAppends : List (Action Nat) :=
  [.beginAppend, .insert 0 10, .commitAppend 0,
   .beginCompact, .readSnapshot 0, .readLog 0, .lockCompact 0, .recount 0, .commitCompact 0,
   .beginAppend, .insert 1 20, .commitAppend 1]

theorem noUpdateLost_compactionBetweenAppends :
    ∃ d, run (step idEngine) Doc.empty compactionBetweenAppends = some d ∧
      d.committed.length = 2 ∧ NoUpdateLost idEngine d := by
  exact ⟨_, rfl, by decide, noUpdateLost_of_floorUnmoved idEngine compactionBetweenAppends _
    (by decide) rfl⟩

end Fabriq.Document.CompactionSafety
