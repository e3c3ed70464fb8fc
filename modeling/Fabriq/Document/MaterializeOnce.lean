import Fabriq.Document.CompactionSafety
import Fabriq.Document.Materialize
import Fabriq.Lib.Exclusive

/-!
A materialisation whose fold has read rows, and during which nothing was appended, is the last
one until the next append.
-/

namespace Fabriq.Document.MaterializeOnce

open Document.Store Document.LogOrder Document.Materialize Lib.Exclusive Lib.Machine List Option

section

variable {Update State Vals : Type*} {w w' : World Update State Vals}

/-- The passes follow one another: the elected worker scans when its last pass is over. -/
def Serial (w : World Update State Vals) : Materialize.Action Update → Prop
  | .scan => ∀ pass ∈ w.passes, pass.busy = false
  | _ => True

instance : (a : Materialize.Action Update) → Decidable (Serial w a)
  | .scan => inferInstanceAs (Decidable (∀ pass ∈ w.passes, pass.busy = false))
  | .doc _ | .readSnapshot _ | .readLog _ | .flag _ | .lock _ | .recount _ | .commit _
  | .abandon _ => isTrue trivial

def Holds (passes : List (Pass State)) (i : Nat) (f : Fold State) : Prop :=
  passes[i]? = some (.merged f) ∨ passes[i]? = some (.locked f) ∨
    passes[i]? = some (.recounted f) ∨ passes[i]? = some .finished

variable {f : Fold State} {i : Nat}

theorem Holds.scan {passes : List (Pass State)}
    (h : Holds passes i f) : Holds (passes ++ [.scanned]) i f := by
  have hkeep : ∀ pass, passes[i]? = some pass → (passes ++ [.scanned])[i]? = some pass := by
    intro pass hpass
    rw [List.getElem?_append_left (List.getElem?_eq_some_iff.mp hpass).1, hpass]
  exact h.imp (hkeep _) (.imp (hkeep _) (.imp (hkeep _) (hkeep _)))

structure Inv (w : World Update State Vals) : Prop where
  log : ∃ k, Ordered w.doc k ∧ ∀ snap, .readSnapshot snap ∈ w.passes → snapshotSeq snap ≤ k
  le_lastSeq : ∀ row ∈ w.doc.committed, row.seq ≤ w.lastSeq
  reached : 0 < w.lastSeq → ∃ row ∈ w.doc.committed, row.seq = w.lastSeq

theorem inv_empty : Inv (World.empty : World Update State Vals) where
  log := ⟨0, ordered_empty, fun _ h => absurd h not_mem_nil⟩
  le_lastSeq := fun _ h => absurd h not_mem_nil
  reached := fun h => absurd h (Nat.lt_irrefl 0)

theorem Inv.pass (h : Inv w) (hdoc : w'.doc = w.doc) (hseq : w'.lastSeq = w.lastSeq)
    (hsnap : ∀ snap, .readSnapshot snap ∈ w'.passes →
      .readSnapshot snap ∈ w.passes ∨ snap = w.doc.snapshot) : Inv w' := by
  obtain ⟨k, hlog, hpasses⟩ := h.log
  refine ⟨⟨k, hdoc ▸ hlog, ?_⟩, ?_, ?_⟩
  · intro snap hmem
    rcases hsnap snap hmem with hold | rfl
    · exact hpasses snap hold
    · exact hlog.floor_le
  · rw [hdoc, hseq]
    exact h.le_lastSeq
  · rw [hdoc, hseq]
    exact h.reached

variable [SemilatticeSup State] [OrderBot State] {engine : MergeEngine Update State}
  {a : Materialize.Action Update}
  {proj : Projection State Vals}

theorem Inv.doc (h : Inv w) {a : Store.Action Update} {d : Doc Update State}
    (hstep : Store.step engine w.doc a = some d) :
    Inv { w with doc := d, lastSeq := lastSeqAfter w a } := by
  obtain ⟨k, hlog, hpasses⟩ := h.log
  obtain ⟨j, hkj, hlog'⟩ := hlog.step hstep
  have hlog'' : ∃ k, Ordered d k ∧ ∀ snap, .readSnapshot snap ∈ w.passes → snapshotSeq snap ≤ k :=
    ⟨j, hlog', fun snap hmem => Nat.le_trans (hpasses snap hmem) hkj⟩
  by_cases happend : ∃ i, a = .commitAppend i
  · obtain ⟨i, rfl⟩ := happend
    obtain ⟨row, hi, rfl⟩ := step_commitAppend hstep
    simp only [lastSeqAfter, hi]
    refine ⟨hlog'', forall_mem_concat (fun other hold => ?_) (Nat.le_max_right _ _),
      fun hpos => ?_⟩
    · exact Nat.le_trans (h.le_lastSeq other hold) (Nat.le_max_left _ _)
    · rcases Nat.le_total w.lastSeq row.seq with hle | hle
      · exact ⟨row, mem_append_right _ (mem_singleton_self row), (Nat.max_eq_right hle).symm⟩
      · simp only [Nat.max_eq_left hle] at hpos ⊢
        obtain ⟨top, hmem, htop⟩ := h.reached hpos
        exact ⟨top, mem_append_left _ hmem, htop⟩
  · have hother : ∀ i, a ≠ .commitAppend i := fun i hi => happend ⟨i, hi⟩
    have hcommit : d.committed = w.doc.committed := step_committed hother hstep
    rw [lastSeqAfter_other hother]
    refine ⟨hlog'', ?_, ?_⟩
    · rw [hcommit]
      exact h.le_lastSeq
    · rw [hcommit]
      exact h.reached

theorem inv_step (h : Inv w)
    (hstep : Materialize.step engine proj w a = some w') : Inv w' := by
  cases step_effect engine proj hstep with
  | doc hd => exact h.doc hd
  | scan =>
    refine h.pass rfl rfl fun snap hmem => .inl ?_
    simpa using hmem
  | pass _ hmoves =>
    refine h.pass rfl rfl fun snap hmem => ?_
    rcases mem_or_eq_of_mem_set hmem with hold | rfl
    · exact .inl hold
    · cases hmoves
      exact .inr rfl
  | commit =>
    refine h.pass rfl rfl fun snap hmem => .inl ?_
    rcases mem_or_eq_of_mem_set hmem with hold | hnew
    · exact hold
    · cases hnew

theorem oneBusy_step (h : OneBusy Pass.busy w.passes)
    (hserial : Serial w a)
    (hstep : Materialize.step engine proj w a = some w') : OneBusy Pass.busy w'.passes := by
  cases step_effect engine proj hstep with
  | doc => exact h
  | scan => exact oneBusy_concat hserial _
  | pass hi hmoves => exact h.set fun hbusy => ⟨_, hi, hmoves.busy hbusy⟩
  | commit hi => exact h.set fun hbusy => absurd hbusy Bool.false_ne_true

theorem Inv.maxSeq_mergedState (h : Inv w) {snap : Option (SnapshotRow State)}
    (hsnap : .readSnapshot snap ∈ w.passes)
    (hfolded : (mergedState engine snap w.doc.updates).folded ≠ 0) :
    (mergedState engine snap w.doc.updates).maxSeq = w.lastSeq := by
  obtain ⟨k, hlog, hpasses⟩ := h.log
  have hrows : rowsAfter w.doc.updates (snapshotSeq snap) ≠ [] :=
    fun hnil => hfolded (congrArg List.length hnil)
  obtain ⟨row, hrow, hmax⟩ := lastRowSeq_mem hrows 0
  have hstored : row ∈ w.doc.updates := (mem_rowsAfter.mp hrow).1
  have hle : row.seq ≤ w.lastSeq := h.le_lastSeq row (hlog.logged row hstored)
  have hpast : k < row.seq := (hlog.stored row hstored).1
  obtain ⟨top, htop, hseq⟩ := h.reached (Nat.lt_of_lt_of_le (Nat.zero_lt_of_lt hpast) hle)
  have htopPast : k < top.seq := hseq ▸ Nat.lt_of_lt_of_le hpast hle
  have htopRow : top ∈ rowsAfter w.doc.updates (snapshotSeq snap) :=
    mem_rowsAfter.mpr ⟨hlog.live top htop htopPast,
      Nat.lt_of_le_of_lt (hpasses snap hsnap) htopPast⟩
  have hge : top.seq ≤ lastRowSeq (rowsAfter w.doc.updates (snapshotSeq snap)) 0 :=
    seq_le_lastRowSeq 0 (pairwise_sorted _) htopRow
  exact Nat.le_antisymm (Nat.le_trans (Nat.le_of_eq hmax.symm) hle) (hseq ▸ hge)

theorem Holds.set {j : Nat} {old next : Pass State}
    (h : Holds w.passes i f) (hj : w.passes[j]? = some old) (hmoves : Moves engine w old next) :
    Holds (w.passes.set j next) i f := by
  simp only [Holds, List.getElem?_set]
  split
  · rename_i hji
    subst hji
    rw [Holds, hj] at h
    have hlt : j < w.passes.length := (List.getElem?_eq_some_iff.mp hj).1
    simp only [hlt, if_true, Option.some.injEq] at h ⊢
    cases hmoves with
    | finish => exact .inr (.inr (.inr rfl))
    | _ => simp_all
  · exact h

def Covers (w : World Update State Vals) (i : Nat) (f : Fold State) : Prop :=
  w.lastSeq = f.maxSeq ∧ Holds w.passes i f

theorem covers_step (h : Covers w i f)
    (hquiet : appends a = false) (hstep : Materialize.step engine proj w a = some w') :
    Covers w' i f := by
  cases step_effect engine proj hstep with
  | doc => exact ⟨(lastSeq_doc hquiet).trans h.1, h.2⟩
  | scan => exact ⟨h.1, h.2.scan⟩
  | pass hj hmoves => exact ⟨h.1, h.2.set hj hmoves⟩
  | commit hj => exact ⟨h.1, h.2.set hj (.finish _ : Moves engine w _ _)⟩

theorem covers_run (h : Covers w i f)
    {trace : List (Materialize.Action Update)} (hquiet : ∀ a ∈ trace, appends a = false)
    (hrun : run (Materialize.step engine proj) w trace = some w') : Covers w' i f := by
  exact run_invariant (fun _ _ _ => covers_step) h (along_of_forall hquiet) hrun

structure Settled (w : World Update State Vals) : Prop where
  materialized : w.lastSeqMaterialized = w.lastSeq
  idle : ∀ pass ∈ w.passes, pass.busy = false

theorem settled_commit (hcovers : Covers w i f) (halone : OneBusy Pass.busy w.passes)
    (hstep : Materialize.step engine proj w (.commit i) = some w') : Settled w' := by
  simp only [Materialize.step] at hstep
  split at hstep
  · rename_i g hi
    cases hstep
    obtain ⟨hseq, hpass⟩ := hcovers
    have hfold : g = f := by simpa [Holds, hi] using hpass
    exact ⟨(hfold ▸ hseq).symm, halone.idle_set hi rfl rfl⟩
  · cases hstep

theorem settled_step (h : Settled w) (hquiet : appends a = false)
    (hstep : Materialize.step engine proj w a = some w') :
    Settled w' ∧ w'.entity = w.entity ∧ w'.events = w.events := by
  cases step_effect engine proj hstep with
  | doc => exact ⟨⟨h.materialized.trans (lastSeq_doc hquiet).symm, h.idle⟩, rfl, rfl⟩
  | scan hdue => exact absurd h.materialized (Nat.ne_of_lt hdue)
  | pass hi hmoves =>
    refine ⟨⟨h.materialized, fun pass hmem => ?_⟩, rfl, rfl⟩
    rcases mem_or_eq_of_mem_set hmem with hold | rfl
    · exact h.idle pass hold
    · by_contra hbusy
      have hidle := h.idle _ (mem_of_getElem? hi)
      rw [hmoves.busy (by simpa using hbusy)] at hidle
      cases hidle
  | commit hi =>
    have hidle := h.idle _ (mem_of_getElem? hi)
    cases hidle

theorem settled_run (h : Settled w) {trace : List (Materialize.Action Update)}
    (hquiet : ∀ a ∈ trace, appends a = false)
    (hrun : run (Materialize.step engine proj) w trace = some w') :
    w'.entity = w.entity ∧ w'.events = w.events := by
  have hkeep : ∀ (v : World Update State Vals) a v',
      (Settled v ∧ v.entity = w.entity ∧ v.events = w.events) → appends a = false →
        Materialize.step engine proj v a = some v' →
          Settled v' ∧ v'.entity = w.entity ∧ v'.events = w.events := by
    rintro v a v' ⟨h, hentity, hevents⟩ hquiet hstep
    obtain ⟨h', hentity', hevents'⟩ := settled_step h hquiet hstep
    exact ⟨h', hentity'.trans hentity, hevents'.trans hevents⟩
  exact (run_invariant hkeep ⟨h, rfl, rfl⟩ (along_of_forall hquiet) hrun).2

/-- When the pass reads the log, rows past the snapshot it has read are there. -/
def readsRows (w : World Update State Vals) (i : Nat) : Bool :=
  match w.passes[i]? with
  | some (.readSnapshot snap) => !(rowsAfter w.doc.updates (snapshotSeq snap)).isEmpty
  | _ => false

theorem covers_readLog (h : Inv w) (hrows : readsRows w i)
    (hstep : Materialize.step engine proj w (.readLog i) = some w') : ∃ f, Covers w' i f := by
  simp only [Materialize.step] at hstep
  split at hstep
  · rename_i snap hi
    cases hstep
    have hnonempty : rowsAfter w.doc.updates (snapshotSeq snap) ≠ [] := by
      simpa [readsRows, hi] using hrows
    have hfolded : (mergedState engine snap w.doc.updates).folded ≠ 0 :=
      fun hzero => hnonempty (length_eq_zero_iff.mp hzero)
    refine ⟨_, (h.maxSeq_mergedState (mem_of_getElem? hi) hfolded).symm, .inl ?_⟩
    exact List.getElem?_set_self (List.getElem?_eq_some_iff.mp hi).1
  · cases hstep

/-- In every run of passes that follow one another: once a pass has read rows and has committed
with no append in between, no pass writes the row or an event until another append commits. -/
theorem materialised_once (engine : MergeEngine Update State) (proj : Projection State Vals)
    {before between after : List (Materialize.Action Update)} {i : Nat}
    {w₀ w₁ w₂ : World Update State Vals}
    (hserial : Along (Materialize.step engine proj) Serial World.empty
      (before ++ (.readLog i :: between ++ [.commit i])))
    (hbefore : run (Materialize.step engine proj) World.empty before = some w₀)
    (hrows : readsRows w₀ i = true) (hbetween : ∀ a ∈ between, appends a = false)
    (hpass : run (Materialize.step engine proj) w₀ (.readLog i :: between ++ [.commit i]) = some w₁)
    (hafter : run (Materialize.step engine proj) w₁ after = some w₂)
    (hquiet : ∀ a ∈ after, appends a = false) : w₂.entity = w₁.entity ∧ w₂.events = w₁.events := by
  have hinv : Inv w₀ := run_preserves (fun _ _ _ => inv_step) inv_empty hbefore
  obtain ⟨w, hhold, hcommit⟩ := run_concat.mp hpass
  obtain ⟨v, hread, hbusy⟩ := run_cons_eq_some.mp hhold
  obtain ⟨f, hcovers⟩ := covers_readLog hinv hrows hread
  have hcovers' : Covers w i f := covers_run hcovers hbetween hbusy
  -- up to the commit the passes follow one another, so no other one is under way
  have halone : OneBusy Pass.busy w.passes := by
    rw [← append_assoc, along_append] at hserial
    exact run_invariant (fun _ _ _ => oneBusy_step) oneBusy_nil
      hserial.1 (run_append.mpr ⟨w₀, hbefore, hhold⟩)
  have hsettled : Settled w₁ := settled_commit hcovers' halone hcommit
  exact settled_run hsettled hquiet hafter

end

section

open Fabriq.Document.CompactionSafety (idEngine)

def idProjection : Projection (Finset Nat) (Finset Nat) where
  stateValues state := state
  accepts _ := true

def append (i update : Nat) : List (Materialize.Action Nat) :=
  [.doc .beginAppend, .doc (.insert i update), .doc (.commitAppend i)]

def compact (c : Nat) : List (Materialize.Action Nat) :=
  [.doc .beginCompact, .doc (.readSnapshot c), .doc (.readLog c), .doc (.lockCompact c),
   .doc (.recount c), .doc (.commitCompact c)]

def write (i : Nat) : List (Materialize.Action Nat) :=
  [.lock i, .recount i, .commit i]

def Repeats (before after : List (Materialize.Action Nat)) : Prop :=
  ∃ w w', run (Materialize.step idEngine idProjection) World.empty before = some w ∧
    run (Materialize.step idEngine idProjection) w after = some w' ∧
      (∀ a ∈ after, appends a = false) ∧
        (w.currentVersion, w.events.length) = (1, 1) ∧
          (w'.currentVersion, w'.events.length) = (2, 2)

/-- A compaction before the first pass leaves it no row to fold, so that the document stays due;
an append between the fold and the lock is past the watermark; two scans before the first write
both write. -/
theorem materialised_twice :
    Repeats (append 0 10 ++ compact 0 ++ [.scan, .readSnapshot 0, .readLog 0] ++ write 0)
        ([.scan, .readSnapshot 1, .readLog 1] ++ write 1) ∧
      Repeats (append 0 10 ++ [.scan, .readSnapshot 0, .readLog 0] ++ append 1 20 ++ write 0)
        ([.scan, .readSnapshot 1, .readLog 1] ++ write 1) ∧
      Repeats (append 0 10 ++ [.scan, .scan, .readSnapshot 0, .readLog 0] ++ write 0)
        ([.readSnapshot 1, .readLog 1] ++ write 1) :=
  ⟨⟨_, _, rfl, rfl, by decide, by decide +kernel, by decide +kernel⟩,
    ⟨_, _, rfl, rfl, by decide, by decide +kernel, by decide +kernel⟩,
    ⟨_, _, rfl, rfl, by decide, by decide +kernel, by decide +kernel⟩⟩

theorem materialised_once_trimmedAfter : ∃ w₁ w₂,
      run (Materialize.step idEngine idProjection) World.empty
        (append 0 10 ++ [.scan, .readSnapshot 0] ++
          (.readLog 0 :: [.doc .beginCompact, .lock 0, .recount 0] ++ [.commit 0])) = some w₁ ∧
      run (Materialize.step idEngine idProjection) w₁
        [.doc (.readSnapshot 0), .doc (.readLog 0), .doc (.lockCompact 0), .doc (.recount 0),
          .doc (.commitCompact 0), .doc .beginAppend, .doc (.insert 1 20)] = some w₂ ∧
      w₂.entity = w₁.entity ∧ w₂.events = w₁.events := by
  have hserial : Along (Materialize.step idEngine idProjection) Serial World.empty
      (append 0 10 ++ [.scan, .readSnapshot 0] ++
        (.readLog 0 :: [.doc .beginCompact, .lock 0, .recount 0] ++ [.commit 0])) := by decide
  refine ⟨_, _, rfl, rfl, ?_⟩
  exact materialised_once idEngine idProjection hserial rfl rfl (by decide) rfl
    (show run _ _ [.doc (.readSnapshot 0), .doc (.readLog 0), .doc (.lockCompact 0),
      .doc (.recount 0), .doc (.commitCompact 0), .doc .beginAppend, .doc (.insert 1 20)] = _ from rfl)
    (by decide)

end

end Fabriq.Document.MaterializeOnce
