import Fabriq.Document.CompactionSafety
import Fabriq.Document.History
import Fabriq.Lib.Exclusive

/-!
The rows of a document whose compactions follow one another: below the snapshot watermark they
are in the segments, above it in the log, and a history read finds each row of its range there.
-/

namespace Fabriq.Document.HistoryComplete

open Document.Store Document.LogOrder Document.History Lib.Exclusive Lib.Machine List
open Document.CompactionSafety (floorUnmoved)

section

variable {Update State : Type*} {d e : Doc Update State}

def Current (d : Doc Update State) : Compaction State → Prop
  | .started | .finished => True
  | .readSnapshot snap => snap = d.snapshot
  | .merged f | .locked f | .recounted f => f.since = d.floor

theorem eq_finished_of_idle {c : Compaction State} (hc : running c = false) : c = .finished := by
  cases c with
  | finished => rfl
  | started | readSnapshot | merged | locked | recounted => cases hc

variable [SemilatticeSup State] [OrderBot State] {engine : MergeEngine Update State}

structure DocInv (engine : MergeEngine Update State) (d : Doc Update State) : Prop where
  safe : CompactionSafety.Inv engine d
  distinct : Distinct d
  oneBusy : OneBusy running d.compactions
  current : ∀ c ∈ d.compactions, Current d c

theorem docInv_empty : DocInv engine Doc.empty where
  safe := CompactionSafety.inv_empty
  distinct := distinct_empty
  oneBusy := oneBusy_nil
  current := by simp [Doc.empty]

theorem DocInv.floorUnmoved (h : DocInv engine d) (a : Store.Action Update) : floorUnmoved d a := by
  cases a with
  | commitCompact c =>
    simp only [CompactionSafety.floorUnmoved]
    split
    · rename_i f hc
      exact beq_iff_eq.mpr (h.current _ (mem_of_getElem? hc))
    · rfl
  | _ => rfl

variable {a : Store.Action Update} {c : Nat} {next old : Compaction State}

theorem Moves.running (h : Moves engine d c a old next) : running old := by
  cases h with
  | readSnapshot | readLog | lock | recount => rfl

theorem current_moves
    (hold : Current d old) (h : Moves engine d c a old next) : Current d next := by
  cases h with
  | readSnapshot => rfl
  | readLog => exact congrArg snapshotSeq hold
  | lock | recount => exact hold

theorem oneBusy_step (h : OneBusy running d.compactions)
    (hserial : a = .beginCompact → ∀ c ∈ d.compactions, running c = false)
    (hstep : Store.step engine d a = some e) : OneBusy running e.compactions := by
  cases step_effect engine hstep with
  | appends | insert | commitAppend => exact h
  | beginCompact => exact oneBusy_concat (hserial rfl) _
  | compaction _ hc hmoves => exact h.set fun _ => ⟨_, hc, Moves.running hmoves⟩
  | finish | commitCompact => exact h.set fun hbusy => absurd hbusy Bool.false_ne_true

theorem current_step (h : DocInv engine d) (hstep : Store.step engine d a = some e) :
    ∀ c ∈ e.compactions, Current e c := by
  cases step_effect engine hstep with
  | appends | insert | commitAppend => exact h.current
  | beginCompact => exact forall_mem_concat h.current trivial
  | compaction _ hc hmoves =>
    have hnext : Current d _ := current_moves (h.current _ (mem_of_getElem? hc)) hmoves
    exact forall_mem_set h.current hnext
  | finish => exact forall_mem_set h.current trivial
  | commitCompact hc =>
    intro c hmem
    rw [eq_finished_of_idle (h.oneBusy.idle_set hc rfl rfl c hmem)]
    trivial

theorem DocInv.step (h : DocInv engine d)
    (hserial : a = .beginCompact → ∀ c ∈ d.compactions, running c = false)
    (hstep : Store.step engine d a = some e) : DocInv engine e where
  safe := CompactionSafety.inv_step h.safe (h.floorUnmoved a) hstep
  distinct := h.distinct.step hstep
  oneBusy := oneBusy_step h.oneBusy hserial hstep
  current := current_step h hstep

end

section

variable {Update State : Type*} {w w' : World Update State}

def InSegments (blobs : List (SegmentKey × List (UpdateRow Update))) (segs : List SegmentRow)
    (row : UpdateRow Update) : Prop :=
  ∃ s ∈ segs, ∃ rows, blobs.lookup s.blobKey = some rows ∧ row ∈ rows

/-- The segment lies below the watermark, and its blob holds rows of its range. -/
structure SegmentOk (w : World Update State) (s : SegmentRow) : Prop where
  key : s.blobKey = ⟨s.seqLo, s.seqHi⟩
  le_floor : s.seqHi ≤ w.doc.floor
  blob : ∃ rows, w.blobs.lookup s.blobKey = some rows ∧
    ∀ row ∈ rows, row ∈ w.doc.committed ∧ s.seqLo ≤ row.seq ∧ row.seq ≤ s.seqHi

/-- The rows that a compaction has read for its segment: no fewer than it has folded. -/
structure Sealable (d : Doc Update State) (f : Fold State) (rows : List (UpdateRow Update)) :
    Prop where
  bounds : ∀ row ∈ rows, row ∈ d.committed ∧ d.floor < row.seq ∧ row.seq ≤ f.maxSeq
  part : ∃ part : List (UpdateRow Update),
    part.Sublist (rowsIn d.updates d.floor f.maxSeq) ∧ f.folded ≤ part.length ∧
      ∀ row ∈ part, row ∈ rows

def SealOk (w : World Update State) (f : Fold State) : Seal Update → Prop
  | .floor prevSeq => prevSeq = w.doc.floor
  | .entries prevSeq rows => prevSeq = w.doc.floor ∧ Sealable w.doc f rows
  | .sealed none => Sealable w.doc f []
  | .sealed (some s) =>
    s = ⟨w.doc.floor + 1, f.maxSeq, ⟨w.doc.floor + 1, f.maxSeq⟩⟩ ∧
      ∃ rows, w.blobs.lookup s.blobKey = some rows ∧ Sealable w.doc f rows

def foldOf : Compaction State → Option (Fold State)
  | .merged f | .locked f | .recounted f => some f
  | .started | .readSnapshot _ | .finished => none

/-- A row of the range is among the rows collected, in the log, or in a segment
that is still to be loaded. -/
def PhaseOk (w : World Update State) (r : Read Update) : Phase Update → Prop
  | .begun | .failed => True
  | .loading segs out =>
    (∀ s ∈ segs, s ∈ w.segments) ∧ (∀ row ∈ out, row ∈ w.doc.committed) ∧
      ∀ row ∈ r.before, inRange r.seqLo r.seqHi row = true →
        row ∈ out ∨ row ∈ w.doc.updates ∨ InSegments w.blobs segs row
  | .returned updates =>
    (updates.Pairwise fun a b => a.seq < b.seq) ∧
      ∀ row ∈ r.before, inRange r.seqLo r.seqHi row = true → row ∈ updates

structure ReadOk (w : World Update State) (r : Read Update) : Prop where
  known : ∀ row ∈ r.before, row ∈ w.doc.committed
  phase : PhaseOk w r r.phase

variable {f : Fold State} {r : Read Update} {rows : List (UpdateRow Update)} {s : SegmentRow}

theorem ReadOk.complete (h : ReadOk w r) : r.Complete := by
  intro updates hphase
  have hok := h.phase
  rw [hphase] at hok
  exact hok

theorem ReadOk.mono (h : ReadOk w r) (hcommit : ∀ row ∈ w.doc.committed, row ∈ w'.doc.committed)
    (hsegs : ∀ s ∈ w.segments, s ∈ w'.segments)
    (hblobs : ∀ s ∈ w.segments, w'.blobs.lookup s.blobKey = w.blobs.lookup s.blobKey)
    (hlog : r.phase.between → ∀ row ∈ w.doc.updates, row ∈ w'.doc.updates) : ReadOk w' r := by
  refine ⟨fun row hrow => hcommit row (h.known row hrow), ?_⟩
  have hphase := h.phase
  cases hp : r.phase with
  | begun | failed => trivial
  | returned updates =>
    rw [hp] at hphase
    exact hphase
  | loading segs out =>
    rw [hp] at hphase hlog
    obtain ⟨hindexed, hout, hfind⟩ := hphase
    refine ⟨fun s hs => hsegs s (hindexed s hs), fun row hrow => hcommit row (hout row hrow),
      fun row hrow hin => ?_⟩
    rcases hfind row hrow hin with hmem | hmem | ⟨s, hs, rows, hblob, hmem⟩
    · exact .inl hmem
    · exact .inr (.inl (hlog rfl row hmem))
    · exact .inr (.inr ⟨s, hs, rows, (hblobs s (hindexed s hs)).trans hblob, hmem⟩)

theorem readOk_fail (hr : ReadOk w r) : ReadOk w { r with phase := .failed } := ⟨hr.known, trivial⟩

theorem readOk_begin (w : World Update State) (seqLo seqHi : Nat) :
    ReadOk w ⟨seqLo, seqHi, w.doc.committed, if seqHi < seqLo then .returned [] else .begun⟩ := by
  refine ⟨fun _ hrow => hrow, ?_⟩
  split
  · rename_i hempty
    refine ⟨.nil, fun row _ hin => ?_⟩
    simp only [inRange, Bool.and_eq_true, decide_eq_true_eq] at hin
    omega
  · trivial

theorem readOk_load {rest : List SegmentRow} {out : List (UpdateRow Update)} (hr : ReadOk w r)
    (hp : r.phase = .loading (s :: rest) out)
    (hseg : SegmentOk w s) (hblob : w.blobs.lookup s.blobKey = some rows) :
    ReadOk w { r with phase := .loading rest (out ++ rows.filter (inRange r.seqLo r.seqHi)) } := by
  have hphase := hr.phase
  rw [hp] at hphase
  obtain ⟨hindexed, hout, hfind⟩ := hphase
  refine ⟨hr.known, fun t ht => hindexed t (mem_cons_of_mem _ ht), fun row hrow => ?_,
    fun row hrow hin => ?_⟩
  · rcases mem_append.mp hrow with hold | hnew
    · exact hout row hold
    · obtain ⟨rows', hblob', hbounds⟩ := hseg.blob
      rw [hblob] at hblob'
      cases hblob'
      exact (hbounds row (mem_filter.mp hnew).1).1
  · rcases hfind row hrow hin with hmem | hmem | ⟨t, ht, trows, htblob, hmem⟩
    · exact .inl (mem_append_left _ hmem)
    · exact .inr (.inl hmem)
    · rcases mem_cons.mp ht with rfl | ht
      · rw [hblob] at htblob
        cases htblob
        exact .inl (mem_append_right _ (mem_filter.mpr ⟨hmem, hin⟩))
      · exact .inr (.inr ⟨t, ht, trows, htblob, hmem⟩)

theorem Sealable.mono {d e : Doc Update State}
    (h : Sealable d f rows) (hsnap : e.snapshot = d.snapshot) (hlog : d.updates.Sublist e.updates)
    (hcommit : ∀ row ∈ d.committed, row ∈ e.committed) : Sealable e f rows := by
  have hfloor : e.floor = d.floor := congrArg snapshotSeq hsnap
  obtain ⟨part, hsub, hlen, hmem⟩ := h.part
  refine ⟨fun row hrow => ?_, part, hfloor ▸ hsub.trans (hlog.filter _), hlen, hmem⟩
  obtain ⟨hrow, hbounds⟩ := h.bounds row hrow
  exact ⟨hcommit row hrow, hfloor ▸ hbounds⟩

theorem Sealable.mem {d : Doc Update State}
    (h : Sealable d f rows) (hcount : (rowsIn d.updates d.floor f.maxSeq).length = f.folded)
    {row : UpdateRow Update} (hrow : row ∈ rowsIn d.updates d.floor f.maxSeq) : row ∈ rows := by
  obtain ⟨part, hsub, hlen, hmem⟩ := h.part
  have hpart : part = rowsIn d.updates d.floor f.maxSeq :=
    hsub.eq_of_length_le (Nat.le_trans (Nat.le_of_eq hcount) hlen)
  exact hmem row (hpart ▸ hrow)

theorem SealOk.mono {s : Seal Update} {d : Doc Update State} (h : SealOk w f s)
    (hsnap : d.snapshot = w.doc.snapshot) (hlog : w.doc.updates.Sublist d.updates)
    (hcommit : ∀ row ∈ w.doc.committed, row ∈ d.committed) : SealOk { w with doc := d } f s := by
  have hfloor : d.floor = w.doc.floor := congrArg snapshotSeq hsnap
  cases s with
  | floor prevSeq => exact h.trans hfloor.symm
  | entries prevSeq rows =>
    exact ⟨h.1.trans hfloor.symm, h.2.mono hsnap hlog hcommit⟩
  | sealed segment =>
    cases segment with
    | none => exact Sealable.mono h hsnap hlog hcommit
    | some s =>
      obtain ⟨rfl, rows, hblob, hrows⟩ := h
      exact ⟨by simp only [hfloor], rows, hblob, hrows.mono hsnap hlog hcommit⟩

theorem InSegments.mono {blobs : List (SegmentKey × List (UpdateRow Update))}
    {segs segs' : List SegmentRow} {row : UpdateRow Update} (h : InSegments blobs segs row)
    (hsub : ∀ s ∈ segs, s ∈ segs') : InSegments blobs segs' row := by
  obtain ⟨s, hs, hrow⟩ := h
  exact ⟨s, hsub s hs, hrow⟩

theorem SegmentOk.mono (h : SegmentOk w s) (hfloor : w.doc.floor ≤ w'.doc.floor)
    (hcommit : ∀ row ∈ w.doc.committed, row ∈ w'.doc.committed)
    (hblob : w'.blobs.lookup s.blobKey = w.blobs.lookup s.blobKey) : SegmentOk w' s := by
  obtain ⟨rows, hrows, hbounds⟩ := h.blob
  refine ⟨h.key, Nat.le_trans h.le_floor hfloor, rows, hblob.trans hrows, fun row hrow => ?_⟩
  obtain ⟨hmem, hrange⟩ := hbounds row hrow
  exact ⟨hcommit row hmem, hrange⟩

variable [SemilatticeSup State] [OrderBot State] {engine : MergeEngine Update State}

structure Inv (engine : MergeEngine Update State) (w : World Update State) : Prop where
  doc : DocInv engine w.doc
  segments : ∀ s ∈ w.segments, SegmentOk w s
  cached : ∀ key rows, w.segCache.lookup key = some rows →
    w.blobs.lookup key = some rows ∧ ∃ s ∈ w.segments, s.blobKey = key
  archived : ∀ row ∈ w.doc.committed, row.seq ≤ w.doc.floor → InSegments w.blobs w.segments row
  seals : ∀ c s, w.seals.lookup c = some s → ∃ comp, w.doc.compactions[c]? = some comp ∧
    (comp = .finished ∨ ∃ f, foldOf comp = some f ∧ SealOk w f s)
  sealed : ∀ (c : Nat) (comp : Compaction State), w.doc.compactions[c]? = some comp →
    comp.holdsLock = true → ∃ segment, w.seals.lookup c = some (.sealed segment)
  reads : ∀ r ∈ w.reads, ReadOk w r

theorem inv_empty : Inv engine (World.empty : World Update State) where
  doc := docInv_empty
  segments := by simp [World.empty]
  cached := by simp [World.empty]
  archived := by simp [World.empty, Doc.empty]
  seals := by simp [World.empty]
  sealed := by simp [World.empty, Doc.empty]
  reads := by simp [World.empty]

theorem Inv.frame (h : Inv engine w) {seals : List (Nat × Seal Update)}
    {segCache : List (SegmentKey × List (UpdateRow Update))} {reads : List (Read Update)}
    (hcached : ∀ key rows, segCache.lookup key = some rows →
      w.blobs.lookup key = some rows ∧ ∃ s ∈ w.segments, s.blobKey = key)
    (hseals : ∀ c s, seals.lookup c = some s → ∃ comp, w.doc.compactions[c]? = some comp ∧
      (comp = .finished ∨ ∃ f, foldOf comp = some f ∧ SealOk w f s))
    (hsealed : ∀ (c : Nat) (comp : Compaction State), w.doc.compactions[c]? = some comp →
      comp.holdsLock → ∃ segment, seals.lookup c = some (.sealed segment))
    (hreads : ∀ r ∈ reads, ReadOk w r) :
    Inv engine { w with seals := seals, segCache := segCache, reads := reads } :=
  { h with
    segments := fun s hs => { h.segments s hs with }
    cached := hcached
    seals := hseals
    sealed := hsealed
    reads := fun r hr => { hreads r hr with } }

theorem Inv.grow (h : Inv engine w) {d : Doc Update State} (hdoc : DocInv engine d)
    (hsnap : d.snapshot = w.doc.snapshot) (hlog : w.doc.updates.Sublist d.updates)
    (hcommit : ∀ row ∈ w.doc.committed, row ∈ d.committed)
    (hnew : ∀ row ∈ d.committed, row ∈ w.doc.committed ∨ w.doc.floor < row.seq)
    (hseals : ∀ c s, w.seals.lookup c = some s → ∃ comp, d.compactions[c]? = some comp ∧
      (comp = .finished ∨ ∃ f, foldOf comp = some f ∧ SealOk w f s))
    (hsealed : ∀ (c : Nat) (comp : Compaction State), d.compactions[c]? = some comp →
      comp.holdsLock → ∃ segment, w.seals.lookup c = some (.sealed segment)) :
    Inv engine { w with doc := d } := by
  have hfloor : d.floor = w.doc.floor := congrArg snapshotSeq hsnap
  refine ⟨hdoc, ?_, h.cached, ?_, ?_, hsealed, ?_⟩
  · exact fun s hs => (h.segments s hs).mono (Nat.le_of_eq hfloor.symm) hcommit rfl
  · intro row hrow hle
    rw [hfloor] at hle
    rcases hnew row hrow with hold | hpast
    · exact h.archived row hold hle
    · exact absurd hpast (Nat.not_lt.mpr hle)
  · intro c s hs
    obtain ⟨comp, hcomp, hok⟩ := hseals c s hs
    refine ⟨comp, hcomp, hok.imp_right ?_⟩
    rintro ⟨f, hf, hseal⟩
    exact ⟨f, hf, hseal.mono hsnap hlog hcommit⟩
  · exact fun r hr => (h.reads r hr).mono hcommit (fun _ hs => hs) (fun _ _ => rfl)
      fun _ row hrow => hlog.subset hrow

theorem Inv.seals_set (h : Inv engine w) {c : Nat} {next : Compaction State}
    (hnext : ∀ old, w.doc.compactions[c]? = some old →
      next = .finished ∨ old ≠ .finished ∧ ∀ f, foldOf old = some f → foldOf next = some f) :
    ∀ i s, w.seals.lookup i = some s → ∃ comp, (w.doc.compactions.set c next)[i]? = some comp ∧
      (comp = .finished ∨ ∃ f, foldOf comp = some f ∧ SealOk w f s) := by
  intro i s hi
  obtain ⟨comp, hcomp, hok⟩ := h.seals i s hi
  rw [List.getElem?_set]
  split
  · rename_i hci
    subst hci
    rw [if_pos (List.getElem?_eq_some_iff.mp hcomp).1]
    refine ⟨next, rfl, ?_⟩
    rcases hnext comp hcomp with hdone | ⟨hbusy, hfold⟩
    · exact .inl hdone
    · obtain ⟨f, hf, hseal⟩ := hok.resolve_left hbusy
      exact .inr ⟨f, hfold f hf, hseal⟩
  · exact ⟨comp, hcomp, hok⟩

theorem Inv.sealed_set (h : Inv engine w) {c : Nat} {next : Compaction State}
    (hlock : next.holdsLock → ∃ segment, w.seals.lookup c = some (.sealed segment)) :
    ∀ (i : Nat) (comp : Compaction State), (w.doc.compactions.set c next)[i]? = some comp →
      comp.holdsLock → ∃ segment, w.seals.lookup i = some (.sealed segment) := by
  intro i comp hi hheld
  rw [List.getElem?_set] at hi
  split at hi
  · rename_i hci
    split at hi
    · cases hi
      exact hci ▸ hlock hheld
    · cases hi
  · exact h.sealed i comp hi hheld

theorem foldOf_moves {d : Doc Update State} {a : Store.Action Update} {c : Nat}
    {old next : Compaction State} (hmoves : Moves engine d c a old next) :
    old ≠ .finished ∧ ∀ f, foldOf old = some f → foldOf next = some f := by
  cases hmoves with
  | readSnapshot | readLog =>
    refine ⟨by simp, fun f hf => ?_⟩
    cases hf
  | lock | recount => exact ⟨by simp, fun f hf => hf⟩

end

end Fabriq.Document.HistoryComplete
