import Fabriq.Document.HistoryInvariant

/-!
A history read returns every update of its range, as long as compactions follow
one another and none commits between the two reads.
-/

namespace Fabriq.Document.HistoryComplete

open Document.Store Document.LogOrder Document.History Lib.Assoc Lib.Machine List Option

section

variable {Update State : Type*} [SemilatticeSup State] [OrderBot State]
  {engine : MergeEngine Update State} {w w' : World Update State} {c : Nat}
  {f : Fold State}

section

variable (h : Inv engine w)
include h

theorem Inv.trim {segs : List SegmentRow} (hc : w.doc.compactions[c]? = some (.recounted f))
    (hdoc : DocInv engine (w.doc.compacted c f (engine.compact f.state)))
    (hidle : ∀ r ∈ w.reads, r.phase.between = false) (hlt : w.doc.floor < f.maxSeq)
    (hsub : ∀ s ∈ w.segments, s ∈ segs)
    (hnew : ∀ s ∈ segs, s ∈ w.segments ∨ s.blobKey = ⟨s.seqLo, s.seqHi⟩ ∧ s.seqHi ≤ f.maxSeq ∧
      ∃ rows, w.blobs.lookup s.blobKey = some rows ∧
        ∀ row ∈ rows, row ∈ w.doc.committed ∧ s.seqLo ≤ row.seq ∧ row.seq ≤ s.seqHi)
    (hmoved : ∀ row ∈ rowsIn w.doc.updates w.doc.floor f.maxSeq, InSegments w.blobs segs row) :
    Inv engine { w with
      doc := w.doc.compacted c f (engine.compact f.state)
      segments := segs } := by
  have hdone : ∀ comp ∈ w.doc.compactions.set c .finished, running comp = false :=
    h.doc.oneBusy.idle_set hc rfl rfl
  refine ⟨hdoc, ?_, ?_, ?_, ?_, ?_, ?_⟩
  · intro s hs
    rcases hnew s hs with hold | ⟨hkey, hle, hblob⟩
    · exact (h.segments s hold).mono (Nat.le_of_lt hlt) (fun _ hrow => hrow) rfl
    · exact ⟨hkey, hle, hblob⟩
  · intro key rows hkey
    obtain ⟨hblob, s, hs, hskey⟩ := h.cached key rows hkey
    exact ⟨hblob, s, hsub s hs, hskey⟩
  · intro row hrow hle
    rcases Nat.lt_or_ge w.doc.floor row.seq with hpast | hbelow
    · exact hmoved row (mem_rowsIn.mpr ⟨h.doc.safe.ordered.live row hrow hpast, hpast, hle⟩)
    · exact (h.archived row hrow hbelow).mono hsub
  · intro i s hi
    obtain ⟨comp, hcomp, -⟩ := h.seals_set (c := c) (fun _ _ => .inl rfl) i s hi
    exact ⟨comp, hcomp, .inl (eq_finished_of_idle (hdone comp (mem_of_getElem? hcomp)))⟩
  · exact h.sealed_set fun hheld => absurd hheld Bool.false_ne_true
  · intro r hr
    refine (h.reads r hr).mono (fun _ hrow => hrow) hsub (fun _ _ => rfl) fun hbetween => ?_
    rw [hidle r hr] at hbetween
    cases hbetween

theorem Inv.commitCompact (hc : w.doc.compactions[c]? = some (.recounted f))
    (hdoc : DocInv engine (w.doc.compacted c f (engine.compact f.state)))
    (hidle : ∀ r ∈ w.reads, r.phase.between = false) :
    Inv engine { w with
      doc := w.doc.compacted c f (engine.compact f.state)
      segments := segmentsAfter w (.commitCompact c) } := by
  have hmem : Compaction.recounted f ∈ w.doc.compactions := mem_of_getElem? hc
  obtain ⟨hfold, hcount⟩ := h.doc.safe.compactions _ hmem
  have hsince : f.since = w.doc.floor := h.doc.current _ hmem
  have hlt : w.doc.floor < f.maxSeq := hsince ▸ hfold.since_lt
  have hrecount : (rowsIn w.doc.updates w.doc.floor f.maxSeq).length = f.folded :=
    hsince ▸ hcount hsince
  obtain ⟨segment, hsegment⟩ := h.sealed c _ hc rfl
  have hseal : SealOk w f (.sealed segment) := by
    obtain ⟨comp, hcomp, hok⟩ := h.seals c _ hsegment
    rw [hc] at hcomp
    cases hcomp
    obtain ⟨g, hg, hseal⟩ := hok.resolve_left (by simp)
    cases hg
    exact hseal
  simp only [segmentsAfter, hsegment]
  cases segment with
  | none =>
    refine h.trim hc hdoc hidle hlt (fun _ hs => hs) (fun _ hs => .inl hs) fun row hrow => ?_
    exact absurd (Sealable.mem hseal hrecount hrow) not_mem_nil
  | some s =>
    obtain ⟨rfl, rows, hblob, hrows⟩ := hseal
    refine h.trim hc hdoc hidle hlt (fun s hs => mem_append_left _ hs) (fun s hs => ?_)
      fun row hrow => ?_
    · rcases mem_append.mp hs with hold | hnew
      · exact .inl hold
      · rw [mem_singleton.mp hnew]
        exact .inr ⟨rfl, le_rfl, rows, hblob, hrows.bounds⟩
    · exact ⟨_, mem_append_right _ (mem_singleton_self _), rows, hblob, hrows.mem hrecount hrow⟩

theorem Inv.doc_step {a : Store.Action Update} {d : Doc Update State}
    (hok : HistoryOk w (.doc a)) (hseal : sealedFor w a)
    (hstep : Store.step engine w.doc a = some d) :
    Inv engine { w with doc := d, segments := segmentsAfter w a } := by
  have hdoc : DocInv engine d := h.doc.step (fun ha => by subst ha; exact hok) hstep
  cases step_effect engine hstep with
  | commitCompact hc => exact h.commitCompact hc hdoc hok
  | commitAppend hi =>
    refine h.grow hdoc rfl (sublist_append_left _ _)
      (fun row hrow => mem_append_left _ hrow) (fun row hrow => ?_) h.seals h.sealed
    rcases mem_append.mp hrow with hold | hnew
    · exact .inl hold
    · rw [mem_singleton.mp hnew]
      have hflight := Doc.mem_inFlight.mpr (mem_of_getElem? hi)
      exact .inr (h.doc.safe.ordered.inFlight _ hflight).1
  | insert =>
    exact h.grow hdoc rfl (.refl _) (fun _ hrow => hrow) (fun _ => .inl) h.seals h.sealed
  | appends ha =>
    rw [segmentsAfter_of_not_commits ha]
    exact h.grow hdoc rfl (.refl _) (fun _ hrow => hrow) (fun _ => .inl) h.seals h.sealed
  | beginCompact =>
    refine h.grow hdoc rfl (.refl _) (fun _ hrow => hrow) (fun _ => .inl) ?_ ?_
    · intro c s hs
      obtain ⟨comp, hcomp, hok⟩ := h.seals c s hs
      refine ⟨comp, ?_, hok⟩
      rw [List.getElem?_append_left (List.getElem?_eq_some_iff.mp hcomp).1]
      exact hcomp
    · intro c comp hcomp hheld
      rw [List.getElem?_append] at hcomp
      split at hcomp
      · exact h.sealed c comp hcomp hheld
      · rw [mem_singleton.mp (mem_of_getElem? hcomp)] at hheld
        cases hheld
  | compaction ha hc hmoves =>
    rw [segmentsAfter_of_not_commits ha]
    refine h.grow hdoc rfl (.refl _) (fun _ hrow => hrow) (fun _ => .inl) ?_ ?_
    · refine h.seals_set fun old hold => .inr ?_
      rw [hc] at hold
      cases hold
      exact foldOf_moves hmoves
    · refine h.sealed_set fun hheld => ?_
      cases hmoves with
      | readSnapshot | readLog => cases hheld
      | lock =>
        simp only [sealedFor] at hseal
        split at hseal
        · rename_i segment hsegment
          exact ⟨segment, hsegment⟩
        · cases hseal
      | recount => exact h.sealed _ _ hc rfl
  | finish c ha =>
    rw [segmentsAfter_of_not_commits ha]
    exact h.grow hdoc rfl (.refl _) (fun _ hrow => hrow) (fun _ => .inl)
      (h.seals_set fun _ _ => .inl rfl)
      (h.sealed_set fun hheld => absurd hheld Bool.false_ne_true)

omit h in
theorem DocInv.folded_le {d : Doc Update State} (h : DocInv engine d)
    (hmem : Compaction.merged f ∈ d.compactions) :
    d.floor < f.maxSeq ∧ f.folded ≤ (rowsIn d.updates d.floor f.maxSeq).length := by
  have hfold : CompactionSafety.FoldOk engine d f := h.safe.compactions _ hmem
  have hsince : f.since = d.floor := h.current _ hmem
  obtain ⟨-, rows, hsub, hlen, -⟩ := hfold.absorbed hsince
  rw [← hsince]
  exact ⟨hfold.since_lt, hlen ▸ hsub.length_le⟩

section

variable (hc : w.doc.compactions[c]? = some (.merged f))
include hc

theorem Inv.setSeal {s : Seal Update}
    (hseal : SealOk w f s) : Inv engine (w.setSeal c s) := by
  refine h.frame h.cached ?_ ?_ h.reads
  · intro i t hi
    rw [lookup_put] at hi
    split at hi
    · rename_i hic
      cases hi
      exact ⟨_, hic ▸ hc, .inr ⟨f, rfl, hseal⟩⟩
    · exact h.seals i t hi
  · intro i comp hcomp hheld
    obtain ⟨segment, hsegment⟩ := h.sealed i comp hcomp hheld
    refine ⟨segment, ?_⟩
    have hic : i ≠ c := by
      rintro rfl
      rw [hc] at hcomp
      cases hcomp
      cases hheld
    rw [lookup_put, if_neg hic]
    exact hsegment

theorem Inv.sealOk {s : Seal Update}
    (hs : w.seals.lookup c = some s) : SealOk w f s := by
  obtain ⟨comp, hcomp, hok⟩ := h.seals c s hs
  rw [hc] at hcomp
  cases hcomp
  obtain ⟨g, hg, hseal⟩ := hok.resolve_left (by simp)
  cases hg
  exact hseal

theorem Inv.sealRows :
    Sealable w.doc f (sortBySeq (rowsIn w.doc.updates w.doc.floor f.maxSeq)) := by
  have hlog := h.doc.safe.ordered
  refine ⟨fun row hrow => ?_, _, .refl _, (h.doc.folded_le (mem_of_getElem? hc)).2,
    fun row hrow => mem_sortBySeq.mpr hrow⟩
  obtain ⟨hmem, hbounds⟩ := mem_rowsIn.mp (mem_sortBySeq.mp hrow)
  exact ⟨hlog.logged row hmem, hbounds⟩

end

theorem Inv.putBlob (key : SegmentKey) (rows : List (UpdateRow Update))
    (hkey : w.doc.floor < key.seqHi)
    (hseals : ∀ c s, w.seals.lookup c = some s → ∃ comp, w.doc.compactions[c]? = some comp ∧
      (comp = .finished ∨ ∃ f, foldOf comp = some f ∧
        SealOk { w with blobs := put w.blobs key rows } f s)) :
    Inv engine { w with blobs := put w.blobs key rows } := by
  have hkept : ∀ s ∈ w.segments,
      (put w.blobs key rows).lookup s.blobKey = w.blobs.lookup s.blobKey := by
    intro s hs
    have hok := h.segments s hs
    rw [lookup_put, if_neg]
    intro heq
    have hhi : s.seqHi = key.seqHi := congrArg SegmentKey.seqHi (hok.key.symm.trans heq)
    have hle := hok.le_floor
    omega
  refine ⟨h.doc, ?_, ?_, ?_, hseals, h.sealed, ?_⟩
  · exact fun s hs => (h.segments s hs).mono le_rfl (fun _ hrow => hrow) (hkept s hs)
  · intro k cachedRows hcached
    obtain ⟨hblob, s, hs, rfl⟩ := h.cached k cachedRows hcached
    exact ⟨(hkept s hs).trans hblob, s, hs, rfl⟩
  · intro row hrow hle
    obtain ⟨s, hs, segRows, hblob, hmem⟩ := h.archived row hrow hle
    exact ⟨s, hs, segRows, (hkept s hs).trans hblob, hmem⟩
  · exact fun r hr => (h.reads r hr).mono (fun _ hrow => hrow) (fun _ hs => hs) hkept
      fun _ _ hrow => hrow

theorem Inv.setRead {i : Nat} {r : Read Update} (hr : ReadOk w r) : Inv engine (w.setRead i r) :=
  h.frame h.cached h.seals h.sealed (forall_mem_set h.reads hr)

theorem Inv.readSegments {seqLo seqHi : Nat} {before : List (UpdateRow Update)}
    (hbefore : ∀ row ∈ before, row ∈ w.doc.committed) :
    ReadOk w ⟨seqLo, seqHi, before, .loading (overlapping w seqLo seqHi) []⟩ := by
  have hmem : ∀ s, s ∈ overlapping w seqLo seqHi ↔
      s ∈ w.segments ∧ seqLo ≤ s.seqHi ∧ s.seqLo ≤ seqHi := by
    intro s
    simp [overlapping, mem_insertionSort]
  refine ⟨hbefore, fun s hs => ((hmem s).mp hs).1, forall_mem_nil _, fun row hrow hin => ?_⟩
  rcases Nat.lt_or_ge w.doc.floor row.seq with hpast | hbelow
  · exact .inr (.inl (h.doc.safe.ordered.live row (hbefore row hrow) hpast))
  · obtain ⟨s, hs, rows, hblob, hrows⟩ := h.archived row (hbefore row hrow) hbelow
    obtain ⟨rows', hblob', hbounds⟩ := (h.segments s hs).blob
    rw [hblob] at hblob'
    cases hblob'
    have hrange := (hbounds row hrows).2
    simp only [inRange, Bool.and_eq_true, decide_eq_true_eq] at hin
    exact .inr (.inr ⟨s, (hmem s).mpr ⟨hs, by omega, by omega⟩, rows, hblob, hrows⟩)

theorem Inv.loadSegment {i : Nat} {r : Read Update} {s : SegmentRow}
    {rest : List SegmentRow} {out : List (UpdateRow Update)} (hi : w.reads[i]? = some r)
    (hp : r.phase = .loading (s :: rest) out) :
    Inv engine (History.loadSegment w i r s rest out) := by
  have hr : ReadOk w r := h.reads r (mem_of_getElem? hi)
  have hs : s ∈ w.segments := by
    have hphase := hr.phase
    rw [hp] at hphase
    exact hphase.1 s mem_cons_self
  rw [History.loadSegment]
  split
  · rename_i rows hcached
    exact h.setRead (readOk_load hr hp (h.segments s hs) (h.cached _ _ hcached).1)
  · split
    · rename_i rows hblob
      have hread := h.setRead (i := i) (readOk_load hr hp (h.segments s hs) hblob)
      refine hread.frame (fun key cachedRows hkey => ?_) hread.seals hread.sealed hread.reads
      rw [lookup_put] at hkey
      split at hkey
      · rename_i heq
        cases hkey
        exact ⟨heq ▸ hblob, s, hs, heq.symm⟩
      · exact h.cached key cachedRows hkey
    · exact h.setRead (readOk_fail hr)

theorem Inv.readTail {seqLo seqHi : Nat} {before out : List (UpdateRow Update)}
    (hr : ReadOk w ⟨seqLo, seqHi, before, .loading [] out⟩) :
    ReadOk w ⟨seqLo, seqHi, before,
      .returned (ordered (out ++ sortBySeq (w.doc.updates.filter (inRange seqLo seqHi))))⟩ := by
  obtain ⟨-, hout, hfind⟩ := hr.phase
  have hlog := h.doc.safe.ordered
  have hcommit : ∀ row ∈ out ++ sortBySeq (w.doc.updates.filter (inRange seqLo seqHi)),
      row ∈ issued w.doc := by
    intro row hrow
    apply mem_append_left
    rcases mem_append.mp hrow with hrow | hrow
    · exact hout row hrow
    · exact hlog.logged row (mem_filter.mp (mem_sortBySeq.mp hrow)).1
  refine ⟨hr.known, pairwise_ordered _, fun row hrow hin => ?_⟩
  apply mem_ordered fun a ha b hb => h.doc.distinct.unique a (hcommit a ha) b (hcommit b hb)
  rcases hfind row hrow hin with hmem | hmem | ⟨s, hs, -⟩
  · exact mem_append_left _ hmem
  · exact mem_append_right _ (mem_sortBySeq.mpr (mem_filter.mpr ⟨hmem, hin⟩))
  · cases hs

theorem Inv.seal {rows : List (UpdateRow Update)} (hc : w.doc.compactions[c]? = some (.merged f))
    (hs : w.seals.lookup c = some (.entries w.doc.floor rows)) (hrows : Sealable w.doc f rows) :
    Inv engine { w.setSeal c (.sealed (some
        ⟨w.doc.floor + 1, f.maxSeq, ⟨w.doc.floor + 1, f.maxSeq⟩⟩)) with
      blobs := put w.blobs ⟨w.doc.floor + 1, f.maxSeq⟩ rows } := by
  have hlt : w.doc.floor < f.maxSeq := (h.doc.folded_le (mem_of_getElem? hc)).1
  have hput := h.putBlob ⟨w.doc.floor + 1, f.maxSeq⟩ rows hlt ?_
  · refine hput.setSeal hc ⟨rfl, rows, ?_, hrows⟩
    simp only [lookup_put, if_true]
  · intro i t ht
    obtain ⟨comp, hcomp, hok⟩ := h.seals i t ht
    refine ⟨comp, hcomp, hok.imp_right ?_⟩
    rintro ⟨g, hg, hseal⟩
    have hbusy : running comp := by
      cases comp with
      | started | readSnapshot | finished => cases hg
      | merged | locked | recounted => rfl
    obtain rfl := h.doc.oneBusy i c comp _ hcomp hc hbusy rfl
    rw [hs] at ht
    cases ht
    exact ⟨g, hg, hseal⟩

theorem inv_step {a : History.Action Update} (hok : HistoryOk w a)
    (hstep : History.step engine w a = some w') : Inv engine w' := by
  revert hok hstep
  fun_cases History.step engine w a <;> intro hok hstep <;> try cases hstep
  · rename_i hseal
    obtain ⟨d, hd, rfl⟩ := map_eq_some_iff.mp hstep
    exact h.doc_step hok hseal hd
  · rename_i hc
    exact h.setSeal hc rfl
  · rename_i prevSeq hs hc
    obtain rfl : prevSeq = w.doc.floor := h.sealOk hc hs
    exact h.setSeal hc ⟨rfl, h.sealRows hc⟩
  · rename_i hs hc hempty
    obtain ⟨rfl, hrows⟩ := h.sealOk hc hs
    rw [List.isEmpty_iff.mp hempty] at hrows
    exact h.setSeal hc hrows
  · rename_i hs hc _ _
    obtain ⟨rfl, hrows⟩ := h.sealOk hc hs
    exact h.seal hc hs hrows
  · exact h.frame h.cached h.seals h.sealed (forall_mem_concat h.reads (readOk_begin w _ _))
  · rename_i hi
    exact h.setRead (h.readSegments (h.reads _ (mem_of_getElem? hi)).known)
  · rename_i hi
    exact h.loadSegment hi rfl
  · rename_i hi _
    exact h.setRead (h.readTail (h.reads _ (mem_of_getElem? hi)))
  · rename_i hi
    exact h.setRead (readOk_fail (h.reads _ (mem_of_getElem? hi)))
  · refine h.frame (fun k rows hk => ?_) h.seals h.sealed h.reads
    rw [lookup_drop] at hk
    split at hk
    · cases hk
    · exact h.cached k rows hk

end

/-- In every such run each history read that returns is complete. -/
theorem historyComplete_run (engine : MergeEngine Update State)
    (trace : List (History.Action Update)) (w : World Update State)
    (hok : Along (History.step engine) HistoryOk World.empty trace)
    (hrun : run (History.step engine) World.empty trace = some w) : HistoryComplete w := by
  have hinv : Inv engine w :=
    run_invariant (fun _ _ _ h => inv_step h) inv_empty hok hrun
  exact fun r hr => (hinv.reads r hr).complete

end

section

open Fabriq.Document.CompactionSafety (idEngine)

def append (i update : Nat) : List (History.Action Nat) :=
  [.doc .beginAppend, .doc (.insert i update), .doc (.commitAppend i)]

def foldAndSeal (c : Nat) : List (History.Action Nat) :=
  [.doc .beginCompact, .doc (.readSnapshot c), .doc (.readLog c), .sealFloor c, .sealRows c,
   .putBlob c]

def trim (c : Nat) : List (History.Action Nat) :=
  [.doc (.lockCompact c), .doc (.recount c), .doc (.commitCompact c)]

/-- A compaction moves the only row from the log to the index between the two reads. -/
def readAcrossTrim : List (History.Action Nat) :=
  append 0 10 ++ [.beginRead 1 1, .readSegments 0] ++ foldAndSeal 0 ++ trim 0 ++ [.readTail 0]

/-- The second compaction seals the rows 1 and 3 while row 2 is in flight, and recounts the rows
2 and 3 after the first has trimmed row 1. -/
def overlappingCompactions : List (History.Action Nat) :=
  append 0 10 ++ foldAndSeal 0 ++
    [.doc .beginAppend, .doc (.insert 1 20), .doc .beginAppend, .doc (.insert 2 30),
     .doc (.commitAppend 2)] ++ foldAndSeal 1 ++ [.doc (.commitAppend 1)] ++ trim 0 ++ trim 1 ++
    [.beginRead 1 3, .readSegments 0, .loadSegment 0, .loadSegment 0, .readTail 0]

theorem history_loses_row : (∃ w, run (History.step idEngine) World.empty readAcrossTrim = some w ∧
      ¬ HistoryComplete w) ∧
    ∃ w, run (History.step idEngine) World.empty overlappingCompactions = some w ∧
      ¬ HistoryComplete w := by
  refine ⟨⟨_, rfl, fun h => ?_⟩, _, rfl, fun h => ?_⟩
  · exact absurd (h _ (.head _) _ rfl) (by decide +kernel)
  · exact absurd (h _ (.head _) _ rfl) (by decide +kernel)

def readBeforeTrim : List (History.Action Nat) :=
  append 0 10 ++ foldAndSeal 0 ++ trim 0 ++ append 1 20 ++
    [.beginRead 1 2, .readSegments 0, .loadSegment 0] ++ foldAndSeal 1 ++ [.readTail 0] ++ trim 1

theorem historyComplete_readBeforeTrim :
    ∃ w, run (History.step idEngine) World.empty readBeforeTrim = some w ∧
      (w.reads.map Read.before, w.doc.updates) = ([[⟨1, 10⟩, ⟨2, 20⟩]], []) ∧
        HistoryComplete w := by
  exact ⟨_, rfl, by decide +kernel,
    historyComplete_run idEngine readBeforeTrim _ (by decide +kernel) rfl⟩

end

end Fabriq.Document.HistoryComplete
