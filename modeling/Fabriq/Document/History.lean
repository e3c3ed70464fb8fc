import Mathlib.Data.List.Destutter
import Fabriq.Document.Store
import Fabriq.Lib.Assoc

/-!
The history of one document with archiving on.  A compaction seals the rows it will trim into a
blob before its transaction, and records the blob in the segment index in the transaction that
trims the log; `ReadHistory` reads the index and the log in two transactions.
-/

namespace Fabriq.Document.History

open Document.Store Lib Lib.Assoc List

/-- `segmentKey` of a range of the document. -/
structure SegmentKey where
  seqLo : Nat
  seqHi : Nat
  deriving DecidableEq

structure SegmentRow where
  seqLo : Nat
  seqHi : Nat
  blobKey : SegmentKey

/-- How far `sealSegment` is: it reads the watermark, then the rows, and puts the blob; without
rows there is no segment. -/
inductive Seal (Update : Type*) where
  | floor (prevSeq : Nat)
  | entries (prevSeq : Nat) (rows : List (UpdateRow Update))
  | sealed (segment : Option SegmentRow)

inductive Phase (Update : Type*) where
  | begun
  | loading (segs : List SegmentRow) (out : List (UpdateRow Update))
  | returned (updates : List (UpdateRow Update))
  | failed

/-- A `ReadHistory(seqLo, seqHi)`, with the history variable of the rows that had
been committed when it began. -/
structure Read (Update : Type*) where
  seqLo : Nat
  seqHi : Nat
  before : List (UpdateRow Update)
  phase : Phase Update

structure World (Update State : Type*) where
  doc : Doc Update State
  seals : List (Nat × Seal Update)
  blobs : List (SegmentKey × List (UpdateRow Update))
  segments : List SegmentRow
  segCache : List (SegmentKey × List (UpdateRow Update))
  reads : List (Read Update)

inductive Action (Update : Type*) where
  | doc (a : Store.Action Update)
  | sealFloor (c : Nat)
  | sealRows (c : Nat)
  | putBlob (c : Nat)
  | beginRead (seqLo seqHi : Nat)
  | readSegments (h : Nat)
  | loadSegment (h : Nat)
  | readTail (h : Nat)
  | failRead (h : Nat)
  | evict (key : SegmentKey)

section

variable {Update State : Type*}

def inRange (seqLo seqHi : Nat) (row : UpdateRow Update) : Bool :=
  seqLo ≤ row.seq && row.seq ≤ seqHi

def sortBySeq (rows : List (UpdateRow Update)) : List (UpdateRow Update) :=
  rows.insertionSort fun a b => a.seq ≤ b.seq

/-- The sort and the defensive de-duplication at the end of `ReadHistory`. -/
def ordered (out : List (UpdateRow Update)) : List (UpdateRow Update) :=
  (sortBySeq out).destutter fun a b => a.seq ≠ b.seq

variable {first row : UpdateRow Update} {rows : List (UpdateRow Update)}

theorem mem_sortBySeq : row ∈ sortBySeq rows ↔ row ∈ rows := mem_insertionSort _

theorem pairwise_destutter' (hsorted : (first :: rows).Pairwise fun a b => a.seq ≤ b.seq) :
    (rows.destutter' (fun a b => a.seq ≠ b.seq) first).Pairwise fun a b => a.seq < b.seq := by
  induction rows generalizing first with
  | nil => exact pairwise_singleton _ _
  | cons row rows ih =>
    obtain ⟨hfirst, hrest⟩ := pairwise_cons.mp hsorted
    by_cases hseq : first.seq = row.seq
    · rw [List.destutter'_cons_neg _ (not_not.mpr hseq)]
      refine ih (pairwise_cons.mpr ⟨fun u hu => ?_, (pairwise_cons.mp hrest).2⟩)
      exact hfirst u (mem_cons_of_mem _ hu)
    · rw [List.destutter'_cons_pos _ hseq]
      refine pairwise_cons.mpr ⟨fun u hu => ?_, ih hrest⟩
      have hlt : first.seq < row.seq := Nat.lt_of_le_of_ne (hfirst row mem_cons_self) hseq
      rcases mem_cons.mp ((List.destutter'_sublist _ _ row).subset hu) with rfl | hmem
      · exact hlt
      · exact Nat.lt_of_lt_of_le hlt ((pairwise_cons.mp hrest).1 u hmem)

theorem pairwise_ordered (out : List (UpdateRow Update)) :
    (ordered out).Pairwise fun a b => a.seq < b.seq := by
  have hsorted : (sortBySeq out).Pairwise _ := pairwise_sorted out
  rw [ordered]
  cases hrows : sortBySeq out with
  | nil => exact List.Pairwise.nil
  | cons first rows => exact pairwise_destutter' (hrows ▸ hsorted)

theorem exists_mem_destutter' (hrow : row ∈ first :: rows) :
    ∃ kept ∈ rows.destutter' (fun a b => a.seq ≠ b.seq) first, kept.seq = row.seq := by
  induction rows generalizing first row with
  | nil => exact ⟨first, mem_singleton_self _, by rw [mem_singleton.mp hrow]⟩
  | cons next rows ih =>
    by_cases hseq : first.seq = next.seq
    · rw [List.destutter'_cons_neg _ (not_not.mpr hseq)]
      rcases mem_cons.mp hrow with rfl | hrow
      · exact ih mem_cons_self
      · rcases mem_cons.mp hrow with rfl | hrow
        · rw [← hseq]
          exact ih mem_cons_self
        · exact ih (mem_cons_of_mem _ hrow)
    · rw [List.destutter'_cons_pos _ hseq]
      rcases mem_cons.mp hrow with rfl | hrow
      · exact ⟨row, mem_cons_self, rfl⟩
      · obtain ⟨kept, hkept, heq⟩ := ih hrow
        exact ⟨kept, mem_cons_of_mem _ hkept, heq⟩

theorem exists_mem_ordered {out : List (UpdateRow Update)} (hrow : row ∈ out) :
    ∃ kept ∈ ordered out, kept.seq = row.seq := by
  have hmem := mem_sortBySeq.mpr hrow
  rw [ordered]
  cases hrows : sortBySeq out with
  | nil => rw [hrows] at hmem; cases hmem
  | cons first rows => exact exists_mem_destutter' (hrows ▸ hmem)

theorem mem_ordered {out : List (UpdateRow Update)}
    (hunique : ∀ a ∈ out, ∀ b ∈ out, a.seq = b.seq → a = b) (hrow : row ∈ out) :
    row ∈ ordered out := by
  have hsub : ∀ u ∈ ordered out, u ∈ out :=
    fun u hu => mem_sortBySeq.mp ((destutter_sublist _ _).subset hu)
  obtain ⟨kept, hkept, hseq⟩ := exists_mem_ordered hrow
  exact hunique kept (hsub kept hkept) row hrow hseq ▸ hkept

def World.empty : World Update State where
  doc := Doc.empty
  seals := []
  blobs := []
  segments := []
  segCache := []
  reads := []

def World.setSeal (w : World Update State) (c : Nat) (s : Seal Update) : World Update State :=
  { w with seals := put w.seals c s }

def World.setRead (w : World Update State) (h : Nat) (r : Read Update) : World Update State :=
  { w with reads := w.reads.set h r }

def sealedFor (w : World Update State) : Store.Action Update → Bool
  | .lockCompact c =>
    match w.seals.lookup c with
    | some (.sealed _) => true
    | _ => false
  | _ => true

def segmentsAfter (w : World Update State) : Store.Action Update → List SegmentRow
  | .commitCompact c =>
    match w.seals.lookup c with
    | some (.sealed (some segment)) => w.segments ++ [segment]
    | _ => w.segments
  | _ => w.segments

theorem segmentsAfter_of_not_commits {w : World Update State} {a : Store.Action Update}
    (ha : a.commits = false) : segmentsAfter w a = w.segments := by
  cases a with
  | commitCompact => cases ha
  | _ => rfl

/-- The index rows that overlap the range, in the order of `seq_lo`. -/
def overlapping (w : World Update State) (seqLo seqHi : Nat) : List SegmentRow :=
  (w.segments.filter fun s => seqLo ≤ s.seqHi && s.seqLo ≤ seqHi).insertionSort
    fun a b => a.seqLo ≤ b.seqLo

/-- `loadSegment` for the next index row: from the cache, else from the blob store, whose answer
is cached; a missing blob is an error. -/
def loadSegment (w : World Update State) (h : Nat) (r : Read Update) (s : SegmentRow)
    (rest : List SegmentRow) (out : List (UpdateRow Update)) : World Update State :=
  let load (rows : List (UpdateRow Update)) : Read Update :=
    { r with phase := .loading rest (out ++ rows.filter (inRange r.seqLo r.seqHi)) }
  match w.segCache.lookup s.blobKey with
  | some rows => w.setRead h (load rows)
  | none =>
    match w.blobs.lookup s.blobKey with
    | some rows =>
      { w.setRead h (load rows) with segCache := put w.segCache s.blobKey rows }
    | none => w.setRead h { r with phase := .failed }

variable [SemilatticeSup State] [OrderBot State] (engine : MergeEngine Update State)

def step (w : World Update State) : Action Update → Option (World Update State)
  | .doc a =>
    if sealedFor w a then
      (Store.step engine w.doc a).map fun d =>
        { w with doc := d, segments := segmentsAfter w a }
    else none
  | .sealFloor c =>
    match w.doc.compactions[c]?, w.seals.lookup c with
    | some (.merged _), none => some (w.setSeal c (.floor w.doc.floor))
    | _, _ => none
  | .sealRows c =>
    match w.doc.compactions[c]?, w.seals.lookup c with
    | some (.merged f), some (.floor prevSeq) =>
      some (w.setSeal c
        (.entries prevSeq (sortBySeq (rowsIn w.doc.updates prevSeq f.maxSeq))))
    | _, _ => none
  | .putBlob c =>
    match w.doc.compactions[c]?, w.seals.lookup c with
    | some (.merged f), some (.entries prevSeq rows) =>
      if rows.isEmpty then some (w.setSeal c (.sealed none))
      else
        let key : SegmentKey := ⟨prevSeq + 1, f.maxSeq⟩
        some { w.setSeal c (.sealed (some ⟨prevSeq + 1, f.maxSeq, key⟩)) with
          blobs := put w.blobs key rows }
    | _, _ => none
  | .beginRead seqLo seqHi =>
    let phase := if seqHi < seqLo then .returned [] else .begun
    some { w with reads := w.reads ++ [⟨seqLo, seqHi, w.doc.committed, phase⟩] }
  | .readSegments h =>
    match w.reads[h]? with
    | some ⟨seqLo, seqHi, before, .begun⟩ =>
      some (w.setRead h ⟨seqLo, seqHi, before, .loading (overlapping w seqLo seqHi) []⟩)
    | _ => none
  | .loadSegment h =>
    match w.reads[h]? with
    | some ⟨seqLo, seqHi, before, .loading (s :: rest) out⟩ =>
      some (loadSegment w h ⟨seqLo, seqHi, before, .loading (s :: rest) out⟩ s rest out)
    | _ => none
  | .readTail h =>
    match w.reads[h]? with
    | some ⟨seqLo, seqHi, before, .loading [] out⟩ =>
      let rows := sortBySeq (w.doc.updates.filter (inRange seqLo seqHi))
      some (w.setRead h ⟨seqLo, seqHi, before, .returned (ordered (out ++ rows))⟩)
    | _ => none
  | .failRead h =>
    match w.reads[h]? with
    | some r => some (w.setRead h { r with phase := .failed })
    | none => none
  | .evict key => some { w with segCache := Assoc.drop w.segCache key }

end

variable {Update State : Type*}

/-- What `ReadHistory` promises: the order of the seqs, no repetition, and every row of the range
that was committed before the call. -/
def Read.Complete (r : Read Update) : Prop :=
  ∀ updates, r.phase = .returned updates →
    (updates.Pairwise fun a b => a.seq < b.seq) ∧
      ∀ row ∈ r.before, inRange r.seqLo r.seqHi row = true → row ∈ updates

def HistoryComplete (w : World Update State) : Prop :=
  ∀ r ∈ w.reads, r.Complete

def running {State : Type*} : Compaction State → Bool
  | .finished => false
  | _ => true

def Phase.between : Phase Update → Bool
  | .loading _ _ => true
  | _ => false

/-- Compactions of the document follow one another, and none of them commits
while a `ReadHistory` is between its two reads. -/
def HistoryOk (w : World Update State) : Action Update → Prop
  | .doc .beginCompact => ∀ c ∈ w.doc.compactions, running c = false
  | .doc (.commitCompact _) => ∀ r ∈ w.reads, r.phase.between = false
  | _ => True

instance {w : World Update State} : (a : Action Update) → Decidable (HistoryOk w a)
  | .doc .beginCompact =>
    inferInstanceAs (Decidable (∀ c ∈ w.doc.compactions, running c = false))
  | .doc (.commitCompact _) =>
    inferInstanceAs (Decidable (∀ r ∈ w.reads, r.phase.between = false))
  | .doc .allocate | .doc .beginAppend | .doc (.insert _ _) | .doc (.commitAppend _)
  | .doc (.abortAppend _) | .doc (.readSnapshot _) | .doc (.readLog _) | .doc (.lockCompact _)
  | .doc (.recount _) | .doc (.abortCompact _) | .sealFloor _ | .sealRows _ | .putBlob _
  | .beginRead _ _ | .readSegments _ | .loadSegment _ | .readTail _ | .failRead _
  | .evict _ => isTrue trivial

end Fabriq.Document.History
