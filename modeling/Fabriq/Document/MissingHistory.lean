import Fabriq.Document.History
import Fabriq.Lib.Machine

/-!
Calls of `Compact`, `ReadHistory` and `DeleteHistory` on a document, one after another, over a
blob store that may fail.
-/

namespace Fabriq.Document.MissingHistory

open Document.Store Document.History Lib.Assoc Lib.Machine List Option

/-- `load` is a `loadSegment` that finds the blob.  A `DeleteHistory` gets as far as `deleted`
blobs, and to its end if it is `indexed`. -/
inductive Call (Update State : Type*) where
  | append (row : UpdateRow Update)
  | compact (maxSeq : Nat) (state : State)
  | load (key : SegmentKey)
  | evict (key : SegmentKey)
  | deleteHistory (deleted : Nat) (indexed : Bool)

variable {Update State : Type*}

def step (w : World Update State) : Call Update State → Option (World Update State)
  | .append row => some { w with doc := { w.doc with updates := w.doc.updates ++ [row] } }
  | .compact maxSeq state =>
    if (rowsIn w.doc.updates w.doc.floor maxSeq).isEmpty then none
    else some { w with
      blobs := put w.blobs ⟨w.doc.floor + 1, maxSeq⟩
        (sortBySeq (rowsIn w.doc.updates w.doc.floor maxSeq))
      segments := w.segments ++ [⟨w.doc.floor + 1, maxSeq, ⟨w.doc.floor + 1, maxSeq⟩⟩]
      doc := { w.doc with
        snapshot := some ⟨maxSeq, state⟩
        updates := w.doc.updates.filter fun row => maxSeq < row.seq } }
  | .load key =>
    if w.segments.any (·.blobKey = key) then
      (w.blobs.lookup key).map fun rows => { w with segCache := put w.segCache key rows }
    else none
  | .evict key => some { w with segCache := drop w.segCache key }
  | .deleteHistory deleted indexed =>
    some { w with
      blobs := ((w.segments.take deleted).map SegmentRow.blobKey).foldl drop w.blobs
      -- the cached copies are not dropped but replaced by nil
      segCache := (w.segments.take deleted).map (fun s => (s.blobKey, [])) ++ w.segCache
      segments := if w.segments.length ≤ deleted && indexed then [] else w.segments }

def readBlob (fails : SegmentKey → Bool) (w : World Update State) (key : SegmentKey) :
    Option (List (UpdateRow Update)) :=
  if fails key then none else w.blobs.lookup key

def loadSegment (fails : SegmentKey → Bool) (w : World Update State) (s : SegmentRow) :
    Option (List (UpdateRow Update)) :=
  (w.segCache.lookup s.blobKey).or (readBlob fails w s.blobKey)

/-- The first segment that does not load ends the call with an error. -/
def readHistory (fails : SegmentKey → Bool) (w : World Update State) (seqLo seqHi : Nat) :
    Option (List (UpdateRow Update)) :=
  let segs := overlapping w seqLo seqHi
  if seqHi < seqLo then some []
  else if segs.all fun s => (loadSegment fails w s).isSome then
    let loaded := segs.flatMap fun s => (loadSegment fails w s).getD []
    some (ordered (loaded.filter (inRange seqLo seqHi) ++
      sortBySeq (w.doc.updates.filter (inRange seqLo seqHi))))
  else none

/-- A `ReadHistory` that succeeds could read the blob of every segment of its range, and leaves
none of their updates out. -/
def NeverSilent (fails : SegmentKey → Bool) (w : World Update State) : Prop :=
  ∀ seqLo seqHi updates, seqLo ≤ seqHi → readHistory fails w seqLo seqHi = some updates →
    ∀ s ∈ overlapping w seqLo seqHi, ∃ rows, readBlob fails w s.blobKey = some rows ∧
      ∀ row ∈ rows, inRange seqLo seqHi row → ∃ u ∈ updates, u.seq = row.seq

/-- A `DeleteHistory` that deletes a blob gets to its end. -/
def purgesWhole (w : World Update State) : Call Update State → Bool
  | .deleteHistory deleted indexed => deleted = 0 || w.segments.length ≤ deleted && indexed
  | _ => true

/-- The cache has the blobs of the indexed segments, and not the next segment. -/
structure Inv (w : World Update State) : Prop where
  below : ∀ s ∈ w.segments, s.blobKey.seqHi ≤ w.doc.floor
  keys : ∀ e ∈ w.segCache, e.1.seqHi ≤ w.doc.floor
  copies : ∀ s ∈ w.segments, ∀ rows, w.segCache.lookup s.blobKey = some rows →
    w.blobs.lookup s.blobKey = some rows

variable {w w' : World Update State}

theorem inv_step {a : Call Update State} (h : Inv w) (hok : purgesWhole w a)
    (hstep : step w a = some w') : Inv w' := by
  revert hok hstep
  fun_cases step w a <;> intro hok hstep <;> try cases hstep
  · exact ⟨h.below, h.keys, h.copies⟩
  · rename_i maxSeq _ hrows
    have hlt : w.doc.floor < maxSeq := by
      obtain ⟨row, hrow⟩ := exists_mem_of_ne_nil _ (by simpa using hrows)
      simp only [rowsIn, mem_filter, Bool.and_eq_true, decide_eq_true_eq] at hrow
      omega
    refine ⟨forall_mem_concat (fun s hs => (h.below s hs).trans hlt.le) le_rfl,
      fun e he => (h.keys e he).trans hlt.le, forall_mem_concat (fun s hs rows hcached => ?_) ?_⟩
    · have hne : s.blobKey ≠ ⟨w.doc.floor + 1, maxSeq⟩ := fun heq =>
        hlt.not_ge (by simpa [heq] using h.below s hs)
      rw [lookup_put, if_neg hne]
      exact h.copies s hs rows hcached
    · exact fun rows hcached => absurd (h.keys _ (mem_of_lookup hcached)) hlt.not_ge
  · obtain ⟨rows, hrows, rfl⟩ := map_eq_some_iff.mp hstep
    refine ⟨h.below, fun e he => ?_, fun s hs rows' hcached => ?_⟩
    · rcases mem_put.mp he with rfl | ⟨he, -⟩
      · rename_i hany
        obtain ⟨s, hs, hkey⟩ := any_eq_true.mp hany
        exact of_decide_eq_true hkey ▸ h.below s hs
      · exact h.keys e he
    · rw [lookup_put] at hcached
      split_ifs at hcached with hkey
      · rw [hkey, ← hcached]
        exact hrows
      · exact h.copies s hs rows' hcached
  · refine ⟨h.below, fun e he => h.keys e (mem_drop.mp he).1, fun s hs rows hcached => ?_⟩
    rw [lookup_drop] at hcached
    split_ifs at hcached
    exact h.copies s hs rows hcached
  · rename_i deleted indexed
    by_cases hall : w.segments.length ≤ deleted && indexed
    · rw [if_pos hall]
      refine ⟨forall_mem_nil _, forall_mem_append.mpr ⟨?_, h.keys⟩, forall_mem_nil _⟩
      exact forall_mem_map.mpr fun s hs => h.below s (mem_of_mem_take hs)
    · obtain rfl : deleted = 0 := by simpa [purgesWhole, hall] using hok
      rw [if_neg hall]
      exact ⟨h.below, h.keys, h.copies⟩

/-- In every such run, missing history is an error: a blob that cannot be read must not be in
the cache. -/
theorem missing_never_silent {trace : List (Call Update State)} {w : World Update State}
    {fails : SegmentKey → Bool} (hok : Along step (fun w a => purgesWhole w a) World.empty trace)
    (hrun : run step World.empty trace = some w)
    (hread : ∀ key, fails key → w.segCache.lookup key = none) : NeverSilent fails w := by
  have hinv : Inv w := run_invariant (fun _ _ _ => inv_step)
    ⟨forall_mem_nil _, forall_mem_nil _, forall_mem_nil _⟩ hok hrun
  intro seqLo seqHi updates hle hupdates s hs
  rw [readHistory, if_neg hle.not_gt, ite_none_right_eq_some] at hupdates
  obtain ⟨hall, hupdates⟩ := hupdates
  obtain ⟨rows, hrows⟩ := isSome_iff_exists.mp (all_eq_true.mp hall s hs)
  refine ⟨rows, ?_, fun row hrow hin => ?_⟩
  · rcases or_eq_some_iff.mp hrows with hcached | ⟨-, hread⟩
    · have hanswers : fails s.blobKey ≠ true := fun h => by simp [hread _ h] at hcached
      rw [readBlob, if_neg hanswers]
      exact hinv.copies s (mem_of_mem_filter ((mem_insertionSort _).mp hs)) rows hcached
    · exact hread
  · rw [← some.inj hupdates]
    refine exists_mem_ordered (mem_append_left _ (mem_filter.mpr ⟨?_, hin⟩))
    exact mem_flatMap.mpr ⟨s, hs, by rwa [hrows]⟩

def sealed : List (Call Nat Nat) :=
  [.append ⟨1, 7⟩, .compact 1 7]

def resealed : List (Call Nat Nat) :=
  sealed ++ [.load ⟨1, 1⟩, .deleteHistory 1 true, .append ⟨2, 8⟩, .compact 2 15]

/-- After a whole deletion, the blob of the next segment cannot be read. -/
theorem missing_never_silent_resealed : ∃ w, run step World.empty resealed = some w ∧
      readHistory (· = ⟨2, 2⟩) w 1 2 = none ∧ NeverSilent (· = ⟨2, 2⟩) w := by
  refine ⟨_, rfl, by decide, missing_never_silent (by decide : Along _ _ _ resealed) rfl ?_⟩
  intro key hkey
  rw [of_decide_eq_true hkey]
  rfl

/-- The deletion of the index fails after the blob is gone: the cache then answers with nothing. -/
theorem failed_delete_silent :
    ∃ w, run step World.empty (sealed ++ [.deleteHistory 1 false]) = some w ∧
      ¬ NeverSilent (fun _ => false) w := by
  refine ⟨_, rfl, fun h => ?_⟩
  obtain ⟨rows, hrows, -⟩ := h 1 1 _ le_rfl rfl _ mem_cons_self
  cases hrows

end Fabriq.Document.MissingHistory
