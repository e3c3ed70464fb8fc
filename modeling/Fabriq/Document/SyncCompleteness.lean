import Fabriq.Document.CompactionSafety

/-!
Incremental sync of one client.  A client that passes back the cursor of its previous page misses
an update that commits late, or that a compaction trims between the two statements of a page
read; without either, the pages up to an empty one carry every committed update.
-/

namespace Fabriq.Document.SyncCompleteness

open Document.CompactionSafety Document.LogOrder Document.Store Lib.Machine List Option

def syncPageLimit : Nat := 500

structure SyncPayload (Update State : Type*) where
  seq : Nat
  snapshot : Option State
  updates : List Update

/-- A `Sync` call between its two statements: the seq its log read starts after and the snapshot
it sends if the client was behind it. -/
structure SyncRead (State : Type*) where
  since : Nat
  snapshot : Option State

structure Client (State : Type*) where
  cursor : Nat
  received : State
  reading : Option (SyncRead State)

structure Session (Update State : Type*) where
  doc : Doc Update State
  client : Client State

inductive SyncAction (Update : Type*) where
  | doc (a : Action Update)
  | readSnapshot
  | readPage

variable {Update State : Type*}

def readSince (d : Doc Update State) (since : Nat) : SyncRead State :=
  if since < d.floor then ⟨d.floor, d.snapshot.map SnapshotRow.snapshot⟩
  else ⟨since, none⟩

def syncPage (d : Doc Update State) (read : SyncRead State) : List (UpdateRow Update) :=
  (rowsAfter d.updates read.since).take syncPageLimit

def syncPayload (d : Doc Update State) (read : SyncRead State) : SyncPayload Update State :=
  { seq := lastRowSeq (syncPage d read) read.since
    snapshot := read.snapshot
    updates := (syncPage d read).map UpdateRow.updateData }

section

variable [SemilatticeSup State] [OrderBot State] (engine : MergeEngine Update State)

def Client.receive (client : Client State) (payload : SyncPayload Update State) : Client State :=
  { cursor := payload.seq
    received := payload.updates.foldl (fun state update => state ⊔ engine.changes update)
      (client.received ⊔ payload.snapshot.getD ⊥)
    reading := none }

def syncStep (s : Session Update State) : SyncAction Update → Option (Session Update State)
  | .doc a => (step engine s.doc a).map fun d => { s with doc := d }
  | .readSnapshot =>
    match s.client.reading with
    | none =>
      let read := readSince s.doc s.client.cursor
      some { s with client := { s.client with reading := some read } }
    | some _ => none
  | .readPage =>
    match s.client.reading with
    | some read =>
      some { s with client := s.client.receive engine (syncPayload s.doc read) }
    | none => none

def Session.start : Session Update State :=
  { doc := Doc.empty, client := { cursor := 0, received := ⊥, reading := none } }

def ReceivedAll (s : Session Update State) : Prop :=
  ∀ row ∈ s.doc.committed, engine.changes row.updateData ≤ s.client.received

end

def emptyPage (s : Session Update State) : Bool :=
  match s.client.reading with
  | some read => (syncPage s.doc read).isEmpty
  | none => false

/-- No append is in flight below the end of the page that is read, no compaction has trimmed the
log past its start, and none writes over a moved watermark. -/
def settled (s : Session Update State) : SyncAction Update → Bool
  | .doc a => floorUnmoved s.doc a
  | .readSnapshot => true
  | .readPage =>
    match s.client.reading with
    | some read =>
      decide (s.doc.floor ≤ read.since) &&
        s.doc.inFlight.all fun row => (syncPayload s.doc read).seq < row.seq
    | none => true

def lateCommit : List (SyncAction Nat) :=
  [.doc .beginAppend, .doc (.insert 0 10), .doc .beginAppend, .doc (.insert 1 20),
   .doc (.commitAppend 1), .readSnapshot, .readPage, .doc (.commitAppend 0), .readSnapshot]

theorem lateCommit_not_receivedAll :
    ∃ s t, run (syncStep idEngine) Session.start lateCommit = some s ∧
      s.doc.sharedHeld = false ∧ emptyPage s = true ∧
      syncStep idEngine s .readPage = some t ∧ ¬ ReceivedAll idEngine t := by
  refine ⟨_, _, rfl, rfl, by decide, rfl, fun hall => ?_⟩
  exact absurd (hall ⟨1, 10⟩ (by decide)) (by decide)

variable {d : Doc Update State}

theorem mem_take_of_seq_le {rows : List (UpdateRow Update)} {limit since : Nat}
    (hsorted : rows.Pairwise fun a b => a.seq ≤ b.seq)
    (hinj : ∀ a ∈ rows, ∀ b ∈ rows, a.seq = b.seq → a = b)
    {row : UpdateRow Update} (hrow : row ∈ rows) (hsince : since < row.seq)
    (hle : row.seq ≤ lastRowSeq (rows.take limit) since) : row ∈ rows.take limit := by
  rcases eq_or_ne (rows.take limit) [] with hnil | hpage
  · rw [hnil] at hle
    exact absurd hsince (Nat.not_lt.mpr hle)
  · obtain ⟨last, hlast, hseq⟩ := lastRowSeq_mem hpage since
    rw [← take_append_drop limit rows] at hrow hsorted
    rcases mem_append.mp hrow with htake | hdrop
    · exact htake
    · have hge := (pairwise_append.mp hsorted).2.2 last hlast row hdrop
      have heq : row = last := hinj row (mem_of_mem_drop hdrop) last
        (mem_of_mem_take hlast) (Nat.le_antisymm (hseq ▸ hle) hge)
      exact heq ▸ hlast

section

variable [SemilatticeSup State] [OrderBot State] {engine : MergeEngine Update State}
  {e : Doc Update State} {s t : Session Update State}

/-- `state` holds every update up to `since` that has committed or can still
commit. -/
structure Covers (engine : MergeEngine Update State) (d : Doc Update State)
    (since : Nat) (state : State) : Prop where
  since_le : since ≤ d.lastSeq
  committed : ∀ row ∈ d.committed, row.seq ≤ since →
    engine.changes row.updateData ≤ state
  inFlight : ∀ row ∈ d.inFlight, since < row.seq

theorem Covers.step {since : Nat} {state : State} (h : Covers engine d since state)
    {a : Action Update} (hstep : Store.step engine d a = some e) : Covers engine e since state := by
  obtain ⟨hseq, hcommit, hflight⟩ := step_history engine hstep
  refine ⟨h.since_le.trans hseq, ?_, ?_⟩
  · intro row hrow hle
    rcases hcommit row hrow with hold | hnew
    · exact h.committed row hold hle
    · exact absurd (h.inFlight row hnew) (Nat.not_lt.mpr hle)
  · intro row hrow
    rcases hflight row hrow with hold | hnew
    · exact h.inFlight row hold
    · exact h.since_le.trans_lt hnew

structure SyncInv (engine : MergeEngine Update State) (s : Session Update State) :
    Prop where
  doc : Inv engine s.doc
  seqs : Distinct s.doc
  client : Covers engine s.doc s.client.cursor s.client.received
  reading : ∀ read ∈ s.client.reading,
    Covers engine s.doc read.since (s.client.received ⊔ read.snapshot.getD ⊥)

theorem syncInv_start : SyncInv engine (Session.start : Session Update State) where
  doc := inv_empty
  seqs := distinct_empty
  client := ⟨le_rfl, by simp [Session.start, Doc.empty],
    by simp [Session.start, Doc.empty, Doc.inFlight]⟩
  reading := by simp [Session.start]

theorem covers_readSince (h : SyncInv engine s) :
    Covers engine s.doc (readSince s.doc s.client.cursor).since
      (s.client.received ⊔ (readSince s.doc s.client.cursor).snapshot.getD ⊥) := by
  unfold readSince
  split
  · refine ⟨h.doc.ordered.trimmed_le, ?_, fun row hrow => (h.doc.ordered.inFlight row hrow).1⟩
    intro row hrow hle
    have hfolded := h.doc.folded row hrow hle
    exact hfolded.trans le_sup_right
  · refine ⟨h.client.since_le, ?_, h.client.inFlight⟩
    intro row hrow hle
    exact (h.client.committed row hrow hle).trans le_sup_left

theorem le_receive (engine : MergeEngine Update State) (d : Doc Update State)
    (client : Client State) (read : SyncRead State) :
    client.received ⊔ read.snapshot.getD ⊥ ≤ (client.receive engine (syncPayload d read)).received ∧
      ∀ row ∈ syncPage d read, engine.changes row.updateData ≤
        (client.receive engine (syncPayload d read)).received := by
  have hfold : (client.receive engine (syncPayload d read)).received =
      (syncPage d read).foldl (fold engine) (client.received ⊔ read.snapshot.getD ⊥) := by
    simp only [Client.receive, syncPayload, foldl_map]
    rfl
  rw [hfold]
  exact le_foldl_fold engine _ _

theorem covers_receive (h : SyncInv engine s) {read : SyncRead State}
    (hread : read ∈ s.client.reading) (hfloor : s.doc.floor ≤ read.since)
    (hflight : ∀ row ∈ s.doc.inFlight, (syncPayload s.doc read).seq < row.seq) :
    Covers engine s.doc (syncPayload s.doc read).seq
      (s.client.receive engine (syncPayload s.doc read)).received := by
  have hcovers := h.reading read hread
  obtain ⟨hkept, hpage⟩ := le_receive engine s.doc s.client read
  refine ⟨?_, ?_, hflight⟩
  · apply lastRowSeq_le hcovers.since_le
    intro row hrow
    exact (h.doc.ordered.stored row (mem_rowsAfter.mp (mem_of_mem_take hrow)).1).2
  · intro row hrow hle
    rcases Nat.lt_or_ge read.since row.seq with hsince | hsince
    · have hlog := h.doc.ordered.live row hrow (hfloor.trans_lt hsince)
      apply hpage row
      apply mem_take_of_seq_le (pairwise_sorted _) ?_
        (mem_rowsAfter.mpr ⟨hlog, hsince⟩) hsince hle
      have hissued : ∀ a ∈ rowsAfter s.doc.updates read.since, a ∈ issued s.doc := fun a ha =>
        mem_append_left _ (h.doc.ordered.logged a (mem_rowsAfter.mp ha).1)
      exact fun a ha b hb => h.seqs.unique a (hissued a ha) b (hissued b hb)
    · exact (hcovers.committed row hrow hsince).trans hkept

theorem syncInv_step (h : SyncInv engine s) {a : SyncAction Update}
    (hok : settled s a) (hstep : syncStep engine s a = some t) : SyncInv engine t := by
  cases a with
  | doc a =>
    obtain ⟨e, he, rfl⟩ := map_eq_some_iff.mp hstep
    exact ⟨inv_step h.doc hok he, h.seqs.step he,
      h.client.step he, fun read hread => (h.reading read hread).step he⟩
  | readSnapshot =>
    simp only [syncStep] at hstep
    split at hstep
    · cases hstep
      refine ⟨h.doc, h.seqs, h.client, ?_⟩
      intro read hread
      have hcovers := covers_readSince h
      rw [some.inj hread] at hcovers
      exact hcovers
    · cases hstep
  | readPage =>
    simp only [syncStep] at hstep
    split at hstep
    · rename_i read hread
      cases hstep
      simp only [settled, hread, Bool.and_eq_true, decide_eq_true_eq, List.all_eq_true] at hok
      exact ⟨h.doc, h.seqs, covers_receive h hread hok.1 hok.2,
        fun _ hnone => by simp [Client.receive] at hnone⟩
    · cases hstep

/-- In every settled run, a client that has read an empty page holds every update committed by
then. -/
theorem receivedAll_of_settled (engine : MergeEngine Update State)
    (trace : List (SyncAction Update)) (s t : Session Update State)
    (hok : Along (syncStep engine) (fun s a => settled s a) Session.start (trace ++ [.readPage]))
    (hrun : run (syncStep engine) Session.start trace = some s) (hempty : emptyPage s = true)
    (hlast : syncStep engine s .readPage = some t) : ReceivedAll engine t := by
  obtain ⟨hpre, hpost⟩ := along_append.mp hok
  have hs : SyncInv engine s :=
    run_invariant (fun _ _ _ h => syncInv_step h) syncInv_start hpre hrun
  have hsettled := (hpost s hrun).1
  have ht := syncInv_step hs hsettled hlast
  simp only [syncStep] at hlast
  split at hlast
  · rename_i read hread
    cases hlast
    simp only [settled, hread, Bool.and_eq_true, decide_eq_true_eq] at hsettled
    have hpage : syncPage s.doc read = [] := by
      simpa [emptyPage, hread] using hempty
    have hcursor : (syncPayload s.doc read).seq = read.since := by
      simp [syncPayload, hpage, lastRowSeq]
    intro row hrow
    apply ht.client.committed row hrow
    change row.seq ≤ (syncPayload s.doc read).seq
    rw [hcursor]
    -- a row past the cursor would be in the log, hence on the page
    by_contra hpast
    have hsince : read.since < row.seq := Nat.lt_of_not_le hpast
    have hmem := mem_rowsAfter.mpr
      ⟨hs.doc.ordered.live row hrow (hsettled.1.trans_lt hsince), hsince⟩
    have hnil : rowsAfter s.doc.updates read.since = [] := by
      simpa [syncPage, syncPageLimit] using hpage
    rw [hnil] at hmem
    simp at hmem
  · cases hlast

end

def orderedSync : List (SyncAction Nat) :=
  [.doc .beginAppend, .doc (.insert 0 10), .doc (.commitAppend 0),
   .readSnapshot, .readPage,
   .doc .beginAppend, .doc (.insert 1 20), .doc (.commitAppend 1),
   .doc .beginCompact, .doc (.readSnapshot 0), .doc (.readLog 0), .doc (.lockCompact 0),
   .doc (.recount 0), .doc (.commitCompact 0),
   .readSnapshot]

theorem receivedAll_orderedSync :
    ∃ s t, run (syncStep idEngine) Session.start orderedSync = some s ∧
      syncStep idEngine s .readPage = some t ∧ t.doc.committed.length = 2 ∧
      ReceivedAll idEngine t := by
  exact ⟨_, _, rfl, rfl, by decide, receivedAll_of_settled idEngine orderedSync _ _ (by decide) rfl
    (by decide) rfl⟩

end Fabriq.Document.SyncCompleteness
