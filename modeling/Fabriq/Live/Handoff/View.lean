import Fabriq.Lib.KeyedLog
import Fabriq.Live.Routing

namespace Fabriq.Live.Handoff

open Core.Value Lib Lib.KeyedLog Lib.Machine Lib.Splice Live.CandidateIndex Live.Dispatcher List
open Live.MaintainedWindow Live.Order Live.Routing Live.Types

/-- One query attached to a partition; `lister` says that a `MemberLister` is
configured. -/
structure Attach where
  engine : Engine
  q : LiveQuery
  lister : Bool

def Attach.key (c : Attach) : String :=
  c.engine.shapeKey c.q

def Attach.pred (c : Attach) : Vals → Bool :=
  compile c.engine.toLower c.q.conds

def Attach.accepts (c : Attach) (ch : Change) : Bool :=
  !ch.deleted && c.pred ch.vals

def Attach.inResult (c : Attach) (log : List Change) (a : String) : Bool :=
  (latest Change.aggId log a).any c.accepts

def Attach.result (c : Attach) (log : List Change) : List Row :=
  Keyset.sortBy (compareCursors c.q.sort) Row.cursor
    (((latestAll Change.aggId log).filter c.accepts).map (rowFromChange c.q.sort))

def Attach.pageLimit (c : Attach) : Nat :=
  match c.q.mode with
  | .streamed => max c.q.limit 1
  | .maintained => c.q.limit + c.engine.cushion

/-- `LiveStore.Snapshot`: a limit of zero is no limit. -/
def Attach.snapshot (c : Attach) (log : List Change) : List Row :=
  if c.pageLimit = 0 then c.result log else (c.result log).take c.pageLimit

def Attach.memberIds (c : Attach) (log : List Change) (page : List Row) : List String :=
  if c.lister then (c.result log).map Row.aggId else page.map Row.aggId

structure State where
  log : List Change
  delivered : String → Nat
  partition : Partition
  page : Option (List Row)
  ids : Option (List String)

def start : State :=
  ⟨[], fun _ => 0, .empty, none, none⟩

def State.history (s : State) (a : String) : List Change :=
  KeyedLog.history Change.aggId s.log a

def State.view (s : State) (c : Attach) : Option View :=
  s.partition.view c.key

inductive Action
  | commit (ch : Change)
  /-- Hand an aggregate's next change to the partition. -/
  | deliver (a : String) (refill : Option (List Row))
  /-- An aggregate's changes are delivered again from an earlier one on. -/
  | rewind (a : String) (pos : Nat)
  | register
  | readPage
  | readIds
  | activate (refills : List (Option (List Row)))
  | failSeed

def seedIds (c : Attach) (s : State) : Option (List String) :=
  match c.q.mode with
  | .streamed => s.ids
  | .maintained => some []

def step (c : Attach) (s : State) : Action → Option State
  | .commit ch =>
    if (latest Change.aggId s.log ch.aggId).all fun last =>
        decide (last.version < ch.version) then
      some { s with log := s.log ++ [ch] }
    else none
  | .deliver a refill =>
    ((s.history a)[s.delivered a]?).map fun ch =>
      { s with
        delivered := fun b => if b = a then s.delivered a + 1 else s.delivered b
        partition := s.partition.dispatch ch fun _ => refill }
  | .rewind a pos =>
    if pos < s.delivered a then
      some { s with delivered := fun b => if b = a then pos else s.delivered b }
    else none
  | .register =>
    if (s.view c).isSome then none
    else (Dispatcher.step c.engine s.partition (.create c.q)).map fun p =>
      { s with partition := p }
  | .readPage =>
    if (s.view c).any (fun v => !v.ready) && s.page.isNone then
      some { s with page := some (c.snapshot s.log), ids := none }
    else none
  | .readIds =>
    match s.page with
    | some page =>
      if s.ids.isNone then some { s with ids := some (c.memberIds s.log page) } else none
    | none => none
  | .activate refills =>
    match s.page, seedIds c s with
    | some page, some ids =>
      (Dispatcher.step c.engine s.partition (.activate c.key page ids refills)).map
        fun p => { s with partition := p }
    | _, _ => none
  | .failSeed =>
    (Dispatcher.step c.engine s.partition (.failSeed c.key)).map fun p =>
      { s with partition := p, page := none, ids := none }

/-- Once the view is ready and every change has been dispatched, the view holds the
matching aggregates and no other. -/
def HoldsResult (c : Attach) (s : State) : Prop :=
  ∀ v, s.view c = some v → v.ready = true →
    (∀ a, s.delivered a = (s.history a).length) → ∀ a, v.contains a = c.inResult s.log a

def atSite : Attach where
  engine := engine 1
  q := { byRank with conds := [.leaf "site" .eq (.str "north")] }
  lister := true

def siteChange (id : String) (version : Int) (site : String) : Change :=
  ⟨id, version, false, some [("rank", .num 1), ("site", .str site)], "", "", 0⟩

def leftDuringSnapshot : List Action :=
  [.commit (siteChange "a" 1 "north"), .deliver "a" none, .register, .readPage,
    .commit (siteChange "a" 2 "south"), .deliver "a" none, .activate []]

/-- The row leaves after the snapshot has read it: no index names the view for the change yet,
so it is not buffered. -/
theorem leftDuringSnapshot_not_holdsResult :
    ∃ s, run (step atSite) start leftDuringSnapshot = some s ∧ ¬ HoldsResult atSite s := by
  refine ⟨_, rfl, fun h => ?_⟩
  have ha := h _ rfl rfl (fun a => ?_) "a"
  · revert ha
    decide
  · rcases eq_or_ne a "a" with rfl | hne
    · decide
    · simp [State.history, KeyedLog.history, start, siteChange, hne, Ne.symm hne]

def hasRoom (w : Window) (ch : Change) : Bool :=
  !w.matchesChange ch ||
    if w.contains ch.aggId then decide (w.rows.length ≤ w.cap)
    else decide (w.rows.length < w.cap)

def keepsRows (answer : Option (List Row)) (v : View) (ch : Change) : Bool :=
  match v.q.mode, v.win with
  | .maintained, some w => v.isStale ch || (hasRoom w ch && refillsNothing answer w ch)
  | _, _ => true

def seed (c : Attach) (s : State) (v : View) (page : List Row) (ids : List String) :
    View × Column :=
  seedView c.engine.cushion v (s.partition.column c.key) page ids

/-- If an aggregate's last change was delivered and does not match, it is buffered, or neither
snapshot nor buffer says that it matches. -/
def stopNoticed (c : Attach) (s : State) (v seeded : View) (a : String) : Bool :=
  decide (s.delivered a < (s.history a).length) || c.inResult s.log a ||
    v.pending.any (fun ch => ch.aggId == a && (latest Change.aggId s.log a).any fun last =>
      decide (last.version ≤ ch.version)) ||
    (!seeded.contains a && !v.pending.any fun ch => ch.aggId == a && c.accepts ch)

/-- The snapshot reads the whole result, no stop is missed while it is in flight, and
the result never outgrows the window. -/
def handsOver (c : Attach) (s : State) : Action → Bool
  | .readPage =>
    (decide (c.q.mode = .streamed) && c.lister) ||
      decide ((c.result s.log).length ≤ (c.snapshot s.log).length)
  | .deliver a refill =>
    match (s.history a)[s.delivered a]?, s.view c with
    | some ch, some v =>
      !(v.ready && s.partition.selects ch c.key) || keepsRows refill v ch
    | _, _ => true
  | .activate refills =>
    match s.view c, s.page, seedIds c s with
    | some v, some page, some ids =>
      let seeded := seed c s v page ids
      (s.log.map Change.aggId).all (stopNoticed c s v seeded.1) &&
        drainAll keepsRows refills seeded.1 seeded.2 v.pending
    | _, _, _ => true
  | _ => true

variable {w : Window} {ch : Change} {answer : Option (List Row)}

theorem fitsBuffer_of_hasRoom (h : hasRoom w ch) : fitsBuffer w ch := by
  unfold hasRoom at h
  unfold fitsBuffer
  split_ifs at h ⊢
  · exact h
  · rw [Bool.or_eq_true] at h ⊢
    exact h.imp_right fun hlt => by rw [hlt, Bool.true_or]

theorem contains_edited_self (hnodup : (w.rows.map Row.aggId).Nodup) (hroom : hasRoom w ch) :
    (∃ x ∈ (edited w ch).rows, x.aggId = ch.aggId) ↔ w.matchesChange ch := by
  have hedited := edited_from w ch
  generalize edited w ch = w' at hedited ⊢
  cases hedited with
  | ignored hidx hno =>
    simpa [hno] using indexOf_eq_none.mp hidx
  | skipped hidx hmatch hbehind hfull =>
    have hcont : w.contains ch.aggId = false := by simp [Window.contains, hidx]
    simp [hasRoom, hmatch, hcont] at hroom
    omega
  | inserted hidx hmatch =>
    have hcont : w.contains ch.aggId = false := by simp [Window.contains, hidx]
    have hlt : w.rows.length < w.cap := by simpa [hasRoom, hmatch, hcont] using hroom
    rw [trimTail_of_le (by rw [length_spliceIn]; exact hlt)]
    exact iff_of_true ⟨_, mem_spliceIn.mpr (.inl rfl), rfl⟩ hmatch
  | removed hold hid hno =>
    have hgone := fresh_spliceOut hnodup hold
    rw [hid] at hgone
    simpa [hno] using hgone
  | replaced hold hid hmatch =>
    exact iff_of_true ⟨_, mem_spliceIn.mpr (.inl rfl), rfl⟩ hmatch
  | moved hold hid hmatch =>
    have hcont : w.contains ch.aggId := contains_eq_true.mpr ⟨_, mem_of_getElem? hold, hid⟩
    have hle : w.rows.length ≤ w.cap := by simpa [hasRoom, hmatch, hcont] using hroom
    rw [trimTail_of_le (length_spliceIn_spliceOut hold ▸ hle)]
    exact iff_of_true ⟨_, mem_spliceIn.mpr (.inl rfl), rfl⟩ hmatch

theorem contains_apply_self (hnodup : (w.rows.map Row.aggId).Nodup)
    (hroom : hasRoom w ch) (hrefill : refillsNothing answer w ch) :
    (w.apply (fun _ _ _ => answer) ch).1.contains ch.aggId = w.matchesChange ch := by
  rw [Bool.eq_iff_iff, contains_eq_true, rows_apply hrefill]
  exact contains_edited_self hnodup hroom

variable {c : Attach} {v : View} {column : Column}

/-- The view runs the attached query, and its window holds each aggregate once. -/
structure Formed (c : Attach) (v : View) : Prop where
  query : v.q = c.q
  filter : v.pred = c.pred
  window : v.q.mode = .maintained →
    ∃ w, v.win = some w ∧ w.pred = c.pred ∧ (w.rows.map Row.aggId).Nodup

theorem keepsOthers_of_keepsRows (h : keepsRows answer v ch) : keepsOthers answer v ch := by
  cases hmode : v.q.mode with
  | streamed => simp [keepsOthers, hmode]
  | maintained =>
    cases hwin : v.win with
    | none => simp [keepsOthers, hmode, hwin]
    | some w =>
      simp only [keepsRows, keepsOthers, hmode, hwin, Bool.or_eq_true, Bool.and_eq_true] at h ⊢
      exact h.imp_right fun hw => ⟨fitsBuffer_of_hasRoom hw.1, hw.2⟩

theorem window_keepsRows (hkeep : keepsRows answer v ch) (hfresh : v.isStale ch = false)
    (hmode : v.q.mode = .maintained) (hwin : v.win = some w) :
    hasRoom w ch ∧ refillsNothing answer w ch := by
  simpa [keepsRows, hmode, hwin, hfresh] using hkeep

theorem Formed.contains_absorb_self (h : Formed c v) (hkeep : keepsRows answer v ch)
    (hfresh : v.isStale ch = false) :
    ((v.markSeen ch).absorb (fun _ _ _ => answer) ch).1.contains ch.aggId = c.accepts ch := by
  rw [View.contains, q_absorb]
  cases hmode : v.q.mode with
  | streamed =>
    simp [View.markSeen, View.absorb, hmode, streamMembers_applyStreamed,
      View.matchesChange, h.filter, Attach.accepts]
  | maintained =>
    obtain ⟨w, hwin, hpred, hnodup⟩ := h.window hmode
    obtain ⟨hroom, hrefill⟩ := window_keepsRows hkeep hfresh hmode hwin
    simp only [View.markSeen, View.absorb, hmode, hwin, Option.any_some]
    rw [contains_apply_self hnodup hroom hrefill, Window.matchesChange, hpred, Attach.accepts]

theorem Formed.absorb (h : Formed c v) (hkeep : keepsRows answer v ch)
    (hfresh : v.isStale ch = false) :
    Formed c ((v.markSeen ch).absorb (fun _ _ _ => answer) ch).1 where
  query := q_absorb.trans h.query
  filter := pred_absorb.trans h.filter
  window hmode := by
    rw [q_absorb] at hmode
    have hmode' : v.q.mode = .maintained := hmode
    obtain ⟨w, hwin, hpred, hnodup⟩ := h.window hmode'
    obtain ⟨-, hrefill⟩ := window_keepsRows hkeep hfresh hmode' hwin
    refine ⟨(w.apply (fun _ _ _ => answer) ch).1, ?_, ?_, ?_⟩
    · simp only [View.absorb, View.markSeen, hmode', hwin]
    · have hshape : (w.apply (fun _ _ _ => answer) ch).1.shape.pred = w.shape.pred := by
        rw [shape_apply]
      exact hshape.trans hpred
    · rw [rows_apply hrefill]
      exact nodup_edited ch hnodup

theorem Formed.applyReady (h : Formed c v) (hkeep : keepsRows answer v ch) :
    Formed c (applyReady (fun _ _ _ => answer) v column ch).1.1 := by
  cases hstale : v.isStale ch with
  | true =>
    rw [applyReady_of_stale hstale]
    exact h
  | false =>
    obtain ⟨members, heq⟩ := exists_applyReady _ column hstale
    rw [heq]
    have habsorbed := h.absorb hkeep hstale
    exact ⟨habsorbed.query, habsorbed.filter, habsorbed.window⟩

theorem Formed.contains_applyReady (h : Formed c v) (hkeep : keepsRows answer v ch) (a : String) :
    (Dispatcher.applyReady (fun _ _ _ => answer) v column ch).1.1.contains a =
      if a = ch.aggId ∧ v.isStale ch = false then c.accepts ch else v.contains a := by
  cases hstale : v.isStale ch with
  | true => simp [applyReady_of_stale hstale]
  | false =>
    obtain ⟨members, heq⟩ := exists_applyReady _ column hstale
    rw [heq]
    change ((v.markSeen ch).absorb _ ch).1.contains a = _
    rcases eq_or_ne a ch.aggId with rfl | hne
    · rw [h.contains_absorb_self hkeep hstale, if_pos ⟨rfl, rfl⟩]
    · rw [contains_absorb_of_ne (keepsOthers_of_keepsRows hkeep) hstale hne.symm,
        if_neg fun hself => hne hself.1]

/-- A ready view against the committed changes: a version it has seen is committed, and where it
has seen the last one it holds the aggregate iff that one matches. -/
structure Agrees (c : Attach) (log : List Change) (v : View) (column : Column) : Prop where
  formed : Formed c v
  ready : v.ready = true
  routed : Routed v column
  known : ∀ a, v.contains a = true → history Change.aggId log a ≠ []
  seen_le : ∀ a n, v.seen a = some n →
    ∃ last, latest Change.aggId log a = some last ∧ n ≤ last.version
  current : ∀ a n last, v.seen a = some n → latest Change.aggId log a = some last →
    last.version ≤ n → v.contains a = c.accepts last

variable {log : List Change} {refills : List (Option (List Row))} {pending : List Change}

theorem Agrees.applyReady (h : Agrees c log v column)
    (hordered : Ordered Change.aggId Change.version log)
    (hmem : ch ∈ history Change.aggId log ch.aggId) (hkeep : keepsRows answer v ch) :
    Agrees c log (applyReady (fun _ _ _ => answer) v column ch).1.1
      (applyReady (fun _ _ _ => answer) v column ch).1.2 where
  formed := h.formed.applyReady hkeep
  ready := (h.routed.applyReady h.ready (keepsOthers_of_keepsRows hkeep)).2
  routed := (h.routed.applyReady h.ready (keepsOthers_of_keepsRows hkeep)).1
  known a ha := by
    rw [h.formed.contains_applyReady hkeep] at ha
    split_ifs at ha with hself
    · rw [hself.1]
      exact ne_nil_of_mem hmem
    · exact h.known a ha
  seen_le a n hn := by
    rw [seen_applyReady] at hn
    split_ifs at hn with hself
    · cases hn
      rw [hself.1]
      exact hordered.exists_latest hmem
    · exact h.seen_le a n hn
  current a n last hn hlast hle := by
    rw [seen_applyReady] at hn
    rw [h.formed.contains_applyReady hkeep]
    split_ifs at hn ⊢ with hself
    · cases hn
      rw [hself.1] at hlast
      rw [hordered.eq_latest hlast hmem hle]
    · exact h.current a n last hn hlast hle

theorem Agrees.drain (h : Agrees c log v column)
    (hordered : Ordered Change.aggId Change.version log)
    (hmem : ∀ ch ∈ pending, ch ∈ history Change.aggId log ch.aggId)
    (hkeep : drainAll keepsRows refills v column pending) :
    Agrees c log (drain refills v column pending).1 (drain refills v column pending).2 := by
  refine drain_invariant (P := Agrees c log) (fun answer v column ch hch hone hv => ?_) hkeep h
  exact hv.applyReady hordered (hmem ch hch) hone

theorem Formed.contains_drain (h : Formed c v) {a : String}
    (hsame : ∀ ch ∈ pending, ch.aggId = a → c.accepts ch = v.contains a)
    (hkeep : drainAll keepsRows refills v column pending) :
    (Dispatcher.drain refills v column pending).1.contains a = v.contains a := by
  have hstep : ∀ answer u column ch, ch ∈ pending → keepsRows answer u ch →
      Formed c u ∧ u.contains a = v.contains a →
      Formed c (Dispatcher.applyReady (fun _ _ _ => answer) u column ch).1.1 ∧
        (Dispatcher.applyReady (fun _ _ _ => answer) u column ch).1.1.contains a =
          v.contains a := by
    rintro answer u column ch hch hone ⟨hu, heq⟩
    refine ⟨hu.applyReady hone, ?_⟩
    rw [hu.contains_applyReady hone]
    split_ifs with hself
    · exact hsame ch hch hself.1.symm
    · exact heq
  exact (drain_invariant (P := fun u _ => Formed c u ∧ u.contains a = v.contains a) hstep
    hkeep ⟨h, rfl⟩).2

theorem le_seen_drain (h : ch ∈ pending ∨ ∃ n, v.seen ch.aggId = some n ∧ ch.version ≤ n) :
    ∃ n, (drain refills v column pending).1.seen ch.aggId = some n ∧ ch.version ≤ n := by
  induction pending generalizing refills v column with
  | nil => exact h.resolve_left not_mem_nil
  | cons next rest ih =>
    rw [mem_cons, or_comm (a := ch = next), or_assoc] at h
    exact ih (h.imp_right fun h => le_seen_applyReady _ _ h)

variable {a : String}

theorem mem_result {r : Row} : r ∈ c.result log ↔ ∃ ch, latest Change.aggId log ch.aggId = some ch ∧
      c.accepts ch ∧ rowFromChange c.q.sort ch = r := by
  rw [Attach.result, Keyset.mem_sortBy, mem_map]
  simp only [mem_filter, mem_latestAll, and_assoc]

theorem inResult_eq_true : c.inResult log a ↔
    ∃ ch, latest Change.aggId log a = some ch ∧ c.accepts ch :=
  Option.any_eq_true _ _

theorem exists_mem_result : (∃ r ∈ c.result log, r.aggId = a) ↔ c.inResult log a := by
  simp only [mem_result, inResult_eq_true]
  constructor
  · rintro ⟨-, ⟨ch, hlast, hmatch, rfl⟩, rfl⟩
    exact ⟨ch, hlast, hmatch⟩
  · rintro ⟨ch, hlast, hmatch⟩
    have hid : ch.aggId = a := key_of_latest hlast
    exact ⟨_, ⟨ch, hid.symm ▸ hlast, hmatch, rfl⟩, hid⟩

theorem nodup_result : ((c.result log).map Row.aggId).Nodup := by
  have hperm : (c.result log).Perm _ := perm_insertionSort _ _
  rw [(hperm.map _).nodup_iff, map_map]
  exact nodup_latestAll.sublist ((filter_sublist).map _)

theorem snapshot_sublist : (c.snapshot log).Sublist (c.result log) := by
  unfold Attach.snapshot
  split_ifs
  · exact List.Sublist.refl _
  · exact take_sublist _ _

def seedHeld (c : Attach) (page : List Row) (ids : List String) (a : String) : Bool :=
  match c.q.mode with
  | .streamed => ids.contains a
  | .maintained => page.any fun r => r.aggId == a

def opened (c : Attach) (pending : List Change) : View :=
  { newView c.q c.pred with pending := pending }

theorem contains_seedView (cushion : Nat) (column : Column) (pending : List Change)
    (page : List Row) (ids : List String) :
    (seedView cushion (opened c pending) column page ids).1.contains a = seedHeld c page ids a := by
  unfold seedView View.contains seedHeld
  cases hmode : c.q.mode with
  | streamed => simp [opened, newView, hmode]
  | maintained =>
    simp only [opened, newView, hmode, Option.any_some]
    rw [Bool.eq_iff_iff, contains_eq_true, any_eq_true]
    simp [newWindow]

/-- What a seed holds is the result at one point between the page read, itself after
the registration, and now. -/
structure Fetched (c : Attach) (log : List Change) (page : List Row) (ids : List String)
    (old src : List Change) : Prop where
  old_src : old <+: src
  src_log : src <+: log
  page_eq : page = c.snapshot old
  held_eq : ∀ a, seedHeld c page ids a = c.inResult src a

variable {old : List Change}

theorem Fetched.agrees {page : List Row} {ids : List String} {src : List Change}
    (h : Fetched c log page ids old src) (hordered : Ordered Change.aggId Change.version log)
    (hcolumn : ∀ a, column a = false) (cushion : Nat) (pending : List Change) :
    Agrees c log (seedView cushion (opened c pending) column page ids).1
      (seedView cushion (opened c pending) column page ids).2 := by
  have hidle : Routed (opened c pending) column := by
    have hempty := contains_newView c.q c.pred
    exact ⟨fun a => (hcolumn a).trans (hempty a).symm, fun a => (hempty a).symm,
      fun _ a => hempty a⟩
  have hseen : (seedView cushion (opened c pending) column page ids).1.seen =
      seedSeen (fun _ => none) page := by
    unfold seedView
    split <;> rfl
  have hrow : ∀ a n, (seedView cushion (opened c pending) column page ids).1.seen a =
      some n → ∃ ch, latest Change.aggId old a = some ch ∧ c.accepts ch ∧ ch.version = n := by
    intro a n hn
    rw [hseen] at hn
    obtain ⟨r, hr, rfl, rfl⟩ := (seedSeen_eq_some hn).resolve_left (by simp)
    rw [h.page_eq] at hr
    obtain ⟨ch, hlast, hmatch, rfl⟩ := mem_result.mp (snapshot_sublist.subset hr)
    exact ⟨ch, hlast, hmatch, rfl⟩
  have hold_log : old <+: log := h.old_src.trans h.src_log
  refine ⟨⟨?_, ?_, ?_⟩, ?_, (hidle.seedView rfl cushion page ids).1, ?_, ?_, ?_⟩
  · unfold seedView
    split <;> rfl
  · unfold seedView
    split <;> rfl
  · intro hmode
    have hnodup : (page.map Row.aggId).Nodup := by
      rw [h.page_eq]
      exact nodup_result.sublist (snapshot_sublist.map _)
    unfold seedView at hmode ⊢
    split at hmode
    · simp_all
    · rename_i hmaintained
      exact ⟨_, rfl, rfl, hnodup⟩
  · exact (hidle.seedView rfl cushion page ids).2
  · intro a ha
    rw [contains_seedView, h.held_eq] at ha
    obtain ⟨ch, hlast, -⟩ := inResult_eq_true.mp ha
    exact ne_nil_of_mem ((history_mono h.src_log).subset (mem_of_latest hlast))
  · intro a n hn
    obtain ⟨ch, hold, -, rfl⟩ := hrow a n hn
    exact hordered.exists_latest ((history_mono hold_log).subset (mem_of_latest hold))
  · intro a n last hn hlast hle
    obtain ⟨ch, hold, hmatch, rfl⟩ := hrow a n hn
    obtain rfl := hordered.eq_latest hlast ((history_mono hold_log).subset (mem_of_latest hold)) hle
    rw [contains_seedView, h.held_eq, Attach.inResult,
      hordered.latest_between h.old_src h.src_log hold hlast, Option.any_some]

/-- A page read after the registration; `low` is the first change of each aggregate that
was delivered since. -/
structure PageRead (c : Attach) (log : List Change) (low : String → Nat) (page : List Row)
    (old : List Change) : Prop where
  old_log : old <+: log
  low_le : ∀ a, low a ≤ (history Change.aggId old a).length
  page_eq : page = c.snapshot old
  whole : (c.q.mode = .streamed ∧ c.lister = true) ∨ c.snapshot old = c.result old

/-- A registered view before its activation: its buffer has changes delivered since, and every one
of them that matches. -/
structure Opening (c : Attach) (s : State) (pending : List Change) (low : String → Nat) :
    Prop where
  unheld : ∀ a, s.partition.column c.key a = false
  low_le : ∀ a, low a ≤ s.delivered a
  pending_mem : ∀ ch ∈ pending, ∃ i, low ch.aggId ≤ i ∧ (s.history ch.aggId)[i]? = some ch
  buffered : ∀ a i ch, low a ≤ i → i < s.delivered a → (s.history a)[i]? = some ch →
    c.accepts ch = true → ch ∈ pending
  page_read : ∀ page, s.page = some page → ∃ old, PageRead c s.log low page old
  ids_read : ∀ page ids, s.page = some page → s.ids = some ids →
    ∃ old mid, PageRead c s.log low page old ∧ old <+: mid ∧ mid <+: s.log ∧
      ids = c.memberIds mid page

inductive Phase (c : Attach) (s : State) : Prop
  | absent (hview : s.view c = none) (hunheld : ∀ a, s.partition.column c.key a = false)
      (hpage : s.page = none) : Phase c s
  | opening (pending : List Change) (low : String → Nat)
      (hview : s.view c = some (opened c pending))
      (hindex : ∃ ix, s.partition.index = PredicateIndex.add ix c.key c.q.conds)
      (hopening : Opening c s pending low) : Phase c s
  | live (v : View) (hview : s.view c = some v)
      (hindex : ∃ ix, s.partition.index = PredicateIndex.add ix c.key c.q.conds)
      (hagrees : Agrees c s.log v (s.partition.column c.key))
      (hsettled : ∀ a last, s.delivered a = (s.history a).length →
        latest Change.aggId s.log a = some last → v.contains a = c.accepts last) : Phase c s

structure Inv (c : Attach) (s : State) : Prop where
  ordered : Ordered Change.aggId Change.version s.log
  delivered_le : ∀ a, s.delivered a ≤ (s.history a).length
  phase : Phase c s

theorem Inv.holdsResult {s : State} (h : Inv c s) : HoldsResult c s := by
  intro v hv hready hall a
  cases h.phase with
  | absent hview =>
    rw [hview] at hv
    simp at hv
  | opening pending low hview =>
    rw [hview] at hv
    cases hv
    simp [opened, newView] at hready
  | live u hview hindex hagrees hsettled =>
    rw [hview] at hv
    cases hv
    rw [Attach.inResult]
    cases hlast : latest Change.aggId s.log a with
    | some last => exact hsettled a last (hall a) hlast
    | none =>
      rw [Option.any_none, ← Bool.not_eq_true]
      exact fun ha => hagrees.known a ha (latest_eq_none.mp hlast)

end Fabriq.Live.Handoff
