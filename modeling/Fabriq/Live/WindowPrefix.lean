import Fabriq.Lib.Machine
import Fabriq.Live.MaintainedWindow

namespace Fabriq.Live.WindowPrefix

open Core.Value Lib Lib.Keyset Lib.Machine Lib.Splice Live.MaintainedWindow Live.Order Live.Types
open List
open Lib.PrefixWindow (PrefixOf)

/-- The rows of the entity's table: one per id, with sort values of one kind per
column. -/
structure Table (kind : String → SortKind) (sort : List SortKey) where
  rows : List Row
  nodup : (rows.map Row.aggId).Nodup
  keyed : ∀ r ∈ rows,
    comparable kind sort r.vals = true ∧ r.cursor = sortKeyOf r.vals sort r.aggId

/-- Strictly after a cursor; every row is after the empty one. -/
def afterCursor (sort : List SortKey) (after cur : Cursor) : Bool :=
  after.values.isEmpty || compareCursors sort after cur == .lt

def inResult (q : LiveQuery) (pred : Vals → Bool) (r : Row) : Bool :=
  pred r.vals && afterCursor q.sort (q.cursor.getD ⟨[]⟩) r.cursor

variable {kind : String → SortKind} {sort : List SortKey} {q : LiveQuery}
  {pred : Vals → Bool}

def Table.result (t : Table kind sort) (q : LiveQuery) (pred : Vals → Bool) : List Row :=
  sortBy (compareCursors q.sort) Row.cursor (t.rows.filter (inResult q pred))

def Table.refiller (t : Table kind sort) (pred : Vals → Bool) : Refiller :=
  fun q after limit =>
    some ((sortBy (compareCursors q.sort) Row.cursor
      (t.rows.filter fun r => pred r.vals && afterCursor q.sort after r.cursor)).take limit)

def Admissible (kind : String → SortKind) (sort : List SortKey) (ch : Change) : Prop :=
  ch.deleted = false → comparable kind sort ch.vals = true

instance (ch : Change) : Decidable (Admissible kind sort ch) :=
  inferInstanceAs (Decidable (_ → _))

def Table.commit (t : Table kind sort) (ch : Change) (h : Admissible kind sort ch) :
    Table kind sort where
  rows := (if ch.deleted then [] else [rowFromChange sort ch]) ++
    t.rows.filter fun r => r.aggId ≠ ch.aggId
  nodup := by
    have hothers : ((t.rows.filter fun r => r.aggId ≠ ch.aggId).map Row.aggId).Nodup :=
      t.nodup.sublist (filter_sublist.map _)
    cases ch.deleted with
    | true => simpa using hothers
    | false =>
      rw [map_append]
      refine nodup_cons.mpr ⟨?_, hothers⟩
      simp [rowFromChange]
  keyed := by
    intro r hr
    rw [mem_append] at hr
    rcases hr with hr | hr
    · cases hdeleted : ch.deleted with
      | true => simp [hdeleted] at hr
      | false =>
        have hrow : r = rowFromChange sort ch := by simpa [hdeleted] using hr
        exact hrow ▸ ⟨h hdeleted, rfl⟩
    · exact t.keyed r (mem_of_mem_filter hr)

structure State (kind : String → SortKind) (sort : List SortKey) where
  table : Table kind sort
  window : Window

/-- A change is committed to the table and then applied to the window. -/
def step (s : State kind sort) (ch : Change) : Option (State kind sort) :=
  if h : Admissible kind sort ch then
    some
      { table := s.table.commit ch h
        window :=
          (s.window.apply ((s.table.commit ch h).refiller s.window.pred) ch).1 }
  else none

def seeded (q : LiveQuery) (pred : Vals → Bool) (cushion : Nat) (t : Table kind q.sort) :
    State kind q.sort where
  table := t
  window := newWindow q pred ((t.result q pred).take (q.limit + cushion))
    (decide ((t.result q pred).length ≤ q.limit + cushion)) cushion

/-- The buffer is the first rows of the current result, and the whole of it when the
window says so. -/
def PrefixExact (s : State kind sort) : Prop :=
  s.window.rows =
      (s.table.result s.window.q s.window.pred).take s.window.rows.length ∧
    (s.window.complete = true →
      s.window.rows = s.table.result s.window.q s.window.pred)

/-- A matching row that the buffer does not hold sorts before the changed one. -/
def unheldBefore (s : State kind sort) (ch : Change) : Bool :=
  s.table.rows.any fun x =>
    x.aggId ≠ ch.aggId && inResult s.window.q s.window.pred x &&
      !s.window.contains x.aggId &&
      compareCursors sort x.cursor (rowFromChange sort ch).cursor == .lt

/-- The changed row goes to the end of the buffer: no other held row sorts after it, and it is held
already or there is room. -/
def placedLast (s : State kind sort) (ch : Change) : Bool :=
  (s.window.rows.all fun x => x.aggId == ch.aggId ||
      compareCursors sort x.cursor (rowFromChange sort ch).cursor == .lt) &&
    (s.window.contains ch.aggId || decide (s.window.rows.length < s.window.cap))

/-- A matching change lies after the anchor and is not appended over a gap. -/
def noGap (s : State kind sort) (ch : Change) : Bool :=
  !s.window.matchesChange ch ||
    (inResult s.window.q s.window.pred (rowFromChange sort ch) &&
      !(placedLast s ch && unheldBefore s ch))

theorem afterCursor_eq_true {after cur : Cursor} (hafter : Keyed kind sort after) :
    afterCursor sort after cur ↔ compareCursors sort after cur = .lt := by
  obtain ⟨keys, id, hvalues, _⟩ := hafter
  simp [afterCursor, hvalues]

theorem afterCursor_trans {anchor : Option Cursor} {cur next : Cursor}
    (hanchor : ∀ c ∈ anchor, Keyed kind sort c) (hcur : Keyed kind sort cur)
    (hnext : Keyed kind sort next) (hafter : afterCursor sort (anchor.getD ⟨[]⟩) cur)
    (hlt : compareCursors sort cur next = .lt) : afterCursor sort (anchor.getD ⟨[]⟩) next := by
  cases anchor with
  | none => rfl
  | some c =>
    have hc := hanchor c rfl
    rw [Option.getD_some, afterCursor_eq_true hc] at hafter ⊢
    exact (linearCmpOn_compareCursors kind sort).lt_trans hc hcur hnext hafter hlt

def ranked : Table (fun _ => .num) byRank.sort where
  rows := [rankRow "a" 1, rankRow "b" 2, rankRow "c" 3]
  nodup := by decide
  keyed := by
    intro r hr
    simp only [mem_cons, not_mem_nil, or_false] at hr
    rcases hr with rfl | rfl | rfl <;> exact ⟨rfl, rfl⟩

def heldIds (s : Option (State kind sort)) : Option (List String × List String) :=
  s.map fun s => (s.window.rows.map Row.aggId,
    (s.table.result s.window.q s.window.pred).map Row.aggId)

/-- The last held row moves past a row the window does not hold, and stays at the end of the
buffer. -/
theorem movedPastTail_not_prefixExact :
    ∃ s, run step (seeded byRank (fun _ => true) 1 ranked) [rankChange "b" 2 9] = some s ∧
      ¬ PrefixExact s := by
  refine ⟨_, rfl, fun hexact => absurd (congrArg (map Row.aggId) hexact.1) (by decide)⟩

variable {r : Row}

section

variable (t : Table kind sort)

theorem Table.keyed_cursor (hr : r ∈ t.rows) : Keyed kind sort r.cursor := by
  obtain ⟨hcomparable, hcursor⟩ := t.keyed r hr
  rw [hcursor]
  exact keyed_sortKeyOf r.aggId hcomparable

theorem Table.lastId_cursor (hr : r ∈ t.rows) : lastId r.cursor = r.aggId := by
  rw [(t.keyed r hr).2, lastId_sortKeyOf]

theorem Table.eq_of_aggId {s : Row} (hr : r ∈ t.rows) (hs : s ∈ t.rows) (h : r.aggId = s.aggId) :
    r = s :=
  inj_on_of_nodup_map t.nodup hr hs h

theorem Table.sorted_filter (p : Row → Bool) : Sorted (compareCursors sort) Row.cursor
      (sortBy (compareCursors sort) Row.cursor (t.rows.filter p)) := by
  have hmem : ∀ r ∈ t.rows.filter p, r ∈ t.rows := fun r hr => mem_of_mem_filter hr
  refine sorted_sortBy (linearCmpOn_compareCursors kind sort)
    (fun r hr => t.keyed_cursor (hmem r hr)) ?_
  have hnodup : ((t.rows.filter p).map _).Nodup := t.nodup.sublist (filter_sublist.map _)
  refine (pairwise_map.mp hnodup).imp_of_mem ?_
  intro a b ha hb hne heq
  rw [← t.lastId_cursor (hmem a ha), ← t.lastId_cursor (hmem b hb), heq] at hne
  exact hne rfl

theorem Table.mem_commit {ch : Change} {h : Admissible kind sort ch} {x : Row} :
    x ∈ (t.commit ch h).rows ↔
      (ch.deleted = false ∧ x = rowFromChange sort ch) ∨ (x ∈ t.rows ∧ x.aggId ≠ ch.aggId) := by
  simp only [Table.commit, mem_append, mem_filter]
  cases ch.deleted <;> simp

end

def InResult (t : Table kind q.sort) (pred : Vals → Bool) (x : Row) : Prop :=
  x ∈ t.rows ∧ inResult q pred x = true

structure Exact (t : Table kind q.sort) (pred : Vals → Bool) (w : Window) : Prop where
  query : w.q = q
  filter : w.pred = pred
  isPrefix : PrefixOf (compareCursors q.sort) Row.cursor (InResult t pred) w.rows w.complete

variable {t : Table kind q.sort} {w : Window} {s : State kind q.sort} {x : Row}

theorem InResult.keyed (hx : InResult t pred x) : Keyed kind q.sort x.cursor := t.keyed_cursor hx.1

theorem mem_result : x ∈ t.result q pred ↔ InResult t pred x := by
  rw [Table.result, mem_sortBy, mem_filter]
  rfl

theorem Exact.prefixExact (h : Exact s.table pred s.window) : PrefixExact s := by
  have hlinear := linearCmpOn_compareCursors kind q.sort
  have hsorted := s.table.sorted_filter (inResult q pred)
  rw [PrefixExact, h.query, h.filter]
  constructor
  · exact prefix_iff_eq_take.mp
      (h.isPrefix.isPrefix hlinear hsorted (fun x => mem_result) fun x hx => hx.keyed)
  · intro hcompl
    have hpre := h.isPrefix
    rw [hcompl] at hpre
    exact hpre.eq_of_complete hlinear hsorted (fun x => mem_result) fun x hx => hx.keyed

theorem exact_seeded (cushion : Nat) : Exact t pred (seeded q pred cushion t).window := by
  have hall : PrefixOf (compareCursors q.sort) Row.cursor (InResult t pred)
      (t.result q pred) true :=
    PrefixOf.of_sorted (t.sorted_filter _) fun x => mem_result
  refine ⟨rfl, rfl, ?_⟩
  simp only [seeded, newWindow]
  by_cases hfits : (t.result q pred).length ≤ q.limit + cushion
  · rw [take_of_length_le hfits, decide_eq_true hfits]
    exact hall
  · rw [decide_eq_false hfits]
    exact hall.take _

theorem Exact.trimTail (h : Exact t pred w) : Exact t pred w.trimTail := by
  unfold Window.trimTail
  split_ifs
  · exact ⟨h.query, h.filter, h.isPrefix.take w.cap⟩
  · exact h

theorem inResult_commit_of_not_matches (hno : (!ch.deleted && pred ch.vals) = false) :
    InResult (t.commit ch hch) pred x ↔ InResult t pred x ∧ x.aggId ≠ ch.aggId := by
  simp only [InResult, t.mem_commit]
  constructor
  · rintro ⟨⟨hdeleted, rfl⟩ | ⟨hx, hne⟩, hin⟩
    · have hpred : pred ch.vals := (Bool.and_eq_true_iff.mp hin).1
      simp [hdeleted, hpred] at hno
    · exact ⟨⟨hx, hin⟩, hne⟩
  · rintro ⟨⟨hx, hin⟩, hne⟩
    exact ⟨.inr ⟨hx, hne⟩, hin⟩

theorem inResult_commit_of_matches (hdeleted : ch.deleted = false)
    (hin : inResult q pred (rowFromChange q.sort ch)) :
    InResult (t.commit ch hch) pred x ↔
      x = rowFromChange q.sort ch ∨ (InResult t pred x ∧ x.aggId ≠ ch.aggId) := by
  simp only [InResult, t.mem_commit]
  constructor
  · rintro ⟨⟨_, rfl⟩ | ⟨hx, hne⟩, hx'⟩
    · exact .inl rfl
    · exact .inr ⟨⟨hx, hx'⟩, hne⟩
  · rintro (rfl | ⟨⟨hx, hx'⟩, hne⟩)
    · exact ⟨.inl ⟨hdeleted, rfl⟩, hin⟩
    · exact ⟨.inr ⟨hx, hne⟩, hx'⟩

theorem Exact.others (h : Exact t pred w) (id : String) :
    PrefixOf (compareCursors q.sort) Row.cursor (fun x => InResult t pred x ∧ x.aggId ≠ id)
      (w.rows.filter fun r => r.aggId ≠ id) w.complete :=
  h.isPrefix.filter _ fun x => by simp

theorem Exact.nodup (h : Exact t pred w) : (w.rows.map Row.aggId).Nodup := by
  refine List.Nodup.map_on ?_ (h.isPrefix.nodup (linearCmpOn_compareCursors kind q.sort)
    fun x hx => hx.keyed)
  intro r hr s hs heq
  exact t.eq_of_aggId (h.isPrefix.held r hr).1 (h.isPrefix.held s hs).1 heq

theorem Exact.spliceIn (h : Exact t pred w) (hdeleted : ch.deleted = false)
    (hin : inResult q pred (rowFromChange q.sort ch)) {others : List Row} {pos : Nat}
    (hothers : others = w.rows.filter fun r => r.aggId ≠ ch.aggId)
    (hbefore : ∀ r ∈ others.take pos,
      compareCursors q.sort r.cursor (rowFromChange q.sort ch).cursor = .lt)
    (hafter : ∀ r ∈ others.drop pos,
      compareCursors q.sort (rowFromChange q.sort ch).cursor r.cursor = .lt)
    (hgap : pos < others.length ∨ ∀ x, InResult t pred x ∧ x.aggId ≠ ch.aggId → x ∉ others →
      compareCursors q.sort (rowFromChange q.sort ch).cursor x.cursor = .lt) :
    Exact (t.commit ch hch) pred
      { w with rows := spliceIn others pos (rowFromChange q.sort ch) } := by
  refine ⟨h.query, h.filter, ?_⟩
  subst hothers
  exact (h.others _).spliceIn (linearCmpOn_compareCursors kind q.sort)
    (fun x hx => InResult.keyed hx)
    (fun x => inResult_commit_of_matches hdeleted hin) hbefore hafter hgap

theorem Exact.insertPos_spec (h : Exact t pred w) (hadm : Admissible kind q.sort ch)
    (hdeleted : ch.deleted = false) {others : List Row}
    (hothers : others = w.rows.filter fun r => r.aggId ≠ ch.aggId) :
    (∀ r ∈ others.take (insertPos q.sort others (rowFromChange q.sort ch).cursor),
        compareCursors q.sort r.cursor (rowFromChange q.sort ch).cursor = .lt) ∧
      ∀ r ∈ others.drop (insertPos q.sort others (rowFromChange q.sort ch).cursor),
        compareCursors q.sort (rowFromChange q.sort ch).cursor r.cursor = .lt := by
  have hpre := h.others ch.aggId
  rw [← hothers] at hpre
  refine PrefixWindow.insertPos_spec (linearCmpOn_compareCursors kind q.sort)
    (fun r hr => (hpre.held r hr).1.keyed) (keyed_sortKeyOf _ (hadm hdeleted)) ?_
    hpre.sorted
  intro r hr heq
  obtain ⟨hrin, hne⟩ := hpre.held r hr
  apply hne
  rw [← t.lastId_cursor hrin.1, heq]
  exact lastId_sortKeyOf _ _

theorem Exact.gap_of_noGap (h : Exact s.table pred s.window)
    (hch : Admissible kind q.sort ch) (hdeleted : ch.deleted = false)
    (hmatch : s.window.matchesChange ch) (hgap : noGap s ch) {others : List Row}
    (hothers : others = s.window.rows.filter fun r => r.aggId ≠ ch.aggId)
    (hroom : s.window.contains ch.aggId ∨ s.window.rows.length < s.window.cap ∨ s.window.complete) :
    insertPos q.sort others (rowFromChange q.sort ch).cursor < others.length ∨
      ∀ x, InResult s.table pred x ∧ x.aggId ≠ ch.aggId → x ∉ others →
        compareCursors q.sort (rowFromChange q.sort ch).cursor x.cursor = .lt := by
  have hlinear := linearCmpOn_compareCursors kind q.sort
  have hrow : Keyed kind q.sort (rowFromChange q.sort ch).cursor :=
    keyed_sortKeyOf _ (hch hdeleted)
  rw [or_iff_not_imp_left, Nat.not_lt]
  rintro hlast x ⟨hx, hne⟩ hnot
  have hunheld : x ∉ s.window.rows := by
    intro hmem
    exact hnot (hothers ▸ mem_filter.mpr ⟨hmem, by simpa using hne⟩)
  have hxne : (rowFromChange q.sort ch).cursor ≠ x.cursor := by
    intro heq
    apply hne
    rw [← s.table.lastId_cursor hx.1, ← heq]
    exact lastId_sortKeyOf _ _
  refine hlinear.lt_of_ne_of_not_lt hrow hx.keyed hxne ?_
  intro hlt
  rw [noGap, hmatch, h.query, h.filter] at hgap
  have hno : placedLast s ch = false ∨ unheldBefore s ch = false := by
    simpa using (Bool.and_eq_true_iff.mp hgap).2
  have hbefore : unheldBefore s ch := by
    refine any_eq_true.mpr ⟨x, hx.1, ?_⟩
    have hcont : s.window.contains x.aggId = false := by
      rw [Bool.eq_false_iff, Ne, contains_eq_true]
      rintro ⟨r, hr, heq⟩
      exact hunheld (s.table.eq_of_aggId (h.isPrefix.held r hr).1 hx.1 heq ▸ hr)
    simp [hne, h.query, h.filter, hx.2, hcont, hlt]
  have hplaced : placedLast s ch := by
    rw [placedLast, Bool.and_eq_true, all_eq_true]
    constructor
    · intro r hr
      by_cases heq : r.aggId = ch.aggId
      · simp [heq]
      · have hmem : r ∈ others := hothers ▸ mem_filter.mpr ⟨hr, by simpa using heq⟩
        have hlt := (h.insertPos_spec hch hdeleted hothers).1
        rw [take_of_length_le hlast] at hlt
        simp [hlt r hmem]
    · rcases hroom with hheld | hshort | hcompl
      · simp [hheld]
      · simp [hshort]
      · exact absurd (h.isPrefix.exhausted hcompl x hx) hunheld
  simp [hplaced, hbefore] at hno

section

variable (hanchor : ∀ c ∈ q.cursor, Keyed kind q.sort c)
include hanchor

theorem Exact.after_refillAfter (h : Exact t pred w) (hx : x ∈ t.rows) :
    (pred x.vals && afterCursor q.sort w.refillAfter x.cursor) ↔
      InResult t pred x ∧ x ∉ w.rows := by
  have hlinear := linearCmpOn_compareCursors kind q.sort
  cases hlast : w.rows.getLast? with
  | none =>
    have hnil : w.rows = [] := getLast?_eq_none_iff.mp hlast
    simp [Window.refillAfter, h.query, hnil, InResult, inResult, hx]
  | some last =>
    have hmem : last ∈ w.rows := mem_of_getLast? hlast
    have hheld : InResult t pred last := h.isPrefix.held last hmem
    have hxkey := t.keyed_cursor hx
    simp only [Window.refillAfter, hlast, Bool.and_eq_true, afterCursor_eq_true hheld.keyed]
    constructor
    · rintro ⟨hpred, hlt⟩
      refine ⟨⟨hx, ?_⟩, ?_⟩
      · rw [inResult, Bool.and_eq_true]
        exact ⟨hpred, afterCursor_trans hanchor hheld.keyed hxkey
          (Bool.and_eq_true_iff.mp hheld.2).2 hlt⟩
      · intro hxheld
        rcases h.isPrefix.sorted.eq_or_lt_last hlast hxheld with rfl | hgt
        · simp [hlinear.cmp_self hxkey] at hlt
        · exact hlinear.not_lt_of_lt hxkey hheld.keyed hgt hlt
    · rintro ⟨hin, hnot⟩
      exact ⟨(Bool.and_eq_true_iff.mp hin.2).1, h.isPrefix.later x hin hnot last hmem⟩

theorem Exact.maybeRefill (h : Exact t pred w) :
    Exact t pred (w.maybeRefill (t.refiller pred)) := by
  unfold Window.maybeRefill
  split_ifs
  · refine ⟨h.query, h.filter, ?_⟩
    simp only [Table.refiller, h.query]
    refine h.isPrefix.append (t.sorted_filter _) ?_ _
    intro x
    rw [mem_sortBy, mem_filter]
    constructor
    · rintro ⟨hx, hafter⟩
      exact (h.after_refillAfter hanchor hx).mp hafter
    · rintro ⟨hx, hnot⟩
      exact ⟨hx.1, (h.after_refillAfter hanchor hx.1).mpr ⟨hx, hnot⟩⟩
  · exact h

variable {ch : Change} {hch : Admissible kind q.sort ch}

section

variable (h : Exact s.table pred s.window)
include h

theorem Exact.insert (hch : Admissible kind q.sort ch) (hgap : noGap s ch)
    (hdeleted : ch.deleted = false) (hmatch : s.window.matchesChange ch)
    (hin : inResult q pred (rowFromChange q.sort ch)) (hidx : s.window.indexOf ch.aggId = none) :
    Exact (s.table.commit ch hch) pred
      (s.window.insert ((s.table.commit ch hch).refiller pred) ch).1 := by
  have hothers : s.window.rows = s.window.rows.filter fun r => r.aggId ≠ ch.aggId := by
    refine (filter_eq_self.mpr ?_).symm
    simpa using indexOf_eq_none.mp hidx
  obtain ⟨hbefore, hafter⟩ := h.insertPos_spec hch hdeleted hothers
  have hsort : s.window.q.sort = q.sort := by rw [h.query]
  simp only [Window.insert, hsort]
  split_ifs with hskip
  · rw [take_of_length_le hskip.1] at hbefore
    have hpre := h.others ch.aggId
    rw [← hothers] at hpre
    refine ⟨h.query, h.filter, ?_⟩
    rw [hskip.2.2]
    exact hpre.skip (fun x => inResult_commit_of_matches hdeleted hin) hbefore
  · have hplace := h.gap_of_noGap hch hdeleted hmatch hgap hothers
    refine ((h.spliceIn hdeleted hin hothers hbefore hafter ?_).trimTail).maybeRefill hanchor
    by_cases hpos : insertPos q.sort s.window.rows (rowFromChange q.sort ch).cursor <
        s.window.rows.length
    · exact .inl hpos
    · apply hplace
      rw [not_and, not_and, Bool.not_eq_false] at hskip
      by_cases hroom : s.window.rows.length < s.window.cap
      · exact .inr (.inl hroom)
      · exact .inr (.inr (hskip (Nat.not_lt.mp hpos) (Nat.not_lt.mp hroom)))

theorem Exact.reposition (hch : Admissible kind q.sort ch) (hgap : noGap s ch)
    (hdeleted : ch.deleted = false) (hmatch : s.window.matchesChange ch)
    (hin : inResult q pred (rowFromChange q.sort ch)) {old : Nat} {held : Row}
    (hold : s.window.rows[old]? = some held) (hid : held.aggId = ch.aggId) :
    Exact (s.table.commit ch hch) pred
      (s.window.reposition ((s.table.commit ch hch).refiller pred) old held ch).1 := by
  have hlinear := linearCmpOn_compareCursors kind q.sort
  obtain ⟨hlt, hget⟩ := List.getElem?_eq_some_iff.mp hold
  have hmem : held ∈ s.window.rows := mem_of_getElem? hold
  have hheld := h.isPrefix.held held hmem
  have hothers : spliceOut s.window.rows old =
      s.window.rows.filter fun r => r.aggId ≠ ch.aggId := by
    rw [spliceOut_eq_filter h.nodup hold, hid]
  have hsort : s.window.q.sort = q.sort := by rw [h.query]
  simp only [Window.reposition, hsort]
  by_cases hsame : compareCursors q.sort held.cursor (rowFromChange q.sort ch).cursor = .eq
  · rw [if_pos hsame]
    -- The cursor is the held one, so the row stays between its neighbours.
    have hcursor : held.cursor = (rowFromChange q.sort ch).cursor :=
      hlinear.eq_of_eq hheld.keyed (keyed_sortKeyOf _ (hch hdeleted)) hsame
    have hsplit : Sorted (compareCursors q.sort) Row.cursor
        (s.window.rows.take old ++ held :: s.window.rows.drop (old + 1)) := by
      rw [← hget, ← drop_eq_getElem_cons hlt, take_append_drop]
      exact h.isPrefix.sorted
    obtain ⟨_, hcons, hcross⟩ := pairwise_append.mp hsplit
    rw [set_eq_spliceIn _ hlt]
    refine h.spliceIn hdeleted hin hothers ?_ ?_ (.inr ?_)
    · rw [take_spliceOut hlt, ← hcursor]
      exact fun r hr => hcross r hr held mem_cons_self
    · rw [drop_spliceOut hlt, ← hcursor]
      exact (pairwise_cons.mp hcons).1
    · rintro x ⟨hx, hne⟩ hnot
      rw [← hcursor]
      refine h.isPrefix.later x hx ?_ held hmem
      intro hxmem
      exact hnot (hothers ▸ mem_filter.mpr ⟨hxmem, by simpa using hne⟩)
  · rw [if_neg hsame]
    obtain ⟨hbefore, hafter⟩ := h.insertPos_spec hch hdeleted hothers
    have hcont : s.window.contains ch.aggId := contains_eq_true.mpr ⟨held, hmem, hid⟩
    exact ((h.spliceIn hdeleted hin hothers hbefore hafter
      (h.gap_of_noGap hch hdeleted hmatch hgap hothers (.inl hcont))).trimTail).maybeRefill
        hanchor

omit h in
theorem Exact.leave (h : Exact t pred w) (hno : w.matchesChange ch = false) :
    Exact (t.commit ch hch) pred (w.apply ((t.commit ch hch).refiller pred) ch).1 := by
  have hothers : PrefixOf (compareCursors q.sort) Row.cursor (InResult (t.commit ch hch) pred)
      (w.rows.filter fun r => r.aggId ≠ ch.aggId) w.complete := by
    refine h.isPrefix.filter _ fun x => ?_
    rw [inResult_commit_of_not_matches (by rw [← hno, Window.matchesChange, h.filter])]
    simp
  cases hidx : w.indexOf ch.aggId with
  | none =>
    have hself : (w.rows.filter fun r => r.aggId ≠ ch.aggId) = w.rows := by
      simpa using indexOf_eq_none.mp hidx
    simp only [Window.apply, hidx, hno]
    exact ⟨h.query, h.filter, hself ▸ hothers⟩
  | some old =>
    obtain ⟨held, hold, hid⟩ := indexOf_eq_some hidx
    simp only [Window.apply, hidx, hold, hno, Window.remove]
    rw [spliceOut_eq_filter h.nodup hold, hid]
    exact Exact.maybeRefill hanchor ⟨h.query, h.filter, hothers⟩

theorem Exact.apply (hch : Admissible kind q.sort ch) (hgap : noGap s ch) :
    Exact (s.table.commit ch hch) pred
      (s.window.apply ((s.table.commit ch hch).refiller pred) ch).1 := by
  cases hmatch : s.window.matchesChange ch with
  | false => exact h.leave hanchor hmatch
  | true =>
    have hdeleted : ch.deleted = false := by
      simpa using (Bool.and_eq_true_iff.mp hmatch).1
    have hin : inResult q pred (rowFromChange q.sort ch) := by
      rw [noGap, hmatch, h.query, h.filter] at hgap
      exact (Bool.and_eq_true_iff.mp hgap).1
    cases hidx : s.window.indexOf ch.aggId with
    | none =>
      simp only [Window.apply, hidx, hmatch]
      exact h.insert hanchor hch hgap hdeleted hmatch hin hidx
    | some old =>
      obtain ⟨held, hold, hid⟩ := indexOf_eq_some hidx
      simp only [Window.apply, hidx, hold, hmatch]
      exact h.reposition hanchor hch hgap hdeleted hmatch hin hold hid

theorem Exact.edited (hch : Admissible kind q.sort ch) (hgap : noGap s ch) :
    Exact (s.table.commit ch hch) pred (edited s.window ch) := by
  have happly := h.apply hanchor hch hgap
  rcases (apply_refill _ ch _).2 with ⟨heq, -⟩ | heq
  · rwa [heq] at happly
  · rw [heq, Window.maybeRefill] at happly
    split_ifs at happly with hwants
    · have hcompl : (MaintainedWindow.edited s.window ch).complete = false := by
        simpa using (Bool.and_eq_true_iff.mp hwants).1
      refine ⟨happly.query, happly.filter, ?_⟩
      have htake := happly.isPrefix.take (MaintainedWindow.edited s.window ch).rows.length
      rw [hcompl]
      simpa [Table.refiller] using htake
    · exact happly

end

end

theorem Exact.congr {t' : Table kind q.sort} (h : Exact t pred w)
    (hrows : ∀ x, x ∈ t.rows ↔ x ∈ t'.rows) : Exact t' pred w := by
  have hmem : ∀ x, InResult t pred x ↔ InResult t' pred x := fun x =>
    and_congr_left fun _ => hrows x
  refine ⟨h.query, h.filter, h.isPrefix.sorted, fun r hr => (hmem r).mp (h.isPrefix.held r hr),
    fun x hx => h.isPrefix.later x ((hmem x).mpr hx), fun hc x hx => ?_⟩
  exact h.isPrefix.exhausted hc x ((hmem x).mpr hx)

/-- In every run without a gap, the buffer is at every point the first rows of the current
result. -/
theorem prefixExact_of_noGap (q : LiveQuery) (pred : Vals → Bool) (cushion : Nat)
    (t : Table kind q.sort) (hanchor : ∀ c ∈ q.cursor, Keyed kind q.sort c)
    {trace : List Change} {s : State kind q.sort}
    (hok : Along step (fun s ch => noGap s ch = true) (seeded q pred cushion t) trace)
    (hrun : run step (seeded q pred cushion t) trace = some s) : PrefixExact s := by
  have hstep : ∀ (s : State kind q.sort) ch u, Exact s.table pred s.window →
      noGap s ch → step s ch = some u → Exact u.table pred u.window := by
    intro s ch u h hgap hstep
    unfold step at hstep
    split_ifs at hstep with hch
    cases hstep
    rw [h.filter]
    exact h.apply hanchor hch hgap
  exact (run_invariant hstep (exact_seeded cushion) hok hrun).prefixExact

def shuffled : List Change :=
  [rankChange "d" 1 (3 : ℚ), rankChange "b" 2 0, { rankChange "a" 2 0 with deleted := true },
    { rankChange "b" 3 0 with deleted := true }]

theorem prefixExact_shuffled :
    ∃ s, run step (seeded byRank (fun _ => true) 1 ranked) shuffled = some s ∧
      heldIds (some s) = some (["c", "d"], ["c", "d"]) ∧ PrefixExact s := by
  have hok : Along step (fun s ch => noGap s ch)
      (seeded byRank (fun _ => true) 1 ranked) shuffled := by decide
  exact ⟨_, rfl, by decide,
    prefixExact_of_noGap byRank _ 1 ranked (by simp [byRank]) hok rfl⟩

end Fabriq.Live.WindowPrefix
