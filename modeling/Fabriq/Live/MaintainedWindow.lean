import Fabriq.Lib.PrefixWindow
import Fabriq.Live.Order

namespace Fabriq.Live.MaintainedWindow

open Core.Value Lib Lib.Splice Live.Order Live.Types List

/-- The buffer of a live query: the visible window `[0, n)` and a cushion behind
it.  `pred` is the compiled filter. -/
structure Window where
  q : LiveQuery
  pred : Vals → Bool
  n : Nat
  cushion : Nat
  rows : List Row
  complete : Bool

/-- `Refiller.After`: up to `limit` rows strictly after a cursor, `none` on error. -/
abbrev Refiller := LiveQuery → Cursor → Nat → Option (List Row)

def newWindow (q : LiveQuery) (pred : Vals → Bool) (seed : List Row) (complete : Bool)
    (cushion : Nat) : Window :=
  ⟨q, pred, q.limit, cushion, seed, complete⟩

def Window.cap (w : Window) : Nat :=
  w.n + w.cushion

def Window.indexOf (w : Window) (aggId : String) : Option Nat :=
  w.rows.findIdx? fun r => r.aggId == aggId

def Window.contains (w : Window) (aggId : String) : Bool :=
  (w.indexOf aggId).isSome

def insertPos (sort : List SortKey) (rows : List Row) (cur : Cursor) : Nat :=
  PrefixWindow.insertPos (compareCursors sort) Row.cursor rows cur

def rowFromChange (sort : List SortKey) (ch : Change) : Row where
  aggId := ch.aggId
  version := ch.version
  cursor := sortKeyOf ch.vals sort ch.aggId
  raw := ch.raw
  vals := ch.vals

def delta (op : DeltaOp) (r : Row) (oldIdx newIdx : Int) : LiveDelta where
  op := op
  aggId := r.aggId
  version := r.version
  row := r.raw
  oldIndex := oldIdx
  newIndex := newIdx
  cursor := r.cursor

def Window.fieldChanges (w : Window) (prev next : Row) : Vals :=
  if w.q.fieldDeltas then diffVals prev.vals next.vals else none

def Window.trimTail (w : Window) : Window :=
  if w.cap < w.rows.length then { w with rows := w.rows.take w.cap, complete := false }
  else w

/-- The cursor a refill continues from: the last held row, else the anchor.  The
empty cursor stands before every row. -/
def Window.refillAfter (w : Window) : Cursor :=
  match w.rows.getLast? with
  | some r => r.cursor
  | none => w.q.cursor.getD ⟨[]⟩

def Window.wantsRefill (w : Window) : Bool :=
  !w.complete && decide (w.rows.length < w.n + w.cushion / 2)

def Window.maybeRefill (refill : Refiller) (w : Window) : Window :=
  if w.wantsRefill then
    match refill w.q w.refillAfter (w.cap - w.rows.length) with
    | none => w
    | some more =>
      { w with
        rows := w.rows ++ more
        complete := w.complete || decide (more.length < w.cap - w.rows.length) }
  else w

/-- The deltas of a row spliced in at `pos`: an insert into a full visible window
pushes its last row out. -/
def Window.insertDeltas (w : Window) (pos : Nat) (r : Row) : List LiveDelta :=
  if pos < w.n then
    delta .enter r (-1) pos ::
      (if w.n ≤ w.rows.length then w.rows[w.n - 1]? else none).toList.map
        fun evicted => delta .leave evicted w.n (-1)
  else []

def Window.insert (refill : Refiller) (w : Window) (ch : Change) : Window × List LiveDelta :=
  let r := rowFromChange w.q.sort ch
  let pos := insertPos w.q.sort w.rows r.cursor
  -- Beyond the maintained prefix of a result that goes on: not ours.
  if w.rows.length ≤ pos ∧ w.cap ≤ w.rows.length ∧ w.complete = false then (w, [])
  else
    ({ w with rows := spliceIn w.rows pos r }.trimTail.maybeRefill refill,
      w.insertDeltas pos r)

def promoted (n : Nat) (rows : List Row) : List LiveDelta :=
  (rows[n - 1]?).toList.map fun r => delta .enter r (-1) (n - 1 : Nat)

def Window.remove (refill : Refiller) (w : Window) (pos : Nat) (leaving : Row) :
    Window × List LiveDelta :=
  let rows := spliceOut w.rows pos
  ({ w with rows := rows }.maybeRefill refill,
    if pos < w.n then delta .leave leaving pos (-1) :: promoted w.n rows else [])

/-- The deltas of a row moved from `old` to `pos`, where `rows` are the rows after
the move. -/
def Window.moveDeltas (w : Window) (rows : List Row) (old pos : Nat) (r : Row)
    (changes : Vals) : List LiveDelta :=
  if old < w.n then
    if pos < w.n then [withChanges (delta .move r old pos) changes]
    else delta .leave r old (-1) :: promoted w.n rows
  else if pos < w.n then [delta .enter r (-1) pos]
  else []

def Window.reposition (refill : Refiller) (w : Window) (old : Nat) (held : Row)
    (ch : Change) : Window × List LiveDelta :=
  let r := rowFromChange w.q.sort ch
  let changes := w.fieldChanges held r
  if compareCursors w.q.sort held.cursor r.cursor = .eq then
    ({ w with rows := w.rows.set old r },
      if old < w.n then [withChanges (delta .update r old old) changes] else [])
  else
    let others := spliceOut w.rows old
    let pos := insertPos w.q.sort others r.cursor
    let rows := spliceIn others pos r
    ({ w with rows := rows }.trimTail.maybeRefill refill,
      w.moveDeltas rows old pos r changes)

def Window.matchesChange (w : Window) (ch : Change) : Bool :=
  !ch.deleted && w.pred ch.vals

def Window.apply (refill : Refiller) (w : Window) (ch : Change) : Window × List LiveDelta :=
  match w.indexOf ch.aggId with
  | none => if w.matchesChange ch then w.insert refill ch else (w, [])
  | some old =>
    match w.rows[old]? with
    | none => (w, [])
    | some held =>
      if w.matchesChange ch then w.reposition refill old held ch
      else w.remove refill old held

def Window.visible (w : Window) : List Row :=
  w.rows.take w.n

def edited (w : Window) (ch : Change) : Window :=
  (w.apply (fun _ _ _ => none) ch).1

theorem insertPos_le (sort : List SortKey) (rows : List Row) (cur : Cursor) :
    insertPos sort rows cur ≤ rows.length :=
  PrefixWindow.insertPos_le

variable {w : Window} {aggId : String} {i : Nat}

theorem indexOf_eq_some (h : w.indexOf aggId = some i) :
    ∃ held, w.rows[i]? = some held ∧ held.aggId = aggId := by
  obtain ⟨hlt, heq, _⟩ := findIdx?_eq_some_iff_getElem.mp h
  exact ⟨w.rows[i], getElem?_eq_getElem hlt, by simpa using heq⟩

theorem indexOf_eq_none : w.indexOf aggId = none ↔ ∀ r ∈ w.rows, r.aggId ≠ aggId := by
  simp [Window.indexOf, findIdx?_eq_none_iff]

theorem contains_eq_true : w.contains aggId ↔ ∃ r ∈ w.rows, r.aggId = aggId := by
  rw [Window.contains, Option.isSome_iff_ne_none, Ne, indexOf_eq_none]
  simp

def Window.shape (w : Window) : Window :=
  { w with rows := [], complete := false }

theorem shape_trimTail : w.trimTail.shape = w.shape := by
  unfold Window.trimTail
  split_ifs <;> rfl

theorem shape_maybeRefill (refill : Refiller) : (w.maybeRefill refill).shape = w.shape := by
  unfold Window.maybeRefill
  split_ifs
  · split <;> rfl
  · rfl

theorem shape_apply (refill : Refiller) (ch : Change) : (w.apply refill ch).1.shape = w.shape := by
  unfold Window.apply
  split
  · split_ifs
    · unfold Window.insert
      dsimp only
      split_ifs
      · rfl
      · rw [shape_maybeRefill, shape_trimTail]
        rfl
    · rfl
  · split
    · rfl
    · split_ifs
      · unfold Window.reposition
        dsimp only
        split_ifs
        · rfl
        · rfl
        · rw [shape_maybeRefill, shape_trimTail]
          rfl
      · rw [Window.remove, shape_maybeRefill]
        rfl

theorem apply_n (refill : Refiller) (ch : Change) : (w.apply refill ch).1.n = w.n := by
  have h : (w.apply refill ch).1.shape.n = w.shape.n := by rw [shape_apply]
  exact h

theorem maybeRefill_none : w.maybeRefill (fun _ _ _ => none) = w := by
  unfold Window.maybeRefill
  split_ifs <;> rfl

theorem apply_refill (w : Window) (ch : Change) (refill : Refiller) :
    (w.apply refill ch).2 = (w.apply (fun _ _ _ => none) ch).2 ∧
      ((w.apply refill ch).1 = edited w ch ∧
          (edited w ch).rows.length = w.rows.length ∧ (edited w ch).complete = w.complete ∨
        (w.apply refill ch).1 = (edited w ch).maybeRefill refill) := by
  unfold edited Window.apply
  split
  · split_ifs
    · unfold Window.insert
      dsimp only
      split_ifs
      · exact ⟨rfl, .inl ⟨rfl, rfl, rfl⟩⟩
      · exact ⟨rfl, .inr (by rw [maybeRefill_none])⟩
    · exact ⟨rfl, .inl ⟨rfl, rfl, rfl⟩⟩
  · split
    · exact ⟨rfl, .inl ⟨rfl, rfl, rfl⟩⟩
    · split_ifs
      · unfold Window.reposition
        dsimp only
        split_ifs
        · exact ⟨rfl, .inl ⟨rfl, length_set, rfl⟩⟩
        · exact ⟨rfl, .inl ⟨rfl, length_set, rfl⟩⟩
        · exact ⟨rfl, .inr (by rw [maybeRefill_none])⟩
      · exact ⟨rfl, .inr (by simp only [Window.remove, maybeRefill_none])⟩

inductive EditedFrom (w : Window) (ch : Change) : Window → Prop
  | ignored (hidx : w.indexOf ch.aggId = none) (hno : w.matchesChange ch = false) :
      EditedFrom w ch w
  | skipped (hidx : w.indexOf ch.aggId = none) (hmatch : w.matchesChange ch = true)
      (hbehind : w.rows.length ≤
        insertPos w.q.sort w.rows (rowFromChange w.q.sort ch).cursor)
      (hfull : w.cap ≤ w.rows.length) (hcomplete : w.complete = false) : EditedFrom w ch w
  | inserted (hidx : w.indexOf ch.aggId = none) (hmatch : w.matchesChange ch = true)
      (hours : ¬ (w.rows.length ≤
          insertPos w.q.sort w.rows (rowFromChange w.q.sort ch).cursor ∧
        w.cap ≤ w.rows.length ∧ w.complete = false)) :
      EditedFrom w ch
        ({ w with
          rows := spliceIn w.rows (insertPos w.q.sort w.rows
            (rowFromChange w.q.sort ch).cursor) (rowFromChange w.q.sort ch) }.trimTail)
  | removed {old : Nat} {held : Row} (hold : w.rows[old]? = some held)
      (hid : held.aggId = ch.aggId) (hno : w.matchesChange ch = false) :
      EditedFrom w ch { w with rows := spliceOut w.rows old }
  | replaced {old : Nat} {held : Row} (hold : w.rows[old]? = some held)
      (hid : held.aggId = ch.aggId) (hmatch : w.matchesChange ch = true) :
      EditedFrom w ch
        { w with rows := spliceIn (spliceOut w.rows old) old (rowFromChange w.q.sort ch) }
  | moved {old : Nat} {held : Row} (hold : w.rows[old]? = some held)
      (hid : held.aggId = ch.aggId) (hmatch : w.matchesChange ch = true) (pos : Nat) :
      EditedFrom w ch
        ({ w with rows := spliceIn (spliceOut w.rows old) pos (rowFromChange w.q.sort ch)
          }.trimTail)

theorem edited_from (w : Window) (ch : Change) : EditedFrom w ch (edited w ch) := by
  unfold edited Window.apply
  split
  · rename_i hidx
    split_ifs with hmatch
    · simp only [Window.insert, maybeRefill_none]
      split_ifs with hskip
      · exact .skipped hidx hmatch hskip.1 hskip.2.1 hskip.2.2
      · exact .inserted hidx hmatch hskip
    · exact .ignored hidx (by simpa using hmatch)
  · rename_i old hidx
    obtain ⟨held, hold, hid⟩ := indexOf_eq_some hidx
    have hlt : old < w.rows.length := (List.getElem?_eq_some_iff.mp hold).1
    simp only [hold]
    split_ifs with hmatch
    · simp only [Window.reposition, maybeRefill_none]
      by_cases hsame : compareCursors w.q.sort held.cursor (rowFromChange w.q.sort ch).cursor = .eq
      · rw [if_pos hsame, set_eq_spliceIn _ hlt]
        exact .replaced hold hid hmatch
      · rw [if_neg hsame]
        exact .moved hold hid hmatch _
    · simp only [Window.remove, maybeRefill_none]
      exact .removed hold hid (by simpa using hmatch)

theorem trimTail_of_le (h : w.rows.length ≤ w.cap) : w.trimTail = w := by
  rw [Window.trimTail, if_neg (by omega)]

theorem length_spliceIn_spliceOut {rows : List Row} {old pos : Nat} {held r : Row}
    (hold : rows[old]? = some held) :
    (spliceIn (spliceOut rows old) pos r).length = rows.length := by
  have hlt : old < rows.length := (List.getElem?_eq_some_iff.mp hold).1
  rw [length_spliceIn, length_spliceOut hlt]
  omega

theorem nodup_trimTail (h : (w.rows.map Row.aggId).Nodup) :
    (w.trimTail.rows.map Row.aggId).Nodup := by
  unfold Window.trimTail
  split_ifs
  · exact h.sublist ((take_sublist _ _).map _)
  · exact h

theorem nodup_spliceIn_rows {rows : List Row} {pos : Nat} {r : Row}
    (h : (rows.map Row.aggId).Nodup) (hfresh : ∀ x ∈ rows, x.aggId ≠ r.aggId) :
    ((spliceIn rows pos r).map Row.aggId).Nodup := by
  rw [map_spliceIn, nodup_spliceIn]
  refine ⟨?_, h⟩
  rw [mem_map]
  rintro ⟨x, hx, heq⟩
  exact hfresh x hx heq

theorem fresh_spliceOut {rows : List Row} {old : Nat} {held : Row}
    (hnodup : (rows.map Row.aggId).Nodup) (hold : rows[old]? = some held) :
    ∀ x ∈ spliceOut rows old, x.aggId ≠ held.aggId := by
  intro x hx
  rw [spliceOut_eq_filter hnodup hold, mem_filter] at hx
  simpa using hx.2

theorem nodup_edited (ch : Change) (hnodup : (w.rows.map Row.aggId).Nodup) :
    ((edited w ch).rows.map Row.aggId).Nodup := by
  have hothers : ∀ old, ((spliceOut w.rows old).map _).Nodup :=
    fun old => hnodup.sublist ((spliceOut_sublist _ _).map _)
  have hedited := edited_from w ch
  generalize edited w ch = w' at hedited
  cases hedited with
  | ignored | skipped => exact hnodup
  | inserted hidx =>
    exact nodup_trimTail (nodup_spliceIn_rows hnodup (indexOf_eq_none.mp hidx))
  | removed => exact hothers _
  | replaced hold hid =>
    exact nodup_spliceIn_rows (hothers _) fun x hx =>
      (fresh_spliceOut hnodup hold x hx).trans_eq hid
  | moved hold hid =>
    exact nodup_trimTail (nodup_spliceIn_rows (hothers _) fun x hx =>
      (fresh_spliceOut hnodup hold x hx).trans_eq hid)

theorem mem_edited {ch : Change} {r : Row} (h : r ∈ (edited w ch).rows) :
    r ∈ w.rows ∨ w.matchesChange ch ∧ r = rowFromChange w.q.sort ch := by
  have htrim : ∀ w : Window, r ∈ w.trimTail.rows → r ∈ w.rows := by
    intro w hr
    unfold Window.trimTail at hr
    split_ifs at hr
    · exact mem_of_mem_take hr
    · exact hr
  have hedited := edited_from w ch
  generalize edited w ch = w' at hedited h
  cases hedited with
  | ignored | skipped => exact .inl h
  | inserted _ hmatch => exact (mem_spliceIn.mp (htrim _ h)).symm.imp_right fun hr => ⟨hmatch, hr⟩
  | removed => exact .inl ((spliceOut_sublist _ _).subset h)
  | replaced _ _ hmatch =>
    rcases mem_spliceIn.mp h with hr | hr
    · exact .inr ⟨hmatch, hr⟩
    · exact .inl ((spliceOut_sublist _ _).subset hr)
  | moved _ _ hmatch =>
    rcases mem_spliceIn.mp (htrim _ h) with hr | hr
    · exact .inr ⟨hmatch, hr⟩
    · exact .inl ((spliceOut_sublist _ _).subset hr)

theorem mem_apply {ch : Change} {refill : Refiller} {r : Row} (h : r ∈ (w.apply refill ch).1.rows) :
    (r ∈ w.rows ∨ w.matchesChange ch ∧ r = rowFromChange w.q.sort ch) ∨
      ∃ q after limit more, refill q after limit = some more ∧ r ∈ more := by
  rcases (apply_refill w ch refill).2 with ⟨heq, -⟩ | heq
  · rw [heq] at h
    exact .inl (mem_edited h)
  · rw [heq, Window.maybeRefill] at h
    split_ifs at h
    · split at h
      · exact .inl (mem_edited h)
      · rename_i more hmore
        rcases mem_append.mp h with hr | hr
        · exact .inl (mem_edited hr)
        · exact .inr ⟨_, _, _, more, hmore, hr⟩
    · exact .inl (mem_edited h)

def About (r : Row) (d : LiveDelta) : Prop :=
  d.aggId = r.aggId ∧ d.version = r.version

section

variable {rows : List Row} {r held : Row} {old pos : Nat} {d : LiveDelta} {ch : Change}
  {refill : Refiller}

theorem about_promoted {n : Nat} (h : d ∈ promoted n rows) : ∃ x ∈ rows, About x d := by
  obtain ⟨x, hx, rfl⟩ := mem_map.mp h
  exact ⟨x, mem_of_getElem? (Option.mem_toList.mp hx), rfl, rfl⟩

theorem about_insertDeltas (h : d ∈ w.insertDeltas pos r) :
    ∃ x, (x ∈ w.rows ∨ x = r) ∧ About x d := by
  unfold Window.insertDeltas at h
  split_ifs at h
  · rcases mem_cons.mp h with rfl | hevicted
    · exact ⟨r, .inr rfl, rfl, rfl⟩
    · obtain ⟨x, hx, rfl⟩ := mem_map.mp hevicted
      exact ⟨x, .inl (mem_of_getElem? (Option.mem_toList.mp hx)), rfl, rfl⟩
  · obtain rfl : d = delta .enter r (-1) pos := by simpa using h
    exact ⟨r, .inr rfl, rfl, rfl⟩
  · simp at h

theorem about_moveDeltas {changes : Vals} (h : d ∈ w.moveDeltas rows old pos r changes) :
    ∃ x, (x ∈ rows ∨ x = r) ∧ About x d := by
  unfold Window.moveDeltas at h
  split_ifs at h
  · obtain rfl := mem_singleton.mp h
    exact ⟨r, .inr rfl, rfl, rfl⟩
  · rcases mem_cons.mp h with rfl | hpromoted
    · exact ⟨r, .inr rfl, rfl, rfl⟩
    · obtain ⟨x, hx, habout⟩ := about_promoted hpromoted
      exact ⟨x, .inl hx, habout⟩
  · obtain rfl := mem_singleton.mp h
    exact ⟨r, .inr rfl, rfl, rfl⟩
  · simp at h

theorem about_insert (h : d ∈ (w.insert refill ch).2) :
    ∃ x, (x ∈ w.rows ∨ x = rowFromChange w.q.sort ch) ∧ About x d := by
  simp only [Window.insert] at h
  split_ifs at h
  · simp at h
  · exact about_insertDeltas h

theorem about_remove (hheld : held ∈ w.rows) (h : d ∈ (w.remove refill pos held).2) :
    ∃ x ∈ w.rows, About x d := by
  simp only [Window.remove] at h
  split_ifs at h
  · rcases mem_cons.mp h with rfl | hpromoted
    · exact ⟨held, hheld, rfl, rfl⟩
    · obtain ⟨x, hx, habout⟩ := about_promoted hpromoted
      exact ⟨x, (spliceOut_sublist _ _).subset hx, habout⟩
  · simp at h

theorem about_reposition (h : d ∈ (w.reposition refill old held ch).2) :
    ∃ x, (x ∈ w.rows ∨ x = rowFromChange w.q.sort ch) ∧ About x d := by
  simp only [Window.reposition] at h
  split_ifs at h
  · obtain rfl := mem_singleton.mp h
    exact ⟨_, .inr rfl, rfl, rfl⟩
  · simp at h
  · obtain ⟨x, hx | rfl, habout⟩ := about_moveDeltas h
    · refine ⟨x, ?_, habout⟩
      exact (mem_spliceIn.mp hx).symm.imp_left fun hother => (spliceOut_sublist _ _).subset hother
    · exact ⟨_, .inr rfl, habout⟩

theorem delta_apply (h : d ∈ (w.apply refill ch).2) :
    ∃ r, (r ∈ w.rows ∨ w.matchesChange ch ∧ r = rowFromChange w.q.sort ch) ∧ About r d := by
  revert h
  fun_cases Window.apply refill w ch <;> intro h
  · rename_i hmatch
    obtain ⟨x, hx, habout⟩ := about_insert h
    exact ⟨x, hx.imp_right fun hself => ⟨hmatch, hself⟩, habout⟩
  · cases h
  · cases h
  · rename_i hmatch
    obtain ⟨x, hx, habout⟩ := about_reposition h
    exact ⟨x, hx.imp_right fun hself => ⟨hmatch, hself⟩, habout⟩
  · rename_i hheld _
    obtain ⟨x, hx, habout⟩ := about_remove (mem_of_getElem? hheld) h
    exact ⟨x, .inl hx, habout⟩

end

def byRank : LiveQuery where
  entity := "asset"
  conds := []
  sort := [⟨"rank", false⟩]
  limit := 1

def rankChange (id : String) (version : Int) (rank : ℚ) : Change :=
  ⟨id, version, false, some [("rank", .num rank)], "", "", 0⟩

def rankRow (id : String) (rank : ℚ) : Row :=
  rowFromChange byRank.sort (rankChange id 1 rank)

end Fabriq.Live.MaintainedWindow
