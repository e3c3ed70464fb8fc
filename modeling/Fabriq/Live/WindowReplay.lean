import Fabriq.Lib.Machine
import Fabriq.Live.MaintainedWindow

namespace Fabriq.Live.WindowReplay

open Core.Value Lib.Machine Lib.Splice Live.MaintainedWindow Live.Order Live.Types List Option

structure ClientRow where
  aggId : String
  version : Int
  raw : String
  deriving DecidableEq, Repr

def clientRow (r : Row) : ClientRow :=
  ⟨r.aggId, r.version, r.raw⟩

def view (rows : List Row) : List ClientRow :=
  rows.map clientRow

/-- What a client does with one delta: `enter` inserts at the new index, `leave`
removes by id, `move` and `update` put the row at its new index. -/
def replayDelta (client : List ClientRow) (d : LiveDelta) : List ClientRow :=
  let row : ClientRow := ⟨d.aggId, d.version, d.row⟩
  match d.op with
  | .enter => spliceIn client d.newIndex.toNat row
  | .leave => client.filter fun r => r.aggId ≠ d.aggId
  | .move => spliceIn (client.filter fun r => r.aggId ≠ d.aggId) d.newIndex.toNat row
  | .update => client.set d.newIndex.toNat row
  | _ => client

def replay (client : List ClientRow) (deltas : List LiveDelta) : List ClientRow :=
  deltas.foldl replayDelta client

structure Action where
  change : Change
  refilled : Option (List Row)

structure State where
  window : Window
  client : List ClientRow

def step (s : State) (a : Action) : Option State :=
  some
    { window := (s.window.apply (fun _ _ _ => a.refilled) a.change).1
      client := replay s.client (s.window.apply (fun _ _ _ => a.refilled) a.change).2 }

def start (q : LiveQuery) (pred : Vals → Bool) (seed : List Row) (complete : Bool)
    (cushion : Nat) : State where
  window := newWindow q pred seed complete cushion
  client := view (newWindow q pred seed complete cushion).visible

def InSync (s : State) : Prop :=
  s.client = view s.window.visible

def movesIntoView (w : Window) (ch : Change) : Bool :=
  match w.indexOf ch.aggId with
  | none => false
  | some old =>
    w.matchesChange ch && decide (w.n ≤ old) &&
      ((edited w ch).visible.any fun r => r.aggId == ch.aggId)

/-- The page brings rows that are not held, and none of them lands in the visible
window. -/
def refillQuiet (w : Window) (a : Action) : Bool :=
  !(edited w a.change).wantsRefill ||
    match a.refilled with
    | none => true
    | some more =>
      (more.isEmpty || decide (w.n ≤ (edited w a.change).rows.length)) &&
        decide (((edited w a.change).rows ++ more).map Row.aggId).Nodup

def quiet (s : State) (a : Action) : Bool :=
  !movesIntoView s.window a.change && refillQuiet s.window a

/-- A cushion row that moves to the front enters, and nothing leaves for it. -/
theorem promotedRow_not_inSync :
    ∃ s, run step (start byRank (fun _ => true) [rankRow "a" 1, rankRow "b" 2] true 1)
        [⟨rankChange "b" 2 0, none⟩] = some s ∧ ¬ InSync s := by
  refine ⟨_, rfl, ?_⟩
  unfold InSync
  decide

variable {rows : List Row} {r : Row}

@[simp]
theorem replay_nil (client : List ClientRow) : replay client [] = client := rfl

@[simp]
theorem replay_cons (client : List ClientRow) (d : LiveDelta) (ds : List LiveDelta) :
    replay client (d :: ds) = replay (replayDelta client d) ds := rfl

theorem replay_enter (i : Nat) (o : Int) :
    replayDelta (view rows) (delta .enter r o i) = view (spliceIn rows i r) := by
  rw [view, view, map_spliceIn]
  rfl

theorem replay_leave (o i : Int) : replayDelta (view rows) (delta .leave r o i) =
      view (rows.filter fun x => x.aggId ≠ r.aggId) := by
  rw [view, view, replayDelta, delta]
  simp only [List.filter_map]
  rfl

theorem replay_move (i : Nat) (o : Int) (changes : Vals) :
    replayDelta (view rows) (withChanges (delta .move r o i) changes) =
      view (spliceIn (rows.filter fun x => x.aggId ≠ r.aggId) i r) := by
  rw [view, view, map_spliceIn, replayDelta, withChanges, delta]
  simp only [List.filter_map]
  rfl

theorem replay_update (i : Nat) (o : Int) (changes : Vals) :
    replayDelta (view rows) (withChanges (delta .update r o i) changes) = view (rows.set i r) := by
  rw [view, view, map_set]
  rfl

theorem replay_promoted {n : Nat} (hn : 1 ≤ n) :
    replay (view (rows.take (n - 1))) (promoted n rows) = view (rows.take n) := by
  obtain ⟨k, rfl⟩ := Nat.exists_eq_add_of_le' hn
  rw [promoted, Nat.add_sub_cancel, take_add_one]
  cases hk : rows[k]? with
  | none => simp
  | some r =>
    have hlen : (rows.take k).length = k := by
      have := (List.getElem?_eq_some_iff.mp hk).1
      simp
      omega
    simp only [toList_some, map_cons, map_nil, replay_cons, replay_nil]
    rw [replay_enter, spliceIn_at_end r hlen]

variable {w : Window} {ch : Change} {held : Row} {old pos : Nat}

theorem visible_trimTail : w.trimTail.visible = w.visible := by
  unfold Window.trimTail
  split_ifs
  · simp only [Window.visible, take_take, Window.cap]
    rw [Nat.min_eq_left (by omega)]
  · rfl

theorem replay_insertDeltas (hn : 1 ≤ w.n) (hnodup : (w.rows.map Row.aggId).Nodup)
    (hfresh : ∀ x ∈ w.rows, x.aggId ≠ r.aggId) (hpos : pos ≤ w.rows.length) :
    replay (view w.visible) (w.insertDeltas pos r) = view ((spliceIn w.rows pos r).take w.n) := by
  unfold Window.insertDeltas
  split_ifs with hvisible hfull
  · -- A full window: the row at the boundary leaves.
    obtain ⟨last, hlast⟩ : ∃ last, w.rows[w.n - 1]? = some last :=
      ⟨_, getElem?_eq_getElem (by omega)⟩
    have hvis : w.visible = w.rows.take (w.n - 1) ++ [last] := by
      obtain ⟨k, hk⟩ := Nat.exists_eq_add_of_le' hn
      rw [hk, Nat.add_sub_cancel] at hlast ⊢
      rw [Window.visible, hk, take_add_one, hlast, toList_some]
    have hkeep : ∀ x ∈ spliceIn (w.rows.take (w.n - 1)) pos r, x.aggId ≠ last.aggId := by
      have hvisnodup : ((w.rows.take (w.n - 1) ++ [last]).map Row.aggId).Nodup := by
        rw [← hvis]
        exact hnodup.sublist ((take_sublist _ _).map _)
      intro x hx
      rcases mem_spliceIn.mp hx with rfl | hx
      · exact (hfresh last (mem_of_getElem? hlast)).symm
      · rw [map_append, nodup_append] at hvisnodup
        exact hvisnodup.2.2 _ (mem_map_of_mem hx) _ (by simp)
    rw [hlast]
    simp only [toList_some, map_cons, map_nil, replay_cons, replay_nil]
    rw [replay_enter, replay_leave, hvis, spliceIn_append r (by simp; omega),
      filter_append, filter_eq_self.mpr (by simpa using hkeep),
      filter_cons_of_neg (by simp), filter_nil, append_nil,
      take_spliceIn r hpos hvisible]
  · simp only [toList_none, map_nil, replay_cons, replay_nil]
    rw [replay_enter, Window.visible, take_of_length_le (by omega),
      take_spliceIn r hpos hvisible, take_of_length_le (by omega)]
  · rw [take_spliceIn_of_le r hpos (by omega)]
    rfl

theorem leave_visible (hnodup : (w.rows.map Row.aggId).Nodup)
    (hold : w.rows[old]? = some held) (hid : held.aggId = r.aggId) (hvisible : old < w.n) :
    (w.visible.filter fun x => x.aggId ≠ r.aggId) = (spliceOut w.rows old).take (w.n - 1) := by
  have hlt : old < w.rows.length := (List.getElem?_eq_some_iff.mp hold).1
  have hget : w.visible[old]? = some held := by
    rw [Window.visible, getElem?_take_of_lt hvisible]
    exact hold
  have hvisnodup : (w.visible.map _).Nodup := hnodup.sublist ((take_sublist _ _).map _)
  rw [← hid, ← spliceOut_eq_filter hvisnodup hget, take_pred_spliceOut hlt hvisible]
  rfl

theorem replay_remove (hn : 1 ≤ w.n) (hnodup : (w.rows.map Row.aggId).Nodup)
    (hold : w.rows[old]? = some held) :
    replay (view w.visible) (if old < w.n then
        delta .leave held old (-1) :: promoted w.n (spliceOut w.rows old) else []) =
      view ((spliceOut w.rows old).take w.n) := by
  have hlt : old < w.rows.length := (List.getElem?_eq_some_iff.mp hold).1
  split_ifs with hvisible
  · rw [replay_cons, replay_leave, leave_visible hnodup hold rfl hvisible]
    exact replay_promoted hn
  · rw [take_spliceOut_of_le (by omega) hlt]
    rfl

theorem replay_moveDeltas (hn : 1 ≤ w.n) (hnodup : (w.rows.map Row.aggId).Nodup)
    (hold : w.rows[old]? = some held) (hid : held.aggId = r.aggId)
    (hpos : pos ≤ (spliceOut w.rows old).length) (hstay : ¬ (w.n ≤ old ∧ pos < w.n))
    (changes : Vals) :
    replay (view w.visible)
        (w.moveDeltas (spliceIn (spliceOut w.rows old) pos r) old pos r changes) =
      view ((spliceIn (spliceOut w.rows old) pos r).take w.n) := by
  have hlt : old < w.rows.length := (List.getElem?_eq_some_iff.mp hold).1
  unfold Window.moveDeltas
  split_ifs with holdv hposv hposv
  · rw [replay_cons, replay_nil, replay_move, leave_visible hnodup hold hid holdv,
      take_spliceIn r hpos hposv]
  · rw [replay_cons, replay_leave, leave_visible hnodup hold hid holdv,
      ← take_spliceIn_of_le r hpos (by omega)]
    exact replay_promoted hn
  · exact absurd ⟨by omega, hposv⟩ hstay
  · rw [take_spliceIn_of_le r hpos (by omega), take_spliceOut_of_le (by omega) hlt]
    rfl

theorem replay_reposition (hn : 1 ≤ w.n) (hnodup : (w.rows.map Row.aggId).Nodup)
    (hold : w.rows[old]? = some held) (hid : held.aggId = ch.aggId)
    (hstay : w.n ≤ old →
      ∀ x ∈ (w.reposition (fun _ _ _ => none) old held ch).1.visible, x.aggId ≠ ch.aggId) :
    replay (view w.visible) (w.reposition (fun _ _ _ => none) old held ch).2 =
      view (w.reposition (fun _ _ _ => none) old held ch).1.visible := by
  simp only [Window.reposition, maybeRefill_none] at hstay ⊢
  by_cases hsame : compareCursors w.q.sort held.cursor (rowFromChange w.q.sort ch).cursor = .eq
  · rw [if_pos hsame]
    simp only [Window.visible, take_set]
    split_ifs with hvisible
    · rw [replay_cons, replay_nil, replay_update]
    · rw [replay_nil, set_eq_of_length_le (by simp; omega)]
  · rw [if_neg hsame] at hstay ⊢
    rw [visible_trimTail] at hstay ⊢
    refine replay_moveDeltas hn hnodup hold hid (insertPos_le _ _ _) ?_ _
    rintro ⟨hcushion, hpos⟩
    exact hstay hcushion _ (mem_take_spliceIn (insertPos_le _ _ _) hpos) rfl

theorem replay_edited (hn : 1 ≤ w.n) (hnodup : (w.rows.map Row.aggId).Nodup)
    (hstay : movesIntoView w ch = false) :
    replay (view w.visible) (w.apply (fun _ _ _ => none) ch).2 = view (edited w ch).visible := by
  cases hidx : w.indexOf ch.aggId with
  | none =>
    have hfresh := indexOf_eq_none.mp hidx
    simp only [edited, Window.apply, hidx]
    cases w.matchesChange ch with
    | false => rfl
    | true =>
      simp only [Window.insert, maybeRefill_none, if_true]
      split_ifs
      · rfl
      · rw [visible_trimTail]
        exact replay_insertDeltas hn hnodup hfresh (insertPos_le _ _ _)
  | some old =>
    obtain ⟨held, hold, hid⟩ := indexOf_eq_some hidx
    rw [movesIntoView, hidx] at hstay
    simp only [edited, Window.apply, hidx, hold] at hstay ⊢
    cases hmatch : w.matchesChange ch with
    | false =>
      simp only [Window.remove, maybeRefill_none]
      exact replay_remove hn hnodup hold
    | true =>
      simp only [hmatch, if_true] at hstay ⊢
      refine replay_reposition hn hnodup hold hid ?_
      intro hcushion x hx heq
      have hmoved : ((w.reposition _ old held ch).1.visible.any
          fun r => r.aggId == ch.aggId) :=
        any_eq_true.mpr ⟨x, hx, by simpa using heq⟩
      simp [hcushion, hmoved] at hstay

theorem maybeRefill_quiet {a : Action} (hquiet : refillQuiet w a)
    (hnodup : ((edited w a.change).rows.map Row.aggId).Nodup) :
    ((edited w a.change).maybeRefill fun _ _ _ => a.refilled).visible =
        (edited w a.change).visible ∧
      (((edited w a.change).maybeRefill fun _ _ _ => a.refilled).rows.map Row.aggId).Nodup := by
  have hsize : (edited w a.change).n = w.n := apply_n _ _
  unfold Window.maybeRefill
  rw [refillQuiet] at hquiet
  split_ifs with hwants
  · cases hmore : a.refilled with
    | none => exact ⟨rfl, hnodup⟩
    | some more =>
      simp only [hwants, hmore, Bool.not_true, Bool.false_or, Bool.and_eq_true,
        Bool.or_eq_true, decide_eq_true_eq, List.isEmpty_iff] at hquiet
      refine ⟨?_, hquiet.2⟩
      rcases hquiet.1 with hempty | hfull
      · simp [Window.visible, hempty]
      · rw [Window.visible, Window.visible, hsize, take_append_of_le_length hfull]
  · exact ⟨rfl, hnodup⟩

structure Inv (s : State) : Prop where
  size : 1 ≤ s.window.n
  nodup : (s.window.rows.map Row.aggId).Nodup
  inSync : InSync s

theorem inv_step {s t : State} {a : Action} (h : Inv s) (hquiet : quiet s a)
    (hstep : step s a = some t) : Inv t := by
  cases hstep
  obtain ⟨hstay, hrefill⟩ := Bool.and_eq_true_iff.mp hquiet
  obtain ⟨hdeltas, hwindow⟩ := apply_refill s.window a.change fun _ _ _ => a.refilled
  have hreplay := replay_edited h.size h.nodup (by simpa using hstay)
  have hnodup := nodup_edited a.change h.nodup
  obtain ⟨hvisible, hnodup'⟩ := maybeRefill_quiet hrefill hnodup
  have hsync : replay s.client (s.window.apply (fun _ _ _ => a.refilled) a.change).2 =
      view (edited s.window a.change).visible := by
    rw [hdeltas, h.inSync, hreplay]
  refine ⟨?_, ?_, ?_⟩
  · simp only [apply_n]
    exact h.size
  · rcases hwindow with heq | heq <;> simp only [heq]
    · exact hnodup
    · exact hnodup'
  · rw [InSync]
    rcases hwindow with heq | heq <;> simp only [hsync, heq]
    rw [hvisible]

/-- In every quiet run, the client that replays the deltas shows the visible rows. -/
theorem inSync_of_quiet (q : LiveQuery) (pred : Vals → Bool) (seed : List Row)
    (complete : Bool) (cushion : Nat) (hlimit : 1 ≤ q.limit)
    (hseed : (seed.map Row.aggId).Nodup) {trace : List Action} {s : State}
    (hok : Along step (fun s a => quiet s a = true) (start q pred seed complete cushion) trace)
    (hrun : run step (start q pred seed complete cushion) trace = some s) : InSync s := by
  have hstart : Inv (start q pred seed complete cushion) := ⟨hlimit, hseed, rfl⟩
  exact (run_invariant (fun _ _ _ => inv_step) hstart hok hrun).inSync

def quietRun : List Action :=
  [⟨rankChange "d" 1 0, none⟩, ⟨rankChange "d" 2 0, none⟩, ⟨rankChange "d" 3 9, none⟩,
    ⟨{ rankChange "b" 2 0 with deleted := true }, none⟩,
    ⟨{ rankChange "a" 2 0 with deleted := true }, some [rankRow "e" 10]⟩]

theorem inSync_quietRun :
    ∃ s, run step (start byRank (fun _ => true) [rankRow "a" 1, rankRow "b" 2] false 2)
        quietRun = some s ∧ s.client = [⟨"d", 3, ""⟩] ∧ InSync s := by
  have hok : Along step (fun s a => quiet s a)
      (start byRank (fun _ => true) [rankRow "a" 1, rankRow "b" 2] false 2) quietRun := by
    decide
  exact ⟨_, rfl, by decide,
    inSync_of_quiet byRank _ _ false 2 (by decide) (by decide) hok rfl⟩

end Fabriq.Live.WindowReplay
