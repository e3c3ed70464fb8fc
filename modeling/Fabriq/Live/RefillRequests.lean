import Fabriq.Live.MaintainedWindow

namespace Fabriq.Live.RefillRequests

open Lib.Splice Live.MaintainedWindow Live.Order Live.Types List

/-- One value per sort key and an id: `keysetSQL` indexes the cursor at each of these places. -/
def Complete (q : LiveQuery) (c : Cursor) : Prop :=
  c.values.length = q.sort.length + 1

/-- Whether `Apply` comes to `maybeRefill`: not for a change it ignores, and not for a row
that keeps its place. -/
def splices (w : Window) (ch : Change) : Bool :=
  let r := rowFromChange w.q.sort ch
  match w.indexOf ch.aggId with
  | none => w.matchesChange ch && !(decide (w.rows.length ≤ insertPos w.q.sort w.rows r.cursor) &&
      decide (w.cap ≤ w.rows.length) && !w.complete)
  | some old => w.rows[old]?.any fun held =>
      !(w.matchesChange ch && compareCursors w.q.sort held.cursor r.cursor == .eq)

/-- The cursor with which one change makes the window call `Refiller.After`. -/
def request (w : Window) (ch : Change) : Option Cursor :=
  if splices w ch && (edited w ch).wantsRefill then some (edited w ch).refillAfter else none

/-- The cursors of all calls, as changes come in and the refiller of the moment answers. -/
def requests : Window → List (Change × Refiller) → List Cursor
  | _, [] => []
  | w, (ch, refill) :: rest => (request w ch).toList ++ requests (w.apply refill ch).1 rest

/-- The result is exhausted, or the buffer would not be low with `k` rows more. -/
def Fed (k : Nat) (w : Window) : Prop :=
  w.complete = true ∨ w.n + w.cushion / 2 ≤ w.rows.length + k

/-- Every row the refiller has given out carries a whole cursor, as `mapToRow` builds it. -/
def Keyed (q : LiveQuery) (refill : Refiller) : Prop :=
  ∀ q' after limit more, refill q' after limit = some more → ∀ r ∈ more, Complete q r.cursor

def Anchored (q : LiveQuery) : Prop :=
  ∃ a, q.cursor = some a ∧ Complete q a

variable {w : Window} {ch : Change} {refill : Refiller}

theorem fed_trimTail (h : Fed 1 w) : Fed 1 w.trimTail := by
  unfold Window.trimTail
  split_ifs with hlong
  · right
    rw [length_take, Nat.min_eq_left hlong.le, Window.cap]
    dsimp only
    omega
  · exact h

theorem fed_edited (h : Fed 0 w) : Fed 1 (edited w ch) := by
  have hlow : ∀ {rows : List Row}, w.rows.length ≤ rows.length + 1 → Fed 1 { w with rows } :=
    fun hrows => h.imp_right fun hlen => hlen.trans hrows
  have hedited := edited_from w ch
  generalize edited w ch = w' at hedited
  cases hedited with
  | ignored | skipped => exact hlow (Nat.le_succ _)
  | inserted =>
    refine fed_trimTail (hlow ?_)
    rw [length_spliceIn]
    omega
  | removed hold =>
    refine hlow ?_
    rw [length_spliceOut (List.getElem?_eq_some_iff.mp hold).1]
    omega
  | replaced hold => exact hlow (length_spliceIn_spliceOut hold ▸ Nat.le_succ _)
  | moved hold => exact fed_trimTail (hlow (length_spliceIn_spliceOut hold ▸ Nat.le_succ _))

theorem fed_maybeRefill (hsome : ∀ q after limit, (refill q after limit).isSome = true) :
    Fed 0 (w.maybeRefill refill) := by
  unfold Window.maybeRefill
  split_ifs with hwants
  · obtain ⟨more, hmore⟩ := Option.isSome_iff_exists.mp
      (hsome w.q w.refillAfter (w.cap - w.rows.length))
    rw [hmore]
    simp only [Fed, length_append, Bool.or_eq_true, decide_eq_true_eq]
    rw [Window.cap]
    omega
  · simpa [Fed, Window.wantsRefill, or_iff_not_imp_left] using hwants

theorem q_apply (w : Window) (refill : Refiller) (ch : Change) : (w.apply refill ch).1.q = w.q := by
  have h : (w.apply refill ch).1.shape.q = w.shape.q := by rw [shape_apply]
  exact h

theorem cushion_apply : (w.apply refill ch).1.cushion = w.cushion := by
  have h : (w.apply refill ch).1.shape.cushion = w.shape.cushion := by rw [shape_apply]
  exact h

theorem fed_apply (h : Fed 0 w) (hsome : ∀ q after limit, (refill q after limit).isSome = true) :
    Fed 0 (w.apply refill ch).1 := by
  rcases (apply_refill w ch refill).2 with ⟨heq, hlen, hcomplete⟩ | heq
  · rw [Fed, apply_n, cushion_apply, heq, hlen, hcomplete]
    exact h
  · rw [heq]
    exact fed_maybeRefill hsome

theorem complete_rowFromChange (q : LiveQuery) : Complete q (rowFromChange q.sort ch).cursor := by
  simp [Complete, rowFromChange, sortKeyOf]

theorem complete_request {c : Cursor} (hrows : ∀ r ∈ w.rows, Complete w.q r.cursor)
    (hstart : Anchored w.q ∨ 2 ≤ w.n + w.cushion / 2 ∧ Fed 0 w) (hc : c ∈ request w ch) :
    Complete w.q c := by
  obtain ⟨hcall, hc⟩ := Option.ite_none_right_eq_some.mp hc
  obtain rfl := Option.some.inj hc
  unfold Window.refillAfter
  split
  · rename_i r hlast
    rcases mem_edited (mem_of_mem_getLast? hlast) with hr | ⟨-, rfl⟩
    · exact hrows r hr
    · exact complete_rowFromChange w.q
  · rename_i hlast
    rcases hstart with ⟨a, ha, hwhole⟩ | ⟨hroom, hfed⟩
    · rwa [edited, q_apply, ha]
    -- Without an anchor the buffer is not empty here.
    · have hlow := (show Fed 1 (edited w ch) from fed_edited hfed).resolve_left fun hdone => by
        simp [Window.wantsRefill, hdone] at hcall
      rw [getLast?_eq_none_iff.mp hlast, edited, apply_n, cushion_apply, length_nil] at hlow
      omega

/-- No call is malformed along a run from a whole anchor, nor without one along a run whose refills
all succeed, from a buffer that is not low and too large for one removal to empty it. -/
theorem requests_complete (w : Window) (run : List (Change × Refiller))
    (hrows : ∀ r ∈ w.rows, Complete w.q r.cursor) (hkeyed : ∀ t ∈ run, Keyed w.q t.2)
    (hstart : Anchored w.q ∨ 2 ≤ w.n + w.cushion / 2 ∧ Fed 0 w ∧
      ∀ t ∈ run, ∀ q after limit, (t.2 q after limit).isSome = true) :
    ∀ c ∈ requests w run, Complete w.q c := by
  induction run generalizing w with
  | nil => exact fun _ => (absurd · not_mem_nil)
  | cons t rest ih =>
    obtain ⟨ch, refill⟩ := t
    rw [forall_mem_cons] at hkeyed
    intro c hc
    rcases mem_append.mp hc with hc | hc
    · exact complete_request hrows (hstart.imp_right fun h => ⟨h.1, h.2.1⟩)
        (Option.mem_toList.mp hc)
    · rw [← q_apply w refill ch] at hstart hkeyed ⊢
      refine ih _ ?_ hkeyed.2 ?_ c hc
      · intro r hr
        rcases mem_apply hr with (hr | ⟨-, rfl⟩) | ⟨_, _, _, _, hmore, hr⟩
        · rw [q_apply]
          exact hrows r hr
        · rw [q_apply]
          exact complete_rowFromChange w.q
        · exact hkeyed.1 _ _ _ _ hmore r hr
      · rw [apply_n, cushion_apply]
        refine hstart.imp_right fun ⟨hroom, hfed, hall⟩ => ?_
        rw [forall_mem_cons] at hall
        exact ⟨hroom, fed_apply hfed hall.1, hall.2⟩

def filled (rows : List Row) : Window :=
  newWindow { byRank with limit := rows.length } (fun _ => true) rows false 0

def removal : List (Change × Refiller) :=
  [({ rankChange "a" 2 1 with deleted := true }, fun _ _ _ => some [])]

theorem removal_of_two_requests :
    ∃ c ∈ requests (filled [rankRow "a" 1, rankRow "b" 2]) removal, Complete byRank c :=
  ⟨⟨[.num 2, .str "b"]⟩, mem_of_mem_head? rfl,
    requests_complete (filled [rankRow "a" 1, rankRow "b" 2]) removal
      (by simp [filled, newWindow, Complete, rankRow, rowFromChange, sortKeyOf, byRank])
      (by simp [removal, Keyed]) (.inr (by simp [filled, newWindow, removal, Fed])) _
      (mem_of_mem_head? rfl)⟩

/-- A window of one row that loses it refills from a cursor of no values. -/
theorem removal_requests_no_values :
    ∃ c ∈ requests (filled [rankRow "a" 1]) removal, ¬ Complete byRank c :=
  ⟨⟨[]⟩, mem_of_mem_head? rfl, by simp [Complete, byRank]⟩

end Fabriq.Live.RefillRequests
