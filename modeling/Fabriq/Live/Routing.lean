import Fabriq.Lib.Machine
import Fabriq.Live.Dispatcher

namespace Fabriq.Live.Routing

open Core.Value Lib Lib.Machine Lib.Splice Live.CandidateIndex Live.Dispatcher Live.MaintainedWindow
open List Option
open Live.Types

/-- The reverse index names a ready view for exactly the aggregates it holds, so every later change
of one reaches it, and no index names a view that is gone. -/
def RoutingExact (p : Partition) : Prop :=
  (∀ id v, p.view id = some v → v.ready = true → ∀ a,
      (v.contains a = true ↔ p.memberOf a id = true ∧ v.members a = true)) ∧
    (∀ id v ch, p.view id = some v → v.ready = true → v.contains ch.aggId = true →
      p.selects ch id = true) ∧
    (∀ a id, p.memberOf a id = true → (p.view id).isSome = true) ∧
    ∀ id, p.index.mentions id → (p.view id).isSome = true

/-- A matching change finds room: its row is held already, the buffer is not full, or
the row sorts behind a full one and does not stay. -/
def fitsBuffer (w : Window) (ch : Change) : Bool :=
  !w.matchesChange ch ||
    if w.contains ch.aggId then decide (w.rows.length ≤ w.cap)
    else decide (w.rows.length < w.cap) ||
      (decide (w.rows.length ≤
        insertPos w.q.sort w.rows (rowFromChange w.q.sort ch).cursor) &&
        (!w.complete || decide (w.rows.length ≤ w.cap)))

/-- The refiller fails or has no more rows, if it is asked at all. -/
def refillsNothing (answer : Option (List Row)) (w : Window) (ch : Change) : Bool :=
  !(edited w ch).wantsRefill || answer.all isEmpty

/-- The change moves no row but its own into or out of the view. -/
def keepsOthers (answer : Option (List Row)) (v : View) (ch : Change) : Bool :=
  match v.q.mode, v.win with
  | .maintained, some w => v.isStale ch || (fitsBuffer w ch && refillsNothing answer w ch)
  | _, _ => true

def keepsRouting (e : Engine) (p : Partition) : Action → Bool
  | .activate id page ids refills =>
    (p.view id).all fun v =>
      let seeded := seedView e.cushion v (p.column id) page ids
      drainAll keepsOthers refills seeded.1 seeded.2 v.pending
  | .dispatch ch refills =>
    p.views.all fun (id, v) =>
      !(v.ready && p.selects ch id) || keepsOthers (refills id) v ch
  | _ => true

def engine (cushion : Nat) : Engine :=
  ⟨cushion, fun _ => "view", id⟩

def joined : List Action :=
  [.create byRank, .activate "view" [rankRow "a" 1, rankRow "b" 2] [] [], .join 1 "view"]

/-- An insert at the front of a full buffer drops the last row, and the reverse index
keeps it. -/
theorem trimmedRow_not_routingExact : ∃ p, run (step (engine 1)) .empty
        (joined ++ [.dispatch (rankChange "c" 1 0) fun _ => none]) = some p ∧ ¬ RoutingExact p := by
  refine ⟨_, rfl, ?_⟩
  rintro ⟨h, -⟩
  have hb := h "view" _ rfl rfl "b"
  revert hb
  decide

variable {w : Window} {ch : Change} {a : String} {answer : Option (List Row)} {pos : Nat} {r : Row}
  {rows : List Row}

theorem exists_spliceIn (hne : r.aggId ≠ a) :
    (∃ x ∈ spliceIn rows pos r, x.aggId = a) ↔ ∃ x ∈ rows, x.aggId = a := by
  simp only [mem_spliceIn]
  constructor
  · rintro ⟨x, rfl | hx, heq⟩
    · exact absurd heq hne
    · exact ⟨x, hx, heq⟩
  · rintro ⟨x, hx, heq⟩
    exact ⟨x, .inr hx, heq⟩

theorem exists_spliceOut {old : Nat} {held : Row}
    (hold : rows[old]? = some held) (hne : held.aggId ≠ a) :
    (∃ x ∈ spliceOut rows old, x.aggId = a) ↔ ∃ x ∈ rows, x.aggId = a := by
  constructor
  · rintro ⟨x, hx, heq⟩
    exact ⟨x, (spliceOut_sublist _ _).subset hx, heq⟩
  · rintro ⟨x, hx, heq⟩
    refine ⟨x, mem_spliceOut hold hx ?_, heq⟩
    rintro rfl
    exact hne heq

theorem trimTail_spliceIn_behind (hpos : w.rows.length ≤ pos) (hfull : w.rows.length = w.cap) :
    ({ w with rows := spliceIn w.rows pos r } : Window).trimTail.rows = w.rows := by
  have hrows : spliceIn w.rows pos r = w.rows ++ [r] := by
    rw [spliceIn, take_of_length_le hpos, drop_of_length_le hpos]
  have hcap : ({ w with rows := w.rows ++ [r] } : Window).cap = w.rows.length := hfull.symm
  rw [hrows, Window.trimTail, hcap, if_pos (by simp)]
  exact take_left

theorem exists_edited (hfits : fitsBuffer w ch) (hne : ch.aggId ≠ a) :
    (∃ x ∈ (edited w ch).rows, x.aggId = a) ↔ ∃ x ∈ w.rows, x.aggId = a := by
  have hedited := edited_from w ch
  generalize edited w ch = w' at hedited ⊢
  cases hedited with
  | ignored | skipped => rfl
  | inserted hidx hmatch hours =>
    have hcont : w.contains ch.aggId = false := by simp [Window.contains, hidx]
    by_cases hroom : w.rows.length < w.cap
    · rw [trimTail_of_le (by rw [length_spliceIn]; exact hroom)]
      exact exists_spliceIn hne
    · -- The row sorts behind a full buffer and is trimmed off again.
      have hfull := Nat.not_lt.mp hroom
      simp only [fitsBuffer, hmatch, hcont, hroom, decide_false, Bool.not_true,
        Bool.false_or, Bool.false_eq_true, if_false, Bool.and_eq_true,
        Bool.or_eq_true, decide_eq_true_eq, Bool.not_eq_true'] at hfits
      obtain ⟨hbehind, hcompl | hle⟩ := hfits
      · exact absurd ⟨hbehind, hfull, hcompl⟩ hours
      · rw [trimTail_spliceIn_behind hbehind (Nat.le_antisymm hle hfull)]
  | removed hold hid => exact exists_spliceOut hold (hid.trans_ne hne)
  | replaced hold hid =>
    exact (exists_spliceIn hne).trans (exists_spliceOut hold (hid.trans_ne hne))
  | moved hold hid hmatch =>
    have hcont : w.contains ch.aggId := contains_eq_true.mpr ⟨_, mem_of_getElem? hold, hid⟩
    rw [fitsBuffer, hmatch, hcont] at hfits
    have hroom : w.rows.length ≤ w.cap := by simpa using hfits
    rw [trimTail_of_le (length_spliceIn_spliceOut hold ▸ hroom)]
    exact (exists_spliceIn hne).trans (exists_spliceOut hold (hid.trans_ne hne))

theorem rows_apply (hrefill : refillsNothing answer w ch) :
    (w.apply (fun _ _ _ => answer) ch).1.rows = (edited w ch).rows := by
  rcases (apply_refill w ch fun _ _ _ => answer).2 with ⟨heq, -⟩ | heq
  · rw [heq]
  · rw [heq, Window.maybeRefill]
    split_ifs with hwants
    · rw [refillsNothing, hwants] at hrefill
      cases answer with
      | none => rfl
      | some more =>
        have hempty : more = [] := by simpa using hrefill
        simp [hempty]
    · rfl

theorem contains_apply_of_ne (hfits : fitsBuffer w ch)
    (hrefill : refillsNothing answer w ch) (hne : ch.aggId ≠ a) :
    (w.apply (fun _ _ _ => answer) ch).1.contains a = w.contains a := by
  rw [Bool.eq_iff_iff, contains_eq_true, contains_eq_true, rows_apply hrefill]
  exact exists_edited hfits hne

variable {v : View} {column : Column}

theorem contains_setMember (a b : String) (member : Bool) :
    (setMember v column a member).1.contains b = v.contains b := rfl

theorem contains_absorb_of_ne (hkeep : keepsOthers answer v ch) (hfresh : v.isStale ch = false)
    (hne : ch.aggId ≠ a) :
    ((v.markSeen ch).absorb (fun _ _ _ => answer) ch).1.contains a = v.contains a := by
  rw [View.contains, View.contains, q_absorb]
  cases hmode : v.q.mode with
  | streamed =>
    simp only [View.markSeen, View.absorb, hmode, streamMembers_applyStreamed, if_neg (Ne.symm hne)]
  | maintained =>
    cases hwin : v.win with
    | none => simp [View.markSeen, View.absorb, hmode, hwin]
    | some w =>
      simp only [keepsOthers, hmode, hwin, hfresh, Bool.false_or, Bool.and_eq_true] at hkeep
      simp only [View.markSeen, View.absorb, hmode, hwin, any_some]
      exact contains_apply_of_ne hkeep.1 hkeep.2 hne

/-- The reverse index and the view's own member set name what the view holds, and a
view that is not ready holds nothing. -/
structure Routed (v : View) (column : Column) : Prop where
  column_eq : ∀ a, column a = v.contains a
  members_eq : ∀ a, v.members a = v.contains a
  idle : v.ready = false → ∀ a, v.contains a = false

section

variable (h : Routed v column)
include h

theorem Routed.applyReady (hready : v.ready) (hkeep : keepsOthers answer v ch) :
    Routed (applyReady (fun _ _ _ => answer) v column ch).1.1
        (applyReady (fun _ _ _ => answer) v column ch).1.2 ∧
      (Dispatcher.applyReady (fun _ _ _ => answer) v column ch).1.1.ready := by
  unfold Dispatcher.applyReady
  by_cases hstale : v.isStale ch
  · rw [if_pos hstale]
    exact ⟨h, hready⟩
  · rw [if_neg hstale]
    have hready' : ((v.markSeen ch).absorb (fun _ _ _ => answer) ch).1.ready := by
      rw [ready_absorb]
      exact hready
    have hmembers : ((v.markSeen ch).absorb (fun _ _ _ => answer) ch).1.members = v.members :=
      members_absorb
    have hothers : ∀ a, ch.aggId ≠ a →
        ((v.markSeen ch).absorb _ ch).1.contains a = v.contains a :=
      fun a hne => contains_absorb_of_ne hkeep (by simpa using hstale) hne
    simp only
    split_ifs with hsame
    · have hall : ∀ a, ((v.markSeen ch).absorb (fun _ _ _ => answer) ch).1.contains a =
          v.contains a := by
        intro a
        rcases eq_or_ne a ch.aggId with rfl | ha
        · exact hsame
        · exact hothers a (Ne.symm ha)
      refine ⟨⟨fun a => ?_, fun a => ?_, by simp [hready']⟩, hready'⟩
      · exact (h.column_eq a).trans (hall a).symm
      · rw [hmembers, h.members_eq, hall]
    · refine ⟨⟨fun a => ?_, fun a => ?_, by simp [setMember, hready']⟩, hready'⟩
      · rcases eq_or_ne a ch.aggId with rfl | ha
        · rw [contains_setMember]
          simp [setMember]
        · rw [contains_setMember, hothers a (Ne.symm ha), ← h.column_eq]
          simp [setMember, ha]
      · rcases eq_or_ne a ch.aggId with rfl | ha
        · rw [contains_setMember]
          simp [setMember]
        · rw [contains_setMember, hothers a (Ne.symm ha), ← h.members_eq]
          simp [setMember, ha, hmembers]

theorem Routed.drain {pending : List Change} {refills : List (Option (List Row))}
    (hready : v.ready) (hkeep : drainAll keepsOthers refills v column pending) :
    Routed (drain refills v column pending).1 (drain refills v column pending).2 := by
  have hstep : ∀ answer v column ch, ch ∈ pending → keepsOthers answer v ch →
      Routed v column ∧ v.ready → _ :=
    fun answer v column ch _ hkeep hv => hv.1.applyReady hv.2 hkeep
  exact (drain_invariant hstep hkeep ⟨h, hready⟩).1

theorem Routed.seedView (hidle : v.ready = false) (cushion : Nat)
    (page : List Row) (ids : List String) :
    Routed (seedView cushion v column page ids).1 (seedView cushion v column page ids).2 ∧
      (Dispatcher.seedView cushion v column page ids).1.ready := by
  have hcolumn : ∀ a, column a = false := fun a => by rw [h.column_eq, h.idle hidle]
  have hmembers : ∀ a, v.members a = false := fun a => by rw [h.members_eq, h.idle hidle]
  unfold Dispatcher.seedView
  cases hmode : v.q.mode with
  | streamed =>
    refine ⟨⟨?_, ?_, by simp⟩, rfl⟩ <;> intro a <;>
      simp [View.contains, hmode, hcolumn, hmembers]
  | maintained =>
    have hheld : ∀ a, (page.any fun r => r.aggId == a) =
        (newWindow v.q v.pred page (decide (page.length < v.q.limit + cushion))
          cushion).contains a := by
      intro a
      rw [Bool.eq_iff_iff, contains_eq_true, List.any_eq_true]
      simp [newWindow]
    refine ⟨⟨?_, ?_, by simp⟩, rfl⟩ <;> intro a <;>
      simp [View.contains, hmode, hcolumn, hmembers, hheld]

theorem Routed.applyChange (hkeep : v.ready → keepsOthers answer v ch) :
    Routed (applyChange (fun _ _ _ => answer) v column ch).1.1
      (applyChange (fun _ _ _ => answer) v column ch).1.2 := by
  unfold Dispatcher.applyChange
  split_ifs with hready
  · exact (h.applyReady hready (hkeep hready)).1
  · exact ⟨h.column_eq, h.members_eq, h.idle⟩

end

structure Inv (p : Partition) : Prop where
  routed : ∀ id v, p.view id = some v → Routed v (p.column id)
  unheld : ∀ id, p.view id = none → ∀ a, p.memberOf a id = false
  indexed : ∀ id, p.index.mentions id → (p.view id).isSome = true

theorem Inv.routingExact {p : Partition} (h : Inv p) : RoutingExact p := by
  refine ⟨?_, ?_, ?_, h.indexed⟩
  · intro id v hv _ a
    have hrouted := h.routed id v hv
    have hcolumn : p.memberOf a id = v.contains a := hrouted.column_eq a
    rw [hcolumn, hrouted.members_eq]
    simp
  · intro id v ch hv _ hheld
    have hcolumn : p.memberOf ch.aggId id = v.contains ch.aggId :=
      (h.routed id v hv).column_eq ch.aggId
    rw [Partition.selects, hcolumn, hheld, Bool.or_true]
  · intro a id hmember
    by_contra hgone
    rw [h.unheld id (by simpa using hgone) a] at hmember
    simp at hmember

variable {p : Partition} {id : String}

theorem Inv.put (h : Inv p) {entry : View × Column} (hentry : Routed entry.1 entry.2)
    {index : PredicateIndex} (hindex : ∀ i, index.mentions i → i = id ∨ p.index.mentions i) :
    Inv { p.put id entry with index := index } where
  routed i v hv := by
    change (p.put id entry).view i = some v at hv
    change Routed v ((p.put id entry).column i)
    rw [view_put] at hv
    rw [column_put]
    split_ifs at hv ⊢
    · cases hv
      exact hentry
    · exact h.routed i v hv
  unheld i hv a := by
    change (p.put id entry).view i = none at hv
    change (p.put id entry).column i a = false
    rw [view_put] at hv
    rw [column_put]
    split_ifs at hv ⊢
    exact h.unheld i hv a
  indexed i hi := by
    change ((p.put id entry).view i).isSome
    rw [view_put]
    rcases hindex i hi with rfl | hmention
    · simp
    · split_ifs
      · rfl
      · exact h.indexed i hmention

theorem Inv.dispatch (h : Inv p) {refills : String → Option (List Row)}
    (hkeep : ∀ i v, p.view i = some v → v.ready → p.selects ch i →
      keepsOthers (refills i) v ch) : Inv (p.dispatch ch refills) := by
  refine ⟨?_, ?_, ?_⟩
  · intro i v hv
    rw [view_dispatch] at hv
    obtain ⟨u, hu, rfl⟩ := map_eq_some_iff.mp hv
    rw [column_dispatch hu, Partition.next]
    split_ifs with hselect
    · exact (h.routed i u hu).applyChange fun hready => hkeep i u hu hready hselect
    · exact h.routed i u hu
  · intro i hv a
    have hnone : p.view i = none := by simpa [view_dispatch] using hv
    simpa [Partition.dispatch, hnone] using h.unheld i hnone a
  · intro i hi
    rw [view_dispatch, isSome_map]
    exact h.indexed i hi

theorem Inv.drop (h : Inv p) {memberOf : String → String → Bool}
    (hcleared : ∀ a, memberOf a id = false)
    (hothers : ∀ a i, i ≠ id → memberOf a i = p.memberOf a i) :
    Inv { p with
      index := p.index.remove id
      views := Assoc.drop p.views id
      memberOf := memberOf } where
  routed i v hv := by
    rw [Partition.view, Assoc.lookup_drop] at hv
    split_ifs at hv with hi
    have hcolumn : (fun a => memberOf a i) = p.column i := by
      funext a
      exact hothers a i hi
    have hrouted := h.routed i v hv
    rw [← hcolumn] at hrouted
    exact hrouted
  unheld i hv a := by
    rw [Partition.view, Assoc.lookup_drop] at hv
    by_cases hi : i = id
    · exact hi ▸ hcleared a
    · rw [if_neg hi] at hv
      exact (hothers a i hi).trans (h.unheld i hv a)
  indexed i hi := by
    obtain ⟨hne, hmention⟩ := mentions_remove hi
    rw [Partition.view, Assoc.lookup_drop, if_neg hne]
    exact h.indexed i hmention

theorem Inv.subView (h : Inv p) (subView : Nat → Option String) :
    Inv { p with subView := subView } :=
  ⟨h.routed, h.unheld, h.indexed⟩

theorem inv_empty : Inv .empty where
  routed id v hv := by simp [Partition.empty, Partition.view] at hv
  unheld _ _ _ := rfl
  indexed id h := absurd h not_mentions_empty

theorem contains_newView (q : LiveQuery) (pred : Vals → Bool) (a : String) :
    (newView q pred).contains a = false := by
  unfold View.contains
  cases (newView q pred).q.mode <;> rfl

theorem inv_step {e : Engine} {q : Partition} {a : Action} (h : Inv p) (hkeep : keepsRouting e p a)
    (hstep : step e p a = some q) : Inv q := by
  cases a with
  | create query =>
    obtain rfl | ⟨hnone, rfl⟩ := step_create hstep
    · exact h
    · have hempty := contains_newView query (compile e.toLower query.conds)
      refine h.put ⟨fun a => ?_, fun a => ?_, fun _ a => hempty a⟩ fun i => mentions_add
      · exact (h.unheld _ hnone a).trans (hempty a).symm
      · exact (hempty a).symm
  | activate id page ids refills =>
    obtain ⟨v, hv, hready, rfl⟩ := step_activate hstep
    simp only [keepsRouting, hv, all_some] at hkeep
    obtain ⟨hseeded, hseededReady⟩ := (h.routed id v hv).seedView hready _ page ids
    exact h.put (hseeded.drain hseededReady hkeep) fun i => .inr
  | failSeed id =>
    obtain rfl | ⟨⟨v, hv, hready⟩, rfl⟩ := step_failSeed hstep
    · exact h
    · refine h.drop (fun a => ?_) fun a i _ => rfl
      have hrouted := h.routed id v hv
      exact (hrouted.column_eq a).trans (hrouted.idle hready a)
  | join sub id =>
    obtain ⟨v, hv, -, rfl⟩ := step_join hstep
    have hrouted := h.routed id v hv
    refine Inv.subView (p := p.put id _) ?_ _
    exact h.put ⟨hrouted.column_eq, hrouted.members_eq, hrouted.idle⟩ fun i => .inr
  | dispatch ch refills =>
    cases hstep
    refine h.dispatch fun i v hv hready hselect => ?_
    have hone := all_eq_true.mp hkeep (i, v) (Assoc.mem_of_lookup hv)
    simpa [hready, hselect] using hone
  | detach sub =>
    obtain rfl | ⟨subView, rfl | ⟨id, v, hv, hleft⟩⟩ := step_detach hstep
    · exact h
    · exact h.subView _
    · have hrouted := h.routed id v hv
      rcases hleft with rfl | rfl
      · refine (h.subView _).drop (fun a => ?_) fun a i hi => ?_
        · have hcolumn : p.memberOf a id = v.members a :=
            (hrouted.column_eq a).trans (hrouted.members_eq a).symm
          rw [hcolumn]
          cases v.members a <;> simp
        · simp [hi]
      · exact (h.subView _).put ⟨hrouted.column_eq, hrouted.members_eq, hrouted.idle⟩ fun i => .inr

/-- In every run that moves no other rows, the reverse index follows what the views hold. -/
theorem routingExact_of_keepsRouting (e : Engine) {trace : List Action} {p : Partition}
    (hok : Along (step e) (fun p a => keepsRouting e p a = true) .empty trace)
    (hrun : run (step e) .empty trace = some p) : RoutingExact p := by
  exact (run_invariant (fun _ _ _ => inv_step) inv_empty hok hrun).routingExact

def settledRun : List Action :=
  [.create byRank, .dispatch (rankChange "b" 2 3) fun _ => none,
    .activate "view" [rankRow "a" 1, rankRow "b" 2] [] [], .join 1 "view", .join 2 "view",
    .dispatch (rankChange "c" 1 0) fun _ => none,
    .dispatch { rankChange "a" 2 0 with deleted := true } fun _ => none, .detach 2]

theorem routingExact_settledRun :
    ∃ p, run (step (engine 2)) .empty settledRun = some p ∧ p.memberOf "c" "view" = true ∧
      p.memberOf "a" "view" = false ∧ RoutingExact p := by
  have hok : Along (step (engine 2)) (fun p a => keepsRouting (engine 2) p a) .empty
      settledRun := by decide
  exact ⟨_, rfl, by decide, by decide, routingExact_of_keepsRouting _ hok rfl⟩

end Fabriq.Live.Routing
