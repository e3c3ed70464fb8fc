import Fabriq.Live.Handoff

namespace Fabriq.Live.StreamedRows

open Fabriq.Core.Value (Vals)
open Lib Lib.Assoc Lib.KeyedLog Live.Dispatcher Live.MaintainedWindow Live.Routing Live.Types List
open Live.Handoff (Attach State)

structure Held where
  version : Int
  raw : String
  deriving DecidableEq

abbrev Shown := String → Option Held

structure World where
  base : State
  shown : Nat → Shown

def start : World :=
  ⟨Handoff.start, fun _ _ => none⟩

def renderPage (page : List Row) : Shown :=
  fun a => (page.find? fun r => r.aggId = a).map fun r => ⟨r.version, r.raw⟩

def applyDelta (shown : Shown) (d : LiveDelta) : Shown :=
  match d.op with
  | .isMatch | .update => fun a => if a = d.aggId then some ⟨d.version, d.row⟩ else shown a
  | .unmatch => fun a => if a = d.aggId then none else shown a
  | _ => shown

def deltas (c : Attach) (s : State) (ch : Change) (refill : Option (List Row)) : List LiveDelta :=
  match s.view c with
  | some v =>
    if s.partition.selects ch c.key then
      (applyChange (fun _ _ _ => refill) v (s.partition.column c.key) ch).2
    else []
  | none => []

def attached (c : Attach) (s : State) : List Nat :=
  ((s.view c).map View.subs).getD []

def fanOut (c : Attach) (w : World) (ds : List LiveDelta) : Nat → Shown :=
  fun sub => if sub ∈ attached c w.base then ds.foldl applyDelta (w.shown sub) else w.shown sub

inductive Action
  | feed (a : Handoff.Action)
  | join (sub : Nat)
  | leave (sub : Nat)

def step (c : Attach) (w : World) : Action → Option World
  | .feed a => (Handoff.step c w.base a).map fun s =>
    { base := s
      shown := match a with
        | .deliver agg refill =>
          match (w.base.history agg)[w.base.delivered agg]? with
          | some ch => fanOut c w (deltas c w.base ch refill)
          | none => w.shown
        | _ => w.shown }
  | .join sub => (Dispatcher.step c.engine w.base.partition (.join sub c.key)).map fun p =>
    { base := { w.base with partition := p }
      shown := fun i => if i = sub then
          renderPage (((w.base.view c).map View.initialPage).getD [])
        else w.shown i }
  | .leave sub => (Dispatcher.step c.engine w.base.partition (.detach sub)).map fun p =>
    { w with base :=
        if (p.view c.key).isSome then { w.base with partition := p }
        else { w.base with partition := p, page := none, ids := none } }

/-- Once all changes are dispatched, what an attached subscriber shows exists, satisfies the
query and has its latest contents. -/
def NoStaleRows (c : Attach) (w : World) : Prop :=
  (∀ a, w.base.delivered a = (w.base.history a).length) →
    ∀ sub ∈ attached c w.base, ∀ a held, w.shown sub a = some held →
      ∃ ch, latest Change.aggId w.base.log a = some ch ∧ c.accepts ch = true ∧
        held = ⟨ch.version, ch.raw⟩

/-- A subscriber joins only while the view holds every row of its page as the page has it, and
nothing newer of the row was dispatched. -/
def joinsFresh (c : Attach) (w : World) : Action → Prop
  | .join _ => ∀ v ∈ w.base.view c, ∀ r ∈ v.initialPage, v.streamMembers r.aggId = true ∧
      v.seen r.aggId = some r.version ∧
      ∀ ch ∈ (w.base.history r.aggId).take (w.base.delivered r.aggId), ch.version ≤ r.version
  | _ => True

instance (c : Attach) (w : World) : ∀ a, Decidable (joinsFresh c w a)
  | .join _ => inferInstanceAs (Decidable (∀ v ∈ w.base.view c, ∀ r ∈ v.initialPage, _))
  | .feed _ | .leave _ => isTrue trivial

def View.core (v : View) : View :=
  { newView v.q v.pred with initialPage := v.initialPage, subs := v.subs, ready := v.ready }

variable {c : Attach} {v : View} {column : Column} {ch : Change} {refill : Option (List Row)}
  {a : String}

theorem core_applyReady (refill : Refiller) (column : Column) :
    View.core (applyReady refill v column ch).1.1 = View.core v := by
  cases hstale : v.isStale ch with
  | true => rw [applyReady_of_stale hstale]
  | false =>
    obtain ⟨members, heq⟩ := exists_applyReady refill column hstale
    have hframe := congrArg View.core (@frame_absorb (v.markSeen ch) ch refill)
    rw [heq]
    exact hframe

variable {refills : List (Option (List Row))}

theorem core_drain {pending : List Change} :
    View.core (drain refills v column pending).1 = View.core v := by
  induction pending generalizing refills v column with
  | nil => rfl
  | cons ch rest ih => exact ih.trans (core_applyReady _ _)

section

variable (hmode : v.q.mode = .streamed)
include hmode

theorem core_activate {cushion : Nat} {page : List Row} {ids : List String} :
    View.core (activate cushion refills v column page ids).1 =
      { View.core v with initialPage := page, ready := true } := by
  rw [activate, core_drain, seedView, hmode]
  rfl

theorem keepsOthers_of_streamed : keepsOthers refill v ch := by
  rw [keepsOthers, hmode]

theorem streamMembers_applyReady (hfresh : v.isStale ch = false) :
    (applyReady (fun _ _ _ => refill) v column ch).1.1.streamMembers a =
      if a = ch.aggId then v.matchesChange ch else v.streamMembers a := by
  obtain ⟨members, heq⟩ := exists_applyReady _ column hfresh
  have habsorb : (v.markSeen ch).absorb (fun _ _ _ => refill) ch =
      (v.markSeen ch).applyStreamed ch := by
    simp only [View.absorb, View.markSeen, hmode]
  rw [heq, habsorb]
  exact streamMembers_applyStreamed a

theorem foldl_applyDelta (hfresh : v.isStale ch = false) (shown : Shown) :
    (applyReady (fun _ _ _ => refill) v column ch).2.foldl applyDelta shown a =
      if a = ch.aggId ∧ (v.matchesChange ch = true ∨ v.streamMembers a = true) then
        if v.matchesChange ch then some ⟨ch.version, ch.raw⟩ else none else shown a := by
  have habsorb : (v.markSeen ch).absorb (fun _ _ _ => refill) ch =
      (v.markSeen ch).applyStreamed ch := by
    simp only [View.absorb, View.markSeen, hmode]
  rw [applyReady, if_neg (by simp [hfresh]), habsorb]
  have hmatch : (v.markSeen ch).matchesChange ch = v.matchesChange ch := rfl
  have hmembers : (v.markSeen ch).streamMembers = v.streamMembers := rfl
  simp only [View.applyStreamed, hmatch, hmembers]
  by_cases ha : a = ch.aggId
  · subst ha
    cases v.matchesChange ch <;> cases v.streamMembers ch.aggId <;> simp [applyDelta]
  · cases v.matchesChange ch <;> cases v.streamMembers ch.aggId <;> simp [applyDelta, ha]

end

def Copied (c : Attach) (s : State) (a : String) (held : Held) : Prop :=
  ∃ ch ∈ s.history a, c.accepts ch = true ∧ held = ⟨ch.version, ch.raw⟩

structure Holds (c : Attach) (s : State) (v : View) (a : String) (held : Held) : Prop where
  member : v.streamMembers a = true
  seen : v.seen a = some held.version
  copied : Copied c s a held
  newest : ∀ ch ∈ (s.history a).take (s.delivered a), ch.version ≤ held.version

structure ViewInv (c : Attach) (w : World) (v : View) : Prop where
  query : v.q = c.q
  filter : v.pred = c.pred
  routed : Routed v (w.base.partition.column c.key)
  page : ∀ r ∈ v.initialPage, Copied c w.base r.aggId ⟨r.version, r.raw⟩
  idle : v.ready = false → v.subs = []
  holds : ∀ sub ∈ v.subs, ∀ a held, w.shown sub a = some held → Holds c w.base v a held

structure Inv (c : Attach) (w : World) : Prop where
  ordered : Ordered Change.aggId Change.version w.base.log
  bounded : ∀ a, w.base.delivered a ≤ (w.base.history a).length
  page : ∀ page ∈ w.base.page, ∀ r ∈ page, Copied c w.base r.aggId ⟨r.version, r.raw⟩
  view : ∀ v ∈ w.base.view c, ViewInv c w v
  unheld : w.base.view c = none → ∀ a, w.base.partition.column c.key a = false

variable {w : World} {s : State} {p : Partition}

theorem copied_snapshot {r : Row} (hr : r ∈ c.snapshot s.log) :
    Copied c s r.aggId ⟨r.version, r.raw⟩ := by
  obtain ⟨ch, hlast, haccepts, rfl⟩ := Handoff.mem_result.mp (Handoff.snapshot_sublist.subset hr)
  exact ⟨ch, mem_of_latest hlast, haccepts, rfl⟩

theorem routed_newView {q : LiveQuery} {pred : Vals → Bool} (hcolumn : ∀ a, column a = false) :
    Routed (newView q pred) column := by
  have hcont : ∀ a, (newView q pred).contains a = false := by
    intro a
    unfold View.contains
    split <;> rfl
  exact ⟨fun a => (hcolumn a).trans (hcont a).symm, fun a => (hcont a).symm, fun _ => hcont⟩

theorem drainAll_of_streamed {pending : List Change} (hmode : v.q.mode = .streamed) :
    drainAll keepsOthers refills v column pending := by
  induction pending generalizing refills v column with
  | nil => rfl
  | cons ch rest ih =>
    refine Bool.and_eq_true_iff.mpr ⟨keepsOthers_of_streamed hmode, ih ?_⟩
    have hcore := congrArg View.q (@core_applyReady v ch (fun _ _ _ => refills.headD none) column)
    exact (congrArg LiveQuery.mode hcore).trans hmode

theorem take_succ_deliver (hch : (w.base.history a)[w.base.delivered a]? = some ch) :
    (w.base.history a).take (w.base.delivered a + 1) =
      (w.base.history a).take (w.base.delivered a) ++ [ch] := by
  rw [take_add_one, hch]
  rfl

section

variable (h : Inv c w)
include h

theorem Inv.keep (hpart : s.partition = w.base.partition) (hlog : w.base.log <+: s.log)
    (htake : ∀ a, ∀ ch ∈ (s.history a).take (s.delivered a),
      ch ∈ (w.base.history a).take (w.base.delivered a))
    (hordered : Ordered Change.aggId Change.version s.log)
    (hbounded : ∀ a, s.delivered a ≤ (s.history a).length)
    (hpage : ∀ page ∈ s.page, page ∈ w.base.page ∨
      ∀ r ∈ page, Copied c s r.aggId ⟨r.version, r.raw⟩) : Inv c ⟨s, w.shown⟩ := by
  have hcopied : ∀ a held, Copied c w.base a held → Copied c s a held := by
    rintro a held ⟨ch, hch, hrest⟩
    exact ⟨ch, (history_mono hlog).subset hch, hrest⟩
  have hview : s.view c = w.base.view c := by rw [State.view, hpart, State.view]
  refine ⟨hordered, hbounded, ?_, ?_, ?_⟩
  · intro page hmem r hr
    rcases hpage page hmem with hold | hnew
    · exact hcopied _ _ (h.page page hold r hr)
    · exact hnew r hr
  · intro v hv
    have hv := h.view v (hview ▸ hv)
    refine ⟨hv.query, hv.filter, ?_, fun r hr => hcopied _ _ (hv.page r hr), hv.idle, ?_⟩
    · change Routed v (s.partition.column c.key)
      exact hpart ▸ hv.routed
    · intro sub hsub a held hshown
      have hheld := hv.holds sub hsub a held hshown
      exact ⟨hheld.member, hheld.seen, hcopied a held hheld.copied,
        fun ch hch => hheld.newest ch (htake a ch hch)⟩
  · intro hnone
    rw [hpart]
    exact h.unheld (hview ▸ hnone)

theorem inv_commit (hnew : ∀ last, latest Change.aggId w.base.log ch.aggId = some last →
      last.version < ch.version) : Inv c ⟨{ w.base with log := w.base.log ++ [ch] }, w.shown⟩ := by
  have hpre : ∀ a, w.base.history a <+: KeyedLog.history Change.aggId (w.base.log ++ [ch]) a :=
    fun a => history_mono (prefix_append _ _)
  refine h.keep rfl (prefix_append _ _) ?_ (h.ordered.append hnew) ?_ ?_
  · intro a x hx
    obtain ⟨rest, hrest⟩ := hpre a
    change x ∈ (KeyedLog.history Change.aggId (w.base.log ++ [ch]) a).take _ at hx
    rwa [← hrest, take_append_of_le_length (h.bounded a)] at hx
  · exact fun a => (h.bounded a).trans (hpre a).length_le
  · exact fun page hmem => .inl hmem

theorem inv_rewind {pos : Nat} (hpos : pos < w.base.delivered a) :
    Inv c ⟨{ w.base with delivered := fun b => if b = a then pos else w.base.delivered b },
      w.shown⟩ := by
  have hle : ∀ b, (if b = a then pos else w.base.delivered b) ≤ w.base.delivered b := by
    intro b
    split_ifs with hb
    · exact hb ▸ hpos.le
    · exact le_rfl
  refine h.keep rfl (prefix_refl _) (fun b x hx => ?_) h.ordered
    (fun b => (hle b).trans (h.bounded b)) fun page hmem => .inl hmem
  exact (take_sublist_take_left (hle b)).subset hx

theorem inv_read {page : Option (List Row)} {ids : Option (List String)}
    (hpage : page = w.base.page ∨ page = some (c.snapshot w.base.log) ∨ page = none) :
    Inv c ⟨{ w.base with page := page, ids := ids }, w.shown⟩ := by
  refine h.keep rfl (prefix_refl _) (fun _ _ hx => hx) h.ordered h.bounded ?_
  intro page' hmem
  rcases hpage with rfl | rfl | rfl
  · exact .inl hmem
  · cases hmem
    exact .inr fun r hr => copied_snapshot hr
  · cases hmem

theorem Inv.withView {shown : Nat → Shown} (hview : p.view c.key = some v)
    (hv : ViewInv c ⟨{ w.base with partition := p }, shown⟩ v) :
    Inv c ⟨{ w.base with partition := p }, shown⟩ := by
  refine ⟨h.ordered, h.bounded, h.page, fun v' hv' => ?_, fun hnone => ?_⟩
  · obtain rfl := Option.some.inj (hview.symm.trans hv')
    exact hv
  · exact absurd (hview.symm.trans hnone) (Option.some_ne_none v)

theorem Inv.withoutView (hnone : p.view c.key = none) (hcolumn : ∀ a, p.column c.key a = false) :
    Inv c ⟨{ w.base with partition := p, page := none, ids := none }, w.shown⟩ := by
  refine ⟨h.ordered, h.bounded, fun _ hmem => ?_, fun v hv => ?_, fun _ => hcolumn⟩
  · cases hmem
  · exact absurd (hnone.symm.trans hv) (Option.some_ne_none v).symm

theorem inv_register (hstep : Dispatcher.step c.engine w.base.partition (.create c.q) = some p) :
    Inv c ⟨{ w.base with partition := p }, w.shown⟩ := by
  rcases step_create hstep with rfl | ⟨hnone, rfl⟩
  · exact h
  · refine h.withView (v := newView c.q c.pred) (view_put.trans (if_pos rfl)) ?_
    refine ⟨rfl, rfl, ?_, by simp [newView], fun _ => rfl, by simp [newView]⟩
    refine routed_newView fun a => ?_
    change (w.base.partition.put c.key _).column c.key a = false
    rw [column_put, if_pos rfl]
    exact h.unheld hnone a

theorem inv_activate (hmode : c.q.mode = .streamed) {page : List Row}
    {ids : List String} (hpage : w.base.page = some page)
    (hstep : Dispatcher.step c.engine w.base.partition (.activate c.key page ids refills) =
      some p) : Inv c ⟨{ w.base with partition := p }, w.shown⟩ := by
  obtain ⟨v, hv, hidle, rfl⟩ := step_activate hstep
  have hold := h.view v hv
  have hmode' : v.q.mode = .streamed := by rw [hold.query, hmode]
  have hcore := @core_activate v (w.base.partition.column c.key) refills hmode' c.engine.cushion
    page ids
  obtain ⟨hseeded, hready⟩ := hold.routed.seedView hidle _ page ids
  have hseededMode : (seedView c.engine.cushion v (w.base.partition.column c.key) page
      ids).1.q.mode = .streamed := by
    rw [seedView, hmode']
    exact hmode'
  have hsubs : (activate _ refills v _ page
      ids).1.subs = [] := (congrArg View.subs hcore).trans (hold.idle hidle)
  refine h.withView (view_put.trans (if_pos rfl)) ⟨?_, ?_, ?_, ?_, fun _ => hsubs, ?_⟩
  · exact (congrArg View.q hcore).trans hold.query
  · exact (congrArg View.pred hcore).trans hold.filter
  · have hrouted := @Routed.drain _ _ hseeded v.pending refills hready
      (drainAll_of_streamed hseededMode)
    rw [column_put, if_pos rfl]
    exact hrouted
  · intro r hr
    have hinitial : (activate _ refills v _ page
      ids).1.initialPage = page := congrArg View.initialPage hcore
    exact h.page page hpage r (hinitial ▸ hr)
  · intro sub hsub
    rw [hsubs] at hsub
    cases hsub

theorem inv_failSeed
    (hstep : Dispatcher.step c.engine w.base.partition (.failSeed c.key) = some p) :
    Inv c ⟨{ w.base with partition := p, page := none, ids := none }, w.shown⟩ := by
  rcases step_failSeed hstep with rfl | ⟨⟨v, hv, hidle⟩, rfl⟩
  · exact inv_read h (.inr (.inr rfl))
  · refine h.withoutView ?_ fun a => ?_
    · change (Assoc.drop _ c.key).lookup c.key = none
      rw [lookup_drop, if_pos rfl]
    · have hrouted := (h.view v hv).routed
      exact (hrouted.column_eq a).trans (hrouted.idle hidle a)

theorem inv_join {sub : Nat} (hfresh : joinsFresh c w (.join sub))
    (hstep : Dispatcher.step c.engine w.base.partition (.join sub c.key) = some p) :
    Inv c ⟨{ w.base with partition := p }, fun i => if i = sub then
      renderPage (((w.base.view c).map View.initialPage).getD []) else w.shown i⟩ := by
  obtain ⟨v, hv, hready, rfl⟩ := step_join hstep
  have hold := h.view v hv
  have hpage : ((w.base.view c).map View.initialPage).getD [] = v.initialPage := by
    rw [State.view, hv]
    rfl
  refine h.withView (view_put.trans (if_pos rfl))
    ⟨hold.query, hold.filter, ?_, hold.page, fun hidle => ?_, ?_⟩
  · change Routed _ ((w.base.partition.put c.key _).column c.key)
    rw [column_put, if_pos rfl]
    exact ⟨hold.routed.column_eq, hold.routed.members_eq, hold.routed.idle⟩
  · exact absurd hready (by simpa using hidle)
  · intro i hi a held hshown
    by_cases hsub : i = sub
    · simp only [hsub, if_true, hpage, renderPage, Option.map_eq_some_iff] at hshown
      obtain ⟨r, hr, rfl⟩ := hshown
      have hmem := mem_of_find?_eq_some hr
      obtain rfl : r.aggId = a := by simpa using List.find?_some hr
      obtain ⟨hmember, hseen, hnewest⟩ := hfresh v hv r hmem
      exact ⟨hmember, hseen, hold.page r hmem, hnewest⟩
    · simp only [hsub, if_false] at hshown
      have hmem : i ∈ v.subs := mem_of_mem_erase ((mem_cons.mp hi).resolve_left hsub)
      have hheld := hold.holds i hmem a held hshown
      exact ⟨hheld.member, hheld.seen, hheld.copied, hheld.newest⟩

theorem Inv.sameView (hview : p.view c.key = w.base.partition.view c.key)
    (hcolumn : p.column c.key = w.base.partition.column c.key) :
    Inv c ⟨{ w.base with partition := p }, w.shown⟩ := by
  refine ⟨h.ordered, h.bounded, h.page, fun v hv => ?_, fun hnone => ?_⟩
  · have hold := h.view v (hview.symm.trans hv)
    refine ⟨hold.query, hold.filter, ?_, hold.page, hold.idle, fun sub hsub a held hshown => ?_⟩
    · exact hcolumn.symm ▸ hold.routed
    · have hheld := hold.holds sub hsub a held hshown
      exact ⟨hheld.member, hheld.seen, hheld.copied, hheld.newest⟩
  · exact fun a => (congrFun hcolumn a).trans (h.unheld (hview.symm.trans hnone) a)

theorem inv_leave {sub : Nat}
    (hstep : Dispatcher.step c.engine w.base.partition (.detach sub) = some p) :
    Inv c ⟨{ w.base with partition := p }, w.shown⟩ := by
  rcases step_detach hstep with rfl | ⟨subView, rfl | ⟨id, v, hv, rfl | rfl⟩⟩
  · exact h
  · exact h.sameView rfl rfl
  · by_cases hid : c.key = id
    · subst hid
      refine ⟨h.ordered, h.bounded, h.page, fun v' hv' => ?_, fun _ a => ?_⟩
      · have hgone : (Assoc.drop _ c.key).lookup c.key = some v' := hv'
        rw [lookup_drop, if_pos rfl] at hgone
        cases hgone
      · have hrouted := (h.view v hv).routed
        have hmembers := (hrouted.members_eq a).trans (hrouted.column_eq a).symm
        simp only [Partition.column, Partition.drop, true_and]
        split_ifs with hmember
        · rfl
        · rw [hmembers] at hmember
          exact Bool.eq_false_iff.mpr hmember
    · refine h.sameView ?_ ?_
      · change (Assoc.drop _ id).lookup c.key = _
        rw [lookup_drop, if_neg hid]
        rfl
      · funext a
        simp [Partition.column, Partition.drop, hid]
  · by_cases hid : c.key = id
    · subst hid
      have hold := h.view v hv
      refine h.withView (view_put.trans (if_pos rfl))
        ⟨hold.query, hold.filter, ?_, hold.page, fun hidle => ?_, ?_⟩
      · change Routed _ ((w.base.partition.put c.key _).column c.key)
        rw [column_put, if_pos rfl]
        exact ⟨hold.routed.column_eq, hold.routed.members_eq, hold.routed.idle⟩
      · simp [hold.idle hidle]
      · intro i hi a held hshown
        have hheld := hold.holds i (mem_of_mem_erase hi) a held hshown
        exact ⟨hheld.member, hheld.seen, hheld.copied, hheld.newest⟩
    · refine h.sameView ?_ ?_
      · exact view_put.trans (if_neg hid)
      · exact column_put.trans (if_neg hid)

theorem Inv.le_next (hch : (w.base.history a)[w.base.delivered a]? = some ch) :
    ∀ x ∈ (w.base.history a).take (w.base.delivered a + 1), x.version ≤ ch.version := by
  intro x hx
  have hpair := (h.ordered a).sublist (take_sublist (w.base.delivered a + 1) _)
  change ((w.base.history a).take _).Pairwise _ at hpair
  rw [take_succ_deliver hch] at hx hpair
  rcases mem_append.mp hx with hx | hx
  · exact ((pairwise_append.mp hpair).2.2 x hx ch (mem_singleton_self ch)).le
  · rw [mem_singleton.mp hx]

theorem ViewInv.holds_applied (hmode : c.q.mode = .streamed) (hold : ViewInv c w v)
    (hlog : s.log = w.base.log) (hdeliv : ∀ a, s.delivered a =
      if a = ch.aggId then w.base.delivered ch.aggId + 1 else w.base.delivered a)
    (hch : (w.base.history ch.aggId)[w.base.delivered ch.aggId]? = some ch) {shown : Shown}
    (hshown : ∀ a held, shown a = some held → Holds c w.base v a held) {held : Held}
    (hheld : (applyReady (fun _ _ _ => refill) v column ch).2.foldl applyDelta shown a =
      some held) : Holds c s (applyReady (fun _ _ _ => refill) v column ch).1.1 a held := by
  have hmode' : v.q.mode = .streamed := by rw [hold.query, hmode]
  have hhistory : ∀ b, s.history b = w.base.history b := fun b => by
    rw [State.history, hlog, State.history]
  have hother : ∀ b, b ≠ ch.aggId →
      (s.history b).take (s.delivered b) = (w.base.history b).take (w.base.delivered b) := by
    intro b hb
    rw [hhistory, hdeliv, if_neg hb]
  have hnext : (s.history ch.aggId).take (s.delivered ch.aggId) =
      (w.base.history ch.aggId).take (w.base.delivered ch.aggId + 1) := by
    rw [hhistory, hdeliv, if_pos rfl]
  cases hstale : v.isStale ch with
  | true =>
    rw [applyReady, if_pos hstale] at hheld ⊢
    have hheld := hshown a held hheld
    refine ⟨hheld.member, hheld.seen, ?_, ?_⟩
    · rw [Copied, hhistory]
      exact hheld.copied
    · by_cases ha : a = ch.aggId
      · subst ha
        intro x hx
        rw [hnext, take_succ_deliver hch] at hx
        rcases mem_append.mp hx with hx | hx
        · exact hheld.newest x hx
        · rw [mem_singleton.mp hx]
          simpa [View.isStale, hheld.seen] using hstale
      · rw [hother a ha]
        exact hheld.newest
  | false =>
    have hmember := @streamMembers_applyReady v column ch refill a hmode' hstale
    rw [foldl_applyDelta hmode' hstale] at hheld
    by_cases ha : a = ch.aggId
    · subst ha
      cases hmatch : v.matchesChange ch with
      | false =>
        -- What the view does not hold is not shown either.
        cases hin : v.streamMembers ch.aggId with
        | true => simp [hmatch, hin] at hheld
        | false =>
          simp only [hmatch, hin, Bool.false_eq_true, or_self, and_false, if_false] at hheld
          exact absurd (hshown _ _ hheld).member (by simp [hin])
      | true =>
        simp only [hmatch, true_or, and_self, if_true, Option.some.injEq] at hheld
        subst hheld
        refine ⟨by rw [hmember, if_pos rfl, hmatch], ?_, ?_, ?_⟩
        · rw [seen_applyReady, if_pos ⟨rfl, hstale⟩]
        · refine ⟨ch, ?_, ?_, rfl⟩
          · rw [hhistory]
            exact mem_of_getElem? hch
          · rw [Attach.accepts, ← hold.filter]
            exact hmatch
        · rw [hnext]
          exact h.le_next hch
    · rw [if_neg fun hboth => ha hboth.1] at hheld
      have hheld := hshown a held hheld
      refine ⟨?_, ?_, ?_, ?_⟩
      · rw [hmember, if_neg ha]
        exact hheld.member
      · rw [seen_applyReady, if_neg fun hboth => ha hboth.1]
        exact hheld.seen
      · rw [Copied, hhistory]
        exact hheld.copied
      · rw [hother a ha]
        exact hheld.newest

def World.deliver (c : Attach) (w : World) (ch : Change) (refill : Option (List Row)) : World where
  base := { w.base with
    delivered := fun b =>
      if b = ch.aggId then w.base.delivered ch.aggId + 1 else w.base.delivered b
    partition := w.base.partition.dispatch ch fun _ => refill }
  shown := fanOut c w (deltas c w.base ch refill)

theorem viewInv_deliver (hmode : c.q.mode = .streamed) (hv : w.base.view c = some v)
    (hch : (w.base.history ch.aggId)[w.base.delivered ch.aggId]? = some ch) :
    ViewInv c (w.deliver c ch refill) (w.base.partition.next ch (fun _ => refill) c.key v).1 := by
  have hold := h.view v hv
  have hmode' : v.q.mode = .streamed := by rw [hold.query, hmode]
  have hcolumn : (w.deliver c ch refill).base.partition.column c.key =
      (w.base.partition.next ch _ c.key v).2 := column_dispatch hv
  have hattached : attached c w.base = v.subs := by rw [attached, hv]; rfl
  have hdeltas : deltas c w.base ch refill = if w.base.partition.selects ch c.key then
      (applyChange (fun _ _ _ => refill) v (w.base.partition.column c.key) ch).2 else [] := by
    rw [deltas, hv]
  have hshown : ∀ sub ∈ v.subs, (w.deliver c ch refill).shown sub =
      (deltas c w.base ch refill).foldl _ _ := fun sub hsub =>
    if_pos (hattached ▸ hsub)
  by_cases hsel : w.base.partition.selects ch c.key
  · rw [hdeltas, if_pos hsel] at hshown
    rw [Partition.next, if_pos hsel] at hcolumn ⊢
    cases hready : v.ready with
    | true =>
      have happly : ∀ column, applyChange _ v column ch =
          applyReady (fun _ _ _ => refill) v column ch := fun _ => if_pos hready
      rw [happly] at hcolumn hshown ⊢
      have hcore := @core_applyReady v ch (fun _ _ _ => refill) (w.base.partition.column c.key)
      have hsubs : (applyReady _ v _
        ch).1.1.subs = v.subs := (congrArg View.subs hcore :)
      have hpage : (applyReady _ v _
        ch).1.1.initialPage = v.initialPage := (congrArg View.initialPage hcore :)
      refine ⟨(congrArg View.q hcore).trans hold.query,
        (congrArg View.pred hcore).trans hold.filter, ?_, fun r hr => ?_, ?_, ?_⟩
      · rw [hcolumn]
        exact (hold.routed.applyReady hready (keepsOthers_of_streamed hmode')).1
      · exact hold.page r (hpage ▸ hr)
      · intro hidle
        exact absurd ((congrArg View.ready hcore).symm.trans hidle) (by simp [View.core, hready])
      · intro sub hsub a held hheld
        rw [hsubs] at hsub
        rw [hshown sub hsub] at hheld
        exact hold.holds_applied (s := (w.deliver c ch refill).base) h hmode rfl
          (fun _ => rfl) hch (hold.holds sub hsub) hheld
    | false =>
      have happly : ∀ column, applyChange (fun _ _ _ => refill) v column ch =
          (({ v with pending := v.pending ++ [ch] }, column), []) := fun _ =>
        if_neg (by simp [hready])
      rw [happly] at hcolumn ⊢
      have hsubs := hold.idle hready
      refine ⟨hold.query, hold.filter, ?_, hold.page, fun _ => hsubs, fun sub hsub => ?_⟩
      · rw [hcolumn]
        exact ⟨hold.routed.column_eq, hold.routed.members_eq, hold.routed.idle⟩
      · have hmem : sub ∈ v.subs := hsub
        rw [hsubs] at hmem
        cases hmem
  · rw [hdeltas, if_neg hsel] at hshown
    rw [Partition.next, if_neg hsel] at hcolumn ⊢
    refine ⟨hold.query, hold.filter, hcolumn ▸ hold.routed, hold.page, hold.idle, ?_⟩
    intro sub hsub a held hheld
    rw [hshown sub hsub] at hheld
    have hheld := hold.holds sub hsub a held hheld
    have ha : a ≠ ch.aggId := by
      rintro rfl
      -- The reverse index names the view for what a _ shows.
      have hcont : v.contains ch.aggId := by
        rw [View.contains, hmode']
        exact hheld.member
      have hrouted : w.base.partition.memberOf ch.aggId c.key :=
        (hold.routed.column_eq _).trans hcont
      exact hsel (by rw [Partition.selects, hrouted, Bool.or_true])
    refine ⟨hheld.member, hheld.seen, hheld.copied, ?_⟩
    intro x hx
    change x ∈ (w.base.history a).take (if a = ch.aggId then _ else _) at hx
    rw [if_neg ha] at hx
    exact hheld.newest x hx

theorem inv_deliver (hmode : c.q.mode = .streamed)
    (hch : (w.base.history ch.aggId)[w.base.delivered ch.aggId]? = some ch) :
    Inv c (w.deliver c ch refill) := by
  refine ⟨h.ordered, fun a => ?_, h.page, fun v' hv' => ?_, fun hnone a => ?_⟩
  · change (if a = ch.aggId then _ else _) ≤ (w.base.history a).length
    split_ifs with ha
    · subst ha
      exact (List.getElem?_eq_some_iff.mp hch).1
    · exact h.bounded a
  · have hview : (w.deliver c ch refill).base.view c = _ := view_dispatch
    obtain ⟨v, hv, rfl⟩ := Option.map_eq_some_iff.mp (hview.symm.trans hv')
    exact viewInv_deliver h hmode hv hch
  · have hview : (w.deliver c ch refill).base.view c = _ := view_dispatch
    have hnone : w.base.partition.view c.key = none :=
      Option.map_eq_none_iff.mp (hview.symm.trans hnone)
    have hcolumn := h.unheld hnone a
    simpa [World.deliver, Partition.column, Partition.dispatch, hnone] using hcolumn

omit h in
theorem inv_step (hmode : c.q.mode = .streamed) {a : Action} {w' : World} (h : Inv c w)
    (hok : joinsFresh c w a) (hstep : step c w a = some w') : Inv c w' := by
  cases a with
  | feed a =>
    obtain ⟨s, hs, rfl⟩ := Option.map_eq_some_iff.mp hstep
    revert hs
    fun_cases Handoff.step c w.base a <;> intro hs <;> try cases hs
    · rename_i hnew
      refine inv_commit h fun last hlast => ?_
      simpa [hlast] using hnew
    · rename_i agg _
      obtain ⟨ch, hch, rfl⟩ := Option.map_eq_some_iff.mp hs
      obtain rfl : ch.aggId = agg := (mem_history.mp (mem_of_getElem? hch)).2
      simp only [hch]
      exact inv_deliver h hmode hch
    · rename_i hpos
      exact inv_rewind h hpos
    · obtain ⟨p, hp, rfl⟩ := Option.map_eq_some_iff.mp hs
      exact inv_register h hp
    · exact inv_read h (.inr (.inl rfl))
    · exact inv_read h (.inl rfl)
    · obtain ⟨p, hp, rfl⟩ := Option.map_eq_some_iff.mp hs
      exact inv_activate h hmode ‹_› hp
    · obtain ⟨p, hp, rfl⟩ := Option.map_eq_some_iff.mp hs
      exact inv_failSeed h hp
  | join sub =>
    obtain ⟨p, hp, rfl⟩ := Option.map_eq_some_iff.mp hstep
    exact inv_join h hok hp
  | leave sub =>
    obtain ⟨p, hp, rfl⟩ := Option.map_eq_some_iff.mp hstep
    have hleft := inv_leave h hp
    split_ifs
    · exact hleft
    · exact inv_read hleft (.inr (.inr rfl))

theorem Inv.noStaleRows : NoStaleRows c w := by
  intro hall sub hsub a held hshown
  rw [attached] at hsub
  cases hv : w.base.view c with
  | none => simp [hv] at hsub
  | some v =>
    rw [hv] at hsub
    have hheld := (h.view v hv).holds sub hsub a held hshown
    obtain ⟨ch, hch, haccepts, rfl⟩ := hheld.copied
    obtain ⟨last, hlast, -⟩ := h.ordered.exists_latest hch
    refine ⟨ch, ?_, haccepts, rfl⟩
    have hdeliv : last ∈ (w.base.history a).take (w.base.delivered a) := by
      rw [hall a, take_length]
      exact mem_of_latest hlast
    rw [hlast, h.ordered.eq_latest hlast hch (hheld.newest last hdeliv)]

end

theorem inv_start : Inv c start := by
  refine ⟨ordered_nil, fun _ => Nat.le_refl 0, fun _ hmem => ?_, fun _ hmem => ?_, fun _ _ => rfl⟩
  · cases hmem
  · cases hmem

/-- In every run of fresh joins, no subscriber shows a stale row once all changes are
dispatched. -/
theorem noStaleRows_of_joinsFresh {c : Attach} (hmode : c.q.mode = .streamed)
    {trace : List Action} {w : World} (hok : Machine.Along (step c) (joinsFresh c) start trace)
    (hrun : Machine.run (step c) start trace = some w) : NoStaleRows c w :=
  (Machine.run_invariant (fun _ _ _ => inv_step hmode) inv_start hok
    hrun).noStaleRows

def streamedSite : Attach :=
  { Handoff.atSite with q := { Handoff.atSite.q with mode := .streamed } }

def firstJoins : List Action :=
  [.feed (.commit (Handoff.siteChange "a" 1 "north")), .feed (.deliver "a" none),
    .feed .register, .feed .readPage, .feed .readIds, .feed (.activate []), .join 0]

def moves (version : Int) (site : String) : List Action :=
  [.feed (.commit (Handoff.siteChange "a" version site)), .feed (.deliver "a" none)]

theorem noStaleRows_bothFresh :
    ∃ w, Machine.run (step streamedSite) start (firstJoins ++ .join 1 :: moves 2 "north") = some w ∧
      w.shown 1 "a" = some ⟨2, ""⟩ ∧ NoStaleRows streamedSite w := by
  have hok : Machine.Along (step streamedSite) (joinsFresh streamedSite) start
      (firstJoins ++ .join 1 :: moves 2 "north") := by decide
  exact ⟨_, rfl, by decide, noStaleRows_of_joinsFresh rfl hok rfl⟩

def lateJoin : List Action :=
  firstJoins ++ moves 2 "south" ++ [.join 1]

theorem lateJoiner_shows_stale : ∃ w, Machine.run (step streamedSite) start lateJoin = some w ∧
      ¬ NoStaleRows streamedSite w := by
  refine ⟨_, rfl, fun h => ?_⟩
  have hdone : ∀ a, (if a = "a" then 2 else if a = "a" then 1 else 0) = (KeyedLog.history
      Change.aggId [Handoff.siteChange "a" 1 "north", Handoff.siteChange "a" 2 "south"] a).length := by
    intro a
    rcases eq_or_ne a "a" with rfl | hne
    · rfl
    · simp [KeyedLog.history, Handoff.siteChange, hne, hne.symm]
  obtain ⟨ch, hlast, haccepts, -⟩ := h hdone 1 (by decide) "a" _ rfl
  cases hlast
  exact absurd haccepts (by decide)

end Fabriq.Live.StreamedRows
