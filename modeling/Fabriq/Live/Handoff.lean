import Fabriq.Live.Handoff.View

namespace Fabriq.Live.Handoff

open Lib Lib.KeyedLog Lib.Machine Live.CandidateIndex Live.Dispatcher Live.Routing Live.Types List

variable {ch : Change} {c : Attach} {v : View} {column : Column} {log old pending : List Change}
  {refills : List (Option (List Row))} {a : String} {s t : State}

theorem history_getElem?_of_lt {i : Nat} (h : old <+: log)
    (hi : i < (history Change.aggId old a).length) :
    (history Change.aggId log a)[i]? = (history Change.aggId old a)[i]? := by
  have hmono : history Change.aggId old a <+: history Change.aggId log a := history_mono h
  obtain ⟨later, hlater⟩ := hmono
  rw [← hlater, List.getElem?_append_left hi]

variable {ids : List String} {low : String → Nat} {p : Partition} {page : List Row}
  {refill : Option (List Row)}

theorem PageRead.mono {log' : List Change} {low' : String → Nat} (h : PageRead c log low page old)
    (hlog : log <+: log') (hlow : ∀ a, low' a ≤ low a) : PageRead c log' low' page old :=
  ⟨h.old_log.trans hlog, fun a => (hlow a).trans (h.low_le a), h.page_eq, h.whole⟩

theorem Agrees.commit (h : Agrees c log v column)
    (hnew : ∀ last, latest Change.aggId log ch.aggId = some last →
      last.version < ch.version) : Agrees c (log ++ [ch]) v column where
  formed := h.formed
  ready := h.ready
  routed := h.routed
  known a ha hnil := by
    have hmono : history Change.aggId log a <+: history Change.aggId (log ++ [ch]) a :=
      history_mono (prefix_append _ _)
    rw [hnil, prefix_nil] at hmono
    exact h.known a ha hmono
  seen_le a n hn := by
    obtain ⟨last, hlast, hle⟩ := h.seen_le a n hn
    rcases eq_or_ne a ch.aggId with rfl | hne
    · exact ⟨ch, latest_append_self, hle.trans (hnew last hlast).le⟩
    · exact ⟨last, by rw [latest_append_of_ne hne, hlast], hle⟩
  current a n last hn hlast hle := by
    rcases eq_or_ne a ch.aggId with rfl | hne
    · obtain ⟨prev, hprev, hprevLe⟩ := h.seen_le ch.aggId n hn
      rw [latest_append_self] at hlast
      cases hlast
      exact absurd (hle.trans hprevLe) (hnew prev hprev).not_ge
    · rw [latest_append_of_ne hne] at hlast
      exact h.current a n last hn hlast hle

theorem inv_commit (h : Inv c s) (hnew : ∀ last, latest Change.aggId s.log ch.aggId = some last →
      last.version < ch.version) : Inv c { s with log := s.log ++ [ch] } := by
  have hpre : s.log <+: s.log ++ [ch] := List.prefix_append _ _
  refine ⟨h.ordered.append hnew, fun a => ?_, ?_⟩
  · exact (h.delivered_le a).trans (history_mono hpre).length_le
  · cases h.phase with
    | absent hview hunheld hpage => exact .absent hview hunheld hpage
    | opening pending low hview hindex ho =>
      refine .opening pending low hview hindex ⟨ho.unheld, ho.low_le, ?_, ?_, ?_, ?_⟩
      · intro x hx
        obtain ⟨i, hlow, hi⟩ := ho.pending_mem x hx
        refine ⟨i, hlow, ?_⟩
        rw [State.history, history_getElem?_of_lt hpre (List.getElem?_eq_some_iff.mp hi).1]
        exact hi
      · intro a i x hlow hi hx
        rw [State.history, history_getElem?_of_lt hpre (hi.trans_le (h.delivered_le a))] at hx
        exact ho.buffered a i x hlow hi hx
      · intro page hpage
        obtain ⟨old, hold⟩ := ho.page_read page hpage
        exact ⟨old, hold.mono hpre fun _ => le_rfl⟩
      · intro page ids hpage hids
        obtain ⟨old, mid, hold, hmid, hlog, heq⟩ := ho.ids_read page ids hpage hids
        exact ⟨old, mid, hold.mono hpre fun _ => le_rfl, hmid, hlog.trans hpre, heq⟩
    | live v hview hindex hagrees hsettled =>
      refine .live v hview hindex (hagrees.commit hnew) ?_
      · intro a last hall hlast
        rcases eq_or_ne a ch.aggId with rfl | hne
        · -- The new change is still to be delivered.
          have hlen : s.delivered ch.aggId ≤ (history Change.aggId s.log ch.aggId).length :=
            h.delivered_le ch.aggId
          rw [State.history, history_append_self, List.length_append] at hall
          simp only [List.length_singleton] at hall
          omega
        · rw [State.history, history_append_of_ne hne] at hall
          rw [latest_append_of_ne hne] at hlast
          exact hsettled a last hall hlast

theorem inv_rewind {pos : Nat} (h : Inv c s) (hpos : pos < s.delivered a) :
    Inv c { s with delivered := fun b => if b = a then pos else s.delivered b } := by
  have hle : ∀ b, (if b = a then pos else s.delivered b) ≤ s.delivered b := by
    intro b
    split_ifs with hb
    · exact hb ▸ hpos.le
    · exact le_rfl
  refine ⟨h.ordered, fun b => (hle b).trans (h.delivered_le b), ?_⟩
  cases h.phase with
  | absent hview hunheld hpage => exact .absent hview hunheld hpage
  | opening pending low hview hindex ho =>
    -- What is delivered again counts as delivered since the registration.
    have hlow : ∀ b, min (low b) (if b = a then pos else s.delivered b) ≤ low b :=
      fun b => min_le_left _ _
    refine .opening pending (fun b => min (low b) (if b = a then pos else s.delivered b))
      hview hindex ⟨ho.unheld, fun b => min_le_right _ _, ?_, ?_, ?_, ?_⟩
    · intro x hx
      obtain ⟨i, hi, hget⟩ := ho.pending_mem x hx
      exact ⟨i, (hlow _).trans hi, hget⟩
    · intro b i x hi hlt
      have hlt' : i < (if b = a then pos else s.delivered b) := hlt
      exact ho.buffered b i x (by omega) (hlt'.trans_le (hle b))
    · intro page hpage
      obtain ⟨old, hold⟩ := ho.page_read page hpage
      exact ⟨old, hold.mono (prefix_refl _) hlow⟩
    · intro page ids hpage hids
      obtain ⟨old, mid, hold, hmid⟩ := ho.ids_read page ids hpage hids
      exact ⟨old, mid, hold.mono (prefix_refl _) hlow, hmid⟩
  | live v hview hindex hagrees hsettled =>
    refine .live v hview hindex hagrees fun b last hall hlast => ?_
    refine hsettled b last (le_antisymm (h.delivered_le b) ?_) hlast
    exact (le_of_eq hall.symm).trans (hle b)

theorem selects_of_accepts {ix : PredicateIndex} (hindex : p.index = ix.add c.key c.q.conds)
    (hmatch : c.accepts ch) : p.selects ch c.key :=
  selects_of_compile hindex (Bool.and_eq_true_iff.mp hmatch).2

def State.afterDeliver (s : State) (a : String) (ch : Change) (refill : Option (List Row)) :
    State :=
  { s with
    delivered := fun b => if b = a then s.delivered a + 1 else s.delivered b
    partition := s.partition.dispatch ch fun _ => refill }

theorem opening_deliver (hnext : (s.history a)[s.delivered a]? = some ch)
    (hview : s.view c = some (opened c pending))
    (hindex : ∃ ix, s.partition.index = PredicateIndex.add ix c.key c.q.conds)
    (ho : Opening c s pending low) : Phase c (s.afterDeliver a ch refill) := by
  have hid : ch.aggId = a := (mem_history.mp (mem_of_getElem? hnext)).2
  -- The change is appended to the buffer if it is selected at all.
  have hbuffer : ∃ more, (∀ x ∈ more, x = ch) ∧ (c.accepts ch → ch ∈ more) ∧
      s.partition.next ch (fun _ => refill) c.key (opened c pending) =
        (opened c (pending ++ more), s.partition.column c.key) := by
    obtain ⟨ix, hix⟩ := hindex
    cases hsel : s.partition.selects ch c.key with
    | true => exact ⟨[ch], by simp, by simp, by rw [Partition.next, if_pos hsel]; rfl⟩
    | false =>
      refine ⟨[], by simp, fun hmatch => ?_, ?_⟩
      · rw [selects_of_accepts hix hmatch] at hsel
        simp at hsel
      · rw [Partition.next, if_neg (by simp [hsel]), append_nil]
  obtain ⟨more, hmore, hmatch, hbuffer⟩ := hbuffer
  refine .opening (pending ++ more) low ?_ hindex ⟨fun b => ?_, fun b => ?_, ?_, ?_, ?_, ?_⟩
  · have hview' : s.partition.view c.key = some (opened c pending) := hview
    rw [State.view, State.afterDeliver, view_dispatch, hview', Option.map_some, hbuffer]
  · rw [State.afterDeliver, column_dispatch hview, hbuffer]
    exact ho.unheld b
  · simp only [State.afterDeliver]
    split_ifs with hb
    · exact hb ▸ (ho.low_le b).trans (Nat.le_succ _)
    · exact ho.low_le b
  · intro x hx
    rcases mem_append.mp hx with hx | hx
    · exact ho.pending_mem x hx
    · obtain rfl := hmore x hx
      exact ⟨s.delivered a, hid ▸ ho.low_le _, by rw [hid]; exact hnext⟩
  · intro b i x hlow hi hx hacc
    rw [mem_append]
    simp only [State.afterDeliver] at hi
    split_ifs at hi with hb
    · rcases Nat.lt_succ_iff_lt_or_eq.mp hi with hi | rfl
      · exact .inl (ho.buffered b i x hlow (hb ▸ hi) hx hacc)
      · have hxch : x = ch := by
          rw [hb] at hx
          exact Option.some.inj (hx.symm.trans hnext)
        exact .inr (hxch ▸ hmatch (hxch ▸ hacc))
    · exact .inl (ho.buffered b i x hlow hi hx hacc)
  · exact ho.page_read
  · exact ho.ids_read

section

variable (h : Inv c s)
include h

theorem live_deliver (hnext : (s.history a)[s.delivered a]? = some ch) (hview : s.view c = some v)
    (hindex : ∃ ix, s.partition.index = PredicateIndex.add ix c.key c.q.conds)
    (hagrees : Agrees c s.log v (s.partition.column c.key))
    (hsettled : ∀ a last, s.delivered a = (s.history a).length →
      latest Change.aggId s.log a = some last → v.contains a = c.accepts last)
    (hkeep : s.partition.selects ch c.key → keepsRows refill v ch) :
    Phase c (s.afterDeliver a ch refill) := by
  have hmem : ch ∈ s.history a := mem_of_getElem? hnext
  have hid : ch.aggId = a := (mem_history.mp hmem).2
  subst hid
  have hentry : ∃ u column, s.partition.next ch (fun _ => refill) c.key v = (u, column) ∧
      Agrees c s.log u column ∧
      (∀ b, b ≠ ch.aggId → u.contains b = v.contains b) ∧
      ∀ last, latest Change.aggId s.log ch.aggId = some last → last.version ≤ ch.version →
        u.contains ch.aggId = c.accepts last := by
    cases hsel : s.partition.selects ch c.key with
    | true =>
      have hone := hkeep hsel
      have happlied := hagrees.applyReady h.ordered hmem hone
      refine ⟨_, _, by rw [Partition.next, if_pos hsel, applyChange, if_pos hagrees.ready],
        happlied, fun b hb => ?_, fun last hlast hle => ?_⟩
      · rw [hagrees.formed.contains_applyReady hone, if_neg fun hself => hb hself.1]
      · obtain ⟨n, hn, hchn⟩ := le_seen_applyReady _ _ (.inl rfl)
        exact happlied.current _ n last hn hlast (hle.trans hchn)
    | false =>
      refine ⟨v, _, by rw [Partition.next, if_neg (by simp [hsel])], hagrees,
        fun _ _ => rfl, fun last hlast hle => ?_⟩
      -- A change that is not selected does not match, and its aggregate is not held.
      obtain ⟨ix, hix⟩ := hindex
      obtain ⟨-, hcolumn⟩ := Bool.or_eq_false_iff.mp hsel
      have hheld : v.contains ch.aggId = false := (hagrees.routed.column_eq _).symm.trans hcolumn
      obtain rfl := h.ordered.eq_latest hlast hmem hle
      rw [hheld, eq_comm, ← Bool.not_eq_true]
      intro hmatch
      rw [selects_of_accepts hix hmatch] at hsel
      simp at hsel
  obtain ⟨u, column, hentry, hu, hothers, hself⟩ := hentry
  refine .live u ?_ hindex ?_ ?_
  · have hview' : s.partition.view c.key = some v := hview
    rw [State.view, State.afterDeliver, view_dispatch, hview', Option.map_some, hentry]
  · rw [State.afterDeliver, column_dispatch hview, hentry]
    exact hu
  · intro b last hall hlast
    simp only [State.afterDeliver] at hall
    split_ifs at hall with hb
    · subst hb
      have hlen : s.delivered ch.aggId + 1 = (history Change.aggId s.log ch.aggId).length := hall
      have hlatest : latest Change.aggId s.log ch.aggId = some ch :=
        (latest_eq_getElem? hlen).trans hnext
      obtain rfl := Option.some.inj (hlast.symm.trans hlatest)
      exact hself last hlatest le_rfl
    · rw [hothers b hb]
      exact hsettled b last hall hlast

theorem inv_deliver (hnext : (s.history a)[s.delivered a]? = some ch)
    (hkeep : ∀ v, s.view c = some v → v.ready →
      s.partition.selects ch c.key → keepsRows refill v ch) :
    Inv c (s.afterDeliver a ch refill) := by
  refine ⟨h.ordered, fun b => ?_, ?_⟩
  · have hlt : s.delivered a < (s.history a).length := (List.getElem?_eq_some_iff.mp hnext).1
    simp only [State.afterDeliver]
    split_ifs with hb
    · exact hb ▸ hlt
    · exact h.delivered_le b
  · cases h.phase with
    | absent hview hunheld hpage =>
      have hview' : s.partition.view c.key = none := hview
      refine .absent ?_ (fun b => ?_) hpage
      · rw [State.view, State.afterDeliver, view_dispatch, hview', Option.map_none]
      · simpa [State.afterDeliver, Partition.column, Partition.dispatch, hview'] using
          hunheld b
    | opening pending low hview hindex ho => exact opening_deliver hnext hview hindex ho
    | live v hview hindex hagrees hsettled =>
      exact live_deliver h hnext hview hindex hagrees hsettled (hkeep v hview hagrees.ready)

theorem inv_register (hview : s.view c = none)
    (hstep : Dispatcher.step c.engine s.partition (.create c.q) = some p) :
    Inv c { s with partition := p } := by
  refine ⟨h.ordered, h.delivered_le, ?_⟩
  cases h.phase with
  | absent _ hunheld hpage =>
    have hview' : s.partition.view (c.engine.shapeKey c.q) = none := hview
    simp only [Dispatcher.step, hview'] at hstep
    split_ifs at hstep
    · cases hstep
      refine .opening [] s.delivered ?_ ⟨_, rfl⟩
        ⟨?_, fun _ => le_rfl, by simp, fun a i ch hlow hi => absurd hi hlow.not_gt, ?_, ?_⟩
      · change (s.partition.put c.key _).view c.key = _
        rw [view_put, if_pos rfl]
        rfl
      · intro a
        change (s.partition.put c.key _).column c.key a = false
        rw [column_put, if_pos rfl]
        exact hunheld a
      · intro page hread
        rw [hpage] at hread
        simp at hread
      · intro page ids hread
        rw [hpage] at hread
        simp at hread
    · cases hstep
      exact .absent hview hunheld hpage
  | opening pending low hview' => exact absurd (hview.symm.trans hview') (by simp)
  | live v hview' => exact absurd (hview.symm.trans hview') (by simp)

theorem inv_readPage (hidle : (s.view c).any (fun v => !v.ready))
    (hwhole : (c.q.mode = .streamed ∧ c.lister) ∨
      (c.result s.log).length ≤ (c.snapshot s.log).length) :
    Inv c { s with page := some (c.snapshot s.log), ids := none } := by
  refine ⟨h.ordered, h.delivered_le, ?_⟩
  cases h.phase with
  | absent hview => simp [hview] at hidle
  | opening pending low hview hindex ho =>
    refine .opening pending low hview hindex
      ⟨ho.unheld, ho.low_le, ho.pending_mem, ho.buffered, fun page hpage => ?_, by simp⟩
    refine ⟨s.log, prefix_refl _, fun a => ?_, (Option.some.inj hpage).symm, ?_⟩
    · exact (ho.low_le a).trans (h.delivered_le a)
    · exact hwhole.imp_right fun hle => snapshot_sublist.eq_of_length_le hle
  | live v hview hindex hagrees => simp [hview, hagrees.ready] at hidle

theorem inv_readIds (hpage : s.page = some page) :
    Inv c { s with ids := some (c.memberIds s.log page) } := by
  refine ⟨h.ordered, h.delivered_le, ?_⟩
  cases h.phase with
  | absent hview hunheld hnone => exact absurd (hpage.symm.trans hnone) (by simp)
  | opening pending low hview hindex ho =>
    refine .opening pending low hview hindex
      ⟨ho.unheld, ho.low_le, ho.pending_mem, ho.buffered, ho.page_read, ?_⟩
    intro read ids hread hids
    obtain rfl := Option.some.inj (hpage.symm.trans hread)
    obtain ⟨old, hold⟩ := ho.page_read page hpage
    exact ⟨old, s.log, hold, hold.old_log, prefix_refl _, (Option.some.inj hids).symm⟩
  | live v hview hindex hagrees hsettled => exact .live v hview hindex hagrees hsettled

theorem inv_failSeed (hstep : Dispatcher.step c.engine s.partition (.failSeed c.key) = some p) :
    Inv c { s with partition := p, page := none, ids := none } := by
  refine ⟨h.ordered, h.delivered_le, ?_⟩
  cases h.phase with
  | absent hview =>
    have hview' : s.partition.view c.key = none := hview
    simp [Dispatcher.step, hview'] at hstep
  | opening pending low hview hindex ho =>
    have hview' : s.partition.view c.key = some (opened c pending) := hview
    simp only [Dispatcher.step, hview'] at hstep
    cases hstep
    refine .absent ?_ ho.unheld rfl
    simp [State.view, Partition.view, Assoc.lookup_drop]
  | live v hview hindex hagrees =>
    have hview' : s.partition.view c.key = some v := hview
    simp [Dispatcher.step, hview', hagrees.ready] at hstep

omit h in
theorem Opening.fetched (ho : Opening c s pending low) (hpage : s.page = some page)
    (hids : seedIds c s = some ids) :
    ∃ old src, Fetched c s.log page ids old src ∧
      ∀ a, low a ≤ (history Change.aggId old a).length := by
  unfold seedIds at hids
  cases hmode : c.q.mode with
  | maintained =>
    obtain ⟨old, hold⟩ := ho.page_read page hpage
    refine ⟨old, old, ⟨prefix_refl _, hold.old_log, hold.page_eq, fun a => ?_⟩, hold.low_le⟩
    have hwhole : c.snapshot old = c.result old :=
      hold.whole.resolve_left fun hlister => by simp [hmode] at hlister
    rw [seedHeld, hmode, hold.page_eq, hwhole, Bool.eq_iff_iff, ← exists_mem_result]
    simp
  | streamed =>
    rw [hmode] at hids
    obtain ⟨old, mid, hold, hmid, hlog, hread⟩ := ho.ids_read page ids hpage hids
    cases hlister : c.lister with
    | true =>
      refine ⟨old, mid, ⟨hmid, hlog, hold.page_eq, fun a => ?_⟩, hold.low_le⟩
      rw [seedHeld, hmode, hread, Attach.memberIds, hlister, Bool.eq_iff_iff, ← exists_mem_result]
      simp
    | false =>
      refine ⟨old, old, ⟨prefix_refl _, hold.old_log, hold.page_eq, fun a => ?_⟩, hold.low_le⟩
      have hwhole : c.snapshot old = c.result old :=
        hold.whole.resolve_left fun hlister' => by simp [hlister] at hlister'
      rw [seedHeld, hmode, hread, Attach.memberIds, hlister, hold.page_eq, hwhole,
        Bool.eq_iff_iff, ← exists_mem_result]
      simp

omit h in
theorem unheld_of_stopNoticed {seeded : View} {last : Change} (hstop : stopNoticed c s v seeded a)
    (hall : s.delivered a = (s.history a).length) (hlast : latest Change.aggId s.log a = some last)
    (hno : c.accepts last = false)
    (hunbuffered : ¬ ∃ ch ∈ v.pending, ch.aggId = a ∧ last.version ≤ ch.version) :
    seeded.contains a = false ∧ ∀ ch ∈ v.pending, ch.aggId = a → c.accepts ch = false := by
  have hresult : c.inResult s.log a = false := by simp [Attach.inResult, hlast, hno]
  have hnot : (v.pending.any fun ch => ch.aggId == a &&
      (latest Change.aggId s.log a).any fun last => decide (last.version ≤ ch.version)) =
      false := by
    simpa [hlast] using hunbuffered
  rw [stopNoticed, hresult, hnot, decide_eq_false hall.not_lt] at hstop
  simpa using hstop

theorem settled_activate (ho : Opening c s pending low) (hpage : s.page = some page)
    (hids : seedIds c s = some ids) (hstop : ∀ a ∈ s.log.map Change.aggId,
      stopNoticed c s (opened c pending) (seed c s (opened c pending) page ids).1 a)
    (hkeep : drainAll keepsRows refills (seed c s (opened c pending) page ids).1
      (seed c s (opened c pending) page ids).2 pending) :
    Agrees c s.log (activate c.engine.cushion refills (opened c pending)
        (s.partition.column c.key) page ids).1 (activate c.engine.cushion refills (opened c pending)
        (s.partition.column c.key) page ids).2 ∧
    ∀ a last, s.delivered a = (s.history a).length → latest Change.aggId s.log a = some last →
      (activate c.engine.cushion refills (opened c pending)
        (s.partition.column c.key) page ids).1.contains a = c.accepts last := by
  obtain ⟨old, src, hfetched, hlow⟩ := ho.fetched hpage hids
  have hseeded := hfetched.agrees h.ordered ho.unheld c.engine.cushion pending
  have hmem : ∀ ch ∈ pending, ch ∈ history Change.aggId s.log ch.aggId := by
    intro ch hch
    obtain ⟨i, -, hi⟩ := ho.pending_mem ch hch
    exact List.mem_of_getElem? hi
  have hagrees := hseeded.drain h.ordered hmem hkeep
  refine ⟨hagrees, fun a last hall hlast => ?_⟩
  by_cases hbuf : ∃ ch ∈ pending, ch.aggId = a ∧ last.version ≤ ch.version
  · obtain ⟨ch, hch, rfl, hle⟩ := hbuf
    obtain ⟨n, hn, hchn⟩ := le_seen_drain (.inl hch)
    exact hagrees.current ch.aggId n last hn hlast (hle.trans hchn)
  · -- The replay says nothing new of the aggregate, so the seed decides.
    suffices hsame : (seed c s (opened c pending) page ids).1.contains a = c.accepts last ∧
        ∀ ch ∈ pending, ch.aggId = a → c.accepts ch = c.accepts last by
      refine (hseeded.formed.contains_drain (fun ch hch hid => ?_) hkeep).trans hsame.1
      exact (hsame.2 ch hch hid).trans hsame.1.symm
    cases hmatch : c.accepts last with
    | false =>
      have ha : a ∈ s.log.map Change.aggId := by
        obtain ⟨hlog, hid⟩ := mem_history.mp (mem_of_latest hlast)
        exact List.mem_map.mpr ⟨last, hlog, hid⟩
      exact unheld_of_stopNoticed (hstop a ha) hall hlast hmatch hbuf
    | true =>
      -- A delivered match would be buffered: nothing came since the registration.
      have hquiet : (history Change.aggId s.log a).length ≤ low a := by
        by_contra hlt
        have hlen : (s.history a).length - 1 + 1 = (history Change.aggId s.log a).length :=
          Nat.sub_add_cancel (by rw [State.history]; omega)
        have hget := (latest_eq_getElem? hlen).symm.trans hlast
        refine hbuf ⟨last, ho.buffered a _ last ?_ ?_ hget hmatch, key_of_latest hlast, le_rfl⟩
        · omega
        · rw [hall, State.history]
          omega
      refine ⟨?_, fun ch hch hid => ?_⟩
      · have hsame : history Change.aggId old a = history Change.aggId s.log a :=
          (history_mono (hfetched.old_src.trans hfetched.src_log)).eq_of_length_le
            (hquiet.trans (hlow a))
        have hold : latest Change.aggId old a = some last := by rw [latest, hsame]; exact hlast
        rw [seed, contains_seedView, hfetched.held_eq, Attach.inResult,
          h.ordered.latest_between hfetched.old_src hfetched.src_log hold hlast,
          Option.any_some, hmatch]
      · obtain ⟨i, hi, hget⟩ := ho.pending_mem ch hch
        have hlt : i < (history Change.aggId s.log ch.aggId).length :=
          (List.getElem?_eq_some_iff.mp hget).1
        rw [hid] at hi hlt
        omega

theorem inv_activate (hpage : s.page = some page) (hids : seedIds c s = some ids)
    (hok : handsOver c s (.activate refills))
    (hstep : Dispatcher.step c.engine s.partition (.activate c.key page ids refills) =
      some p) : Inv c { s with partition := p } := by
  refine ⟨h.ordered, h.delivered_le, ?_⟩
  cases h.phase with
  | absent hview =>
    have hview' : s.partition.view c.key = none := hview
    simp [Dispatcher.step, hview'] at hstep
  | opening pending low hview hindex ho =>
    have hview' : s.partition.view c.key = some (opened c pending) := hview
    simp only [handsOver, hview, hpage, hids, Bool.and_eq_true, all_eq_true] at hok
    simp only [Dispatcher.step, hview'] at hstep
    cases hstep
    obtain ⟨hagrees, hsettled⟩ := settled_activate h ho hpage hids hok.1 hok.2
    refine .live _ ?_ hindex ?_ hsettled
    · rw [State.view, view_put, if_pos rfl]
    · rw [column_put, if_pos rfl]
      exact hagrees
  | live v hview hindex hagrees =>
    have hview' : s.partition.view c.key = some v := hview
    simp [Dispatcher.step, hview', hagrees.ready] at hstep

omit h in
theorem inv_start : Inv c start where
  ordered := ordered_nil
  delivered_le _ := Nat.zero_le _
  phase := .absent rfl (fun _ => rfl) rfl

theorem inv_step {a : Action} (hok : handsOver c s a) (hstep : step c s a = some t) : Inv c t := by
  revert hok hstep
  fun_cases step c s a <;> intro hok hstep <;> try cases hstep
  · rename_i hnew
    refine inv_commit h fun last hlast => ?_
    simpa [hlast] using hnew
  · obtain ⟨ch, hnext, rfl⟩ := Option.map_eq_some_iff.mp hstep
    refine inv_deliver h hnext fun v hview hready hsel => ?_
    simpa [handsOver, hnext, hview, hready, hsel] using hok
  · rename_i hpos
    exact inv_rewind h hpos
  · rename_i hview
    obtain ⟨p, hcreate, rfl⟩ := Option.map_eq_some_iff.mp hstep
    exact inv_register h (by simpa using hview) hcreate
  · rename_i hidle
    refine inv_readPage h (Bool.and_eq_true_iff.mp hidle).1 ?_
    simpa [handsOver] using hok
  · rename_i hpage _
    exact inv_readIds h hpage
  · rename_i hids hpage
    obtain ⟨p, hactivate, rfl⟩ := Option.map_eq_some_iff.mp hstep
    exact inv_activate h hpage hids hok hactivate
  · obtain ⟨p, hfail, rfl⟩ := Option.map_eq_some_iff.mp hstep
    exact inv_failSeed h hfail

end

/-- In every such run, the view holds the result once all is dispatched. -/
theorem holdsResult_of_handsOver (c : Attach) {trace : List Action} {s : State}
    (hok : Along (step c) (fun s a => handsOver c s a = true) start trace)
    (hrun : run (step c) start trace = some s) : HoldsResult c s := by
  exact (run_invariant (fun _ _ _ h => inv_step h) inv_start hok hrun).holdsResult

def quietHandoff : List Action :=
  [.commit (siteChange "a" 1 "north"), .deliver "a" none,
    .commit (siteChange "b" 1 "north"), .register, .deliver "b" none, .readPage,
    .commit (siteChange "a" 2 "north"), .deliver "a" none, .rewind "b" 0, .activate [],
    .deliver "b" none, .commit (siteChange "a" 3 "south"), .deliver "a" none]

theorem holdsResult_quietHandoff : ∃ s, run (step atSite) start quietHandoff = some s ∧
      (s.view atSite).any (fun v => v.contains "b" && !v.contains "a") = true ∧
      HoldsResult atSite s := by
  have hok : Along (step atSite) (fun s a => handsOver atSite s a) start quietHandoff := by decide
  exact ⟨_, rfl, by decide, holdsResult_of_handsOver atSite hok rfl⟩

end Fabriq.Live.Handoff

