import Fabriq.Projection.RebuildSafety.Tracked

namespace Fabriq.Projection.RebuildSafety

open Core.Schema Core.Value Lib.Assoc Lib.KeyedLog Lib.Machine List Option
open Projection.GraphStore Projection.Rebuild Projection.RebuildRun

variable {d : Deployment} {entity : Entity} {id : String} {e : Envelope} {g h : Graph}
  {s t : System} {w : Nat} {env : Envelope}

theorem graph_put {graphs : List (String × Graph)} {name : String} (other : String)
    (hgraphs : t.graphs = put graphs name g) :
    t.graph other = if other = name then g else (graphs.lookup other).getD .empty := by
  rw [System.graph, hgraphs, lookup_put]
  split_ifs <;> rfl

theorem graphNameVersioned_ne_empty {tenant : String} {version : Nat} :
    graphNameVersioned tenant version ≠ "" := by
  simp [graphNameVersioned]

theorem feeds_rest {target : String} {rest : List String}
    (hok : s.phase.isFlipped → buildTarget d s ∉ rest → (resolve d s w target).1 = buildTarget d s)
    (hname : (resolve d s w target).1 ≠ buildTarget d s) (h : Feeds d s ⟨env, target :: rest⟩) :
    Feeds d s ⟨env, rest⟩ := by
  left
  by_contra hrest
  cases hflipped : s.phase.isFlipped with
  | true => exact hname (hok hflipped hrest)
  | false =>
    rcases h with hmem | ⟨-, htrue⟩
    · have htarget : target = buildTarget d s := ((mem_cons.mp hmem).resolve_right hrest).symm
      have hne : target ≠ "" := by
        rw [htarget, buildTarget_of_not_flipped hflipped]
        exact graphNameVersioned_ne_empty
      rw [resolve, if_neg hne] at hname
      exact hname htarget
    · rw [hflipped] at htrue
      cases htrue

theorem tracked_applyTarget (hshown : Shown d entity) (hc : Consistent d s)
    (hs : Tracked d entity id s) (hok : applyOk d s w) (h : applyTarget d s w = some t) :
    Tracked d entity id t := by
  obtain ⟨env, target, rest, g, hjob, hg, ht⟩ := applyTarget_eq_some h
  simp only [applyOk, hjob] at hok
  have hmem : env ∈ s.log := hc.delivered _ (hc.jobs w _ hjob)
  have hlog : t.log = s.log := by rw [ht]
  have hphase : t.phase = s.phase := by rw [ht]
  have hdeliv : t.delivered = s.delivered := by rw [ht]
  have hbuild : buildTarget d t = buildTarget d s := buildTarget_congr hphase (by rw [ht])
  have hgraph := graph_put (buildTarget d t) (show t.graphs = _ by rw [ht])
  have howed : ∀ e, Owed d s e →
      (env = e → Feeds d s ⟨env, target :: rest⟩ → Feeds d s ⟨env, rest⟩) → Owed d t e := by
    intro e howed hrest
    refine howed.of_worker (by rw [ht]; exact howed.1) (show t.workers = _ by rw [ht]) hphase
      (by rw [ht]) fun j hj hevent => ?_
    cases hj
    exact hrest hevent (howed.2 w _ hjob hevent)
  rcases eq_or_ne (resolve d s w target).1 (buildTarget d s) with hname | hname
  · rw [hname] at hg hok
    rw [hbuild, if_pos hname.symm] at hgraph
    by_cases hown : aggregateOf env = (entity.name, id)
    · by_cases hverb : env.verb = .deleted
      · have hnone : held d t ⟨entity.graphNode, id⟩ = none := by
          rw [held, hbuild, hgraph]
          exact hshown.heldVersion_delete hown hverb hg
        refine ⟨fun _ => .inl hnone, fun _ _ hall => ?_, fun _ _ _ _ _ => .inl hnone⟩
        rw [hlog] at hall
        exact absurd hverb (hall env (mem_history.mpr ⟨hmem, hown⟩))
      · cases hdropped : dropped s.phase with
        | false => exact Tracked.of_not_dropped (hphase ▸ hdropped)
        | true =>
          refine hs.of_upsert hshown hown hverb (hc.log.positive env hmem)
            (hc.log.stamped env hmem hverb) (mem_history.mpr ⟨hmem, hown⟩) hverb rfl
            (hok.1 hdropped rfl hverb) hdropped ?_ hlog hdeliv ?_ ?_ fun e he => ?_
          · rw [hbuild, hgraph]
            exact hg
          · rw [hphase]
            exact fun hnot => hnot
          · rw [hphase]
            exact fun row hrow => .inl hrow
          · by_cases heq : env = e
            · exact .inr (heq ▸ le_rfl)
            · exact .inl (howed e he fun h => absurd h heq)
    · refine hs.of_workers hlog hphase ?_ (fun _ e he hold => ?_) fun _ e _ hmem => ?_
      · rw [held, hbuild, hgraph]
        exact hshown.heldVersion_other hown hg
      · exact howed e hold fun heq => absurd he (heq ▸ hown)
      · exact .inl (hdeliv ▸ hmem)
  · rw [hbuild, if_neg hname.symm] at hgraph
    refine hs.of_workers hlog hphase ?_ (fun _ e _ hold => ?_) fun _ e _ hmem => ?_
    · rw [held, hbuild, hgraph]
      rfl
    · exact howed e hold fun _ => feeds_rest hok.2 hname
    · exact .inl (hdeliv ▸ hmem)

theorem cursor_cons {lastId : String} {row : Envelope} {page : List Envelope} :
    cursor lastId (row :: page) = cursor row.aggId page := by
  unfold cursor
  cases page with
  | nil => rfl
  | cons next rest => rw [List.getLast?_cons_cons, List.getLast?_cons]; rfl

theorem tracked_applyRow (hshown : Shown d entity) (hc : Consistent d s)
    (hs : Tracked d entity id s) (hok : rowOk s) (h : applyRow d s = some t) :
    Tracked d entity id t := by
  rcases applyRow_eq_some h with
    habort | ⟨pending, lastId, row, page, more, g, hphase, hg, ht⟩
  · obtain ⟨-, rfl⟩ := abort_eq_some habort
    exact Tracked.of_not_dropped rfl
  simp only [rowOk, hphase, pageOf] at hok
  obtain ⟨e₀, hmem, hupsert, rfl⟩ := hc.rows row (by rw [hphase]; exact mem_cons_self)
  have hlog : t.log = s.log := by rw [ht]
  have hafter : t.phase = .snapshot pending e₀.aggId page more := by rw [ht]; rfl
  have hdropped : dropped s.phase := by rw [hphase]; rfl
  have hnot : s.phase.isFlipped = false := by rw [hphase]; rfl
  have hbuild : buildTarget d t = buildTarget d s :=
    buildTarget_eq hnot (by rw [hafter]; rfl) (by rw [ht])
  have hgraph := graph_put (buildTarget d t) (show t.graphs = _ by rw [ht])
  rw [if_pos hbuild] at hgraph
  have hahead : ¬ Ahead entity id t.phase → ¬ Ahead entity id s.phase := by
    rw [hphase, hafter]
    simp only [Ahead, cursor_cons]
    exact fun hnot => hnot
  have hflipped : s.phase.isFlipped → t.phase.isFlipped := by
    rw [hnot]
    exact fun hfalse => absurd hfalse Bool.false_ne_true
  by_cases hown : aggregateOf (snapshotEnvelope e₀) = (entity.name, id)
  · refine hs.of_upsert hshown hown (by simp [snapshotEnvelope]) (hc.log.positive e₀ hmem)
      (hc.log.stamped e₀ hmem hupsert) (mem_history.mpr ⟨hmem, hown⟩) hupsert rfl hok hdropped
      (hgraph ▸ hg) hlog (by rw [ht]) hahead ?_
      fun e he => .inl (he.congr (by rw [ht]) (by rw [ht]) hbuild hflipped)
    rw [hphase, hafter]
    intro r hr
    rcases mem_cons.mp hr with rfl | hr
    · exact .inr le_rfl
    · exact .inl hr
  · have hheld : held d t ⟨entity.graphNode, id⟩ = held d s ⟨entity.graphNode, id⟩ := by
      rw [held, hgraph]
      exact hshown.heldVersion_other hown hg
    refine hs.of_rebuild hlog (by rw [ht]) (by rw [ht]) (by rw [ht]) hbuild hheld hflipped
      hdropped fun hnot' hnone e he => ?_
    refine (hs.upserts hdropped (hahead hnot') hnone e he).imp_left ?_
    rintro (⟨n, hn, hn'⟩ | ⟨r, hr, hkey, hv⟩)
    · exact .inl ⟨n, hn, hheld.trans hn'⟩
    · rw [hphase] at hr
      rcases mem_cons.mp hr with rfl | hr
      · exact absurd (hkey.trans (mem_history.mp he).2) hown
      · exact .inr ⟨r, by rw [hafter]; exact hr, hkey, hv⟩

theorem empty_lt (hid : id ≠ "") : "" < id := by
  rw [String.lt_iff_toList_lt]
  cases hs : id.toList with
  | nil => exact absurd (String.toList_eq_nil_iff.mp hs) hid
  | cons c rest => exact nil_lt_cons c rest

theorem ahead_of_mem {pending : List Entity} (hmem : entity ∈ pending) (hid : id ≠ "") :
    Ahead entity id (.snapshot pending "" [] true) := by
  cases pending with
  | nil => simp at hmem
  | cons first rest =>
    rcases mem_cons.mp hmem with rfl | hmem
    · exact .inr ⟨rfl, rfl, empty_lt hid⟩
    · exact .inl hmem

theorem id_ne_empty (hc : Consistent d s) (he : e ∈ history aggregateOf s.log (entity.name, id)) :
    id ≠ "" := by
  obtain ⟨hmem, hkey⟩ := mem_history.mp he
  have hid : e.aggId = id := (Prod.mk.inj hkey).2
  exact hid ▸ hc.log.named e hmem

theorem tracked_dropTarget (hshown : Shown d entity) (hc : Consistent d s)
    (h : dropTarget d s = some t) : Tracked d entity id t := by
  revert h
  fun_cases dropTarget d s <;> intro h
  · rename_i hphase
    have ht := (some.inj h).symm
    have hnone : held d t ⟨entity.graphNode, id⟩ = none := by
      have hbuild : buildTarget d t = buildTarget d s :=
        buildTarget_eq (by rw [hphase]; rfl) (by rw [ht]; rfl) (by rw [ht])
      rw [held, hbuild, System.graph, ht, lookup_drop, if_pos rfl]
      rfl
    refine ⟨fun _ => .inl hnone, fun _ hahead _ e he => ?_, fun _ _ _ _ _ => .inl hnone⟩
    rw [ht] at he hahead
    have hmem : entity ∈ snapshotEntities d.reg := (mem_insertionSort _).mpr (mem_filter.mpr
        ⟨mem_of_find?_eq_some hshown.get, hshown.aggregate⟩)
    exact absurd (ahead_of_mem hmem (id_ne_empty hc he)) hahead
  · cases h

theorem Reached.of_empty_page {key : NodeKey} (h : Reached d s key e) (hpage : pageOf s.phase = [])
    (hheld : held d t key = held d s key) : Reached d t key e := by
  rcases h with ⟨n, hn, hn'⟩ | ⟨row, hrow, -⟩
  · exact .inl ⟨n, hn, hheld.trans hn'⟩
  · rw [hpage] at hrow
    cases hrow

theorem Tracked.of_empty_page (hs : Tracked d entity id s) {phase : Phase}
    (hpage : pageOf s.phase = []) (hdropped : dropped s.phase)
    (hbefore : s.phase.isFlipped = false) (hafter : phase.isFlipped = false)
    (hpassed : Ahead entity id s.phase → ¬ Ahead entity id phase →
      (∀ e ∈ history aggregateOf s.log (entity.name, id), e.verb ≠ .deleted) →
      ∀ e ∈ history aggregateOf s.log (entity.name, id),
        Reached d { s with phase := phase } ⟨entity.graphNode, id⟩ e ∨ Owed d s e) :
    Tracked d entity id { s with phase := phase } := by
  have hbuild : buildTarget d { s with phase := phase } = buildTarget d s :=
    buildTarget_eq hbefore hafter rfl
  have hheld : held d { s with phase := phase } ⟨entity.graphNode, id⟩ =
      held d s ⟨entity.graphNode, id⟩ := by
    rw [held, held, hbuild]
    rfl
  refine hs.of_rebuild rfl rfl rfl rfl hbuild hheld
    (fun hflipped => absurd (hbefore.symm.trans hflipped) Bool.false_ne_true) hdropped
    fun hahead hnone e he => ?_
  by_cases hwas : Ahead entity id s.phase
  · exact hpassed hwas hahead hnone e he
  · exact (hs.upserts hdropped hwas hnone e he).imp_left
      fun hreached => hreached.of_empty_page hpage hheld

theorem tracked_nextEntity (hc : Consistent d s) (hs : Tracked d entity id s)
    (h : nextEntity s = some t) : Tracked d entity id t := by
  revert h
  fun_cases nextEntity s <;> rintro ⟨⟩
  rename_i hphase
  refine hs.of_empty_page (by rw [hphase]; rfl) (by rw [hphase]; rfl) (by rw [hphase]; rfl) rfl
    fun hwas hahead _ e he => ?_
  rw [hphase] at hwas
  rcases hwas with hmem | ⟨-, hmore, -⟩
  · exact absurd (ahead_of_mem hmem (id_ne_empty hc he)) hahead
  · cases hmore

theorem tracked_flip (hs : Tracked d entity id s) (h : Rebuild.flip d s = some t) :
    Tracked d entity id t := by
  revert h
  fun_cases Rebuild.flip d s <;> rintro ⟨⟩
  rename_i hphase
  have hdropped : dropped s.phase := by rw [hphase]; rfl
  refine hs.of_rebuild rfl rfl rfl rfl rfl rfl (fun _ => rfl) hdropped fun _ hnone e he => ?_
  have hbefore : ¬ Ahead entity id s.phase := by
    rw [hphase]
    simp [Ahead]
  exact (hs.upserts hdropped hbefore hnone e he).imp_left
    fun hreached => hreached.of_empty_page (by rw [hphase]; rfl) rfl

theorem mem_snapshotPage_or {log : List Envelope} {lastId : String}
    (hrow : currentRow log (entity.name, id) = some e) (hid : lastId < id) :
    snapshotEnvelope e ∈ snapshotPage log entity lastId ∨
      ((snapshotPage log entity lastId).length = pageSize ∧
        cursor lastId (snapshotPage log entity lastId) < id) := by
  obtain ⟨hlatest, hverb⟩ := filter_eq_some_iff.mp hrow
  have hkey : aggregateOf e = (entity.name, id) := key_of_latest hlatest
  obtain ⟨hname, rfl⟩ := Prod.mk.inj hkey
  unfold snapshotPage
  generalize hrows : ((latestAll aggregateOf log).filter fun e =>
    e.aggregate == entity.name && e.verb != .deleted && decide (lastId < e.aggId)) = rows
  have hmem : e ∈ rows := by
    rw [← hrows]
    refine mem_filter.mpr ⟨mem_latestAll.mpr (hkey ▸ hlatest), ?_⟩
    simp only [Bool.and_eq_true, beq_iff_eq, decide_eq_true_eq]
    exact ⟨⟨hname, hverb⟩, hid⟩
  have hsorted := pairwise_insertionSort (fun a b : Envelope => a.aggId ≤ b.aggId) rows
  simp only
  generalize hlist : rows.insertionSort (fun a b => a.aggId ≤ b.aggId) = sorted at hsorted
  have hmem' : e ∈ sorted := by
    rw [← hlist]
    exact (mem_insertionSort _).mpr hmem
  by_cases htake : e ∈ sorted.take pageSize
  · exact .inl (List.mem_map_of_mem htake)
  · right
    rw [← take_append_drop pageSize sorted] at hmem' hsorted
    have hdrop := (mem_append.mp hmem').resolve_left htake
    have hlength : (sorted.take pageSize).length = pageSize := by
      rw [length_take]
      have := length_pos_of_mem hdrop
      rw [length_drop] at this
      omega
    refine ⟨by rw [length_map, hlength], ?_⟩
    cases hlast : (sorted.take _).getLast? with
    | none =>
      rw [List.getLast?_eq_none_iff.mp hlast] at hlength
      exact absurd hlength (by decide)
    | some y =>
      have hy := mem_of_getLast? hlast
      have hcursor : cursor lastId ((sorted.take pageSize).map snapshotEnvelope) = y.aggId := by
        rw [cursor, List.getLast?_map, hlast]
        rfl
      rw [hcursor]
      refine lt_of_le_of_ne ((pairwise_append.mp hsorted).2.2 y hy e hdrop) fun heq => ?_
      -- two current rows with one id would be the same row
      have hrowy : y ∈ rows := by
        rw [← mem_insertionSort (fun a b : Envelope => a.aggId ≤ b.aggId), hlist]
        exact mem_of_mem_take hy
      rw [← hrows] at hrowy
      obtain ⟨hlatesty, hkeep⟩ := mem_filter.mp hrowy
      simp only [Bool.and_eq_true, beq_iff_eq] at hkeep
      have hkeyy : aggregateOf y = (entity.name, e.aggId) := Prod.ext hkeep.1.1 heq
      have hsame := mem_latestAll.mp hlatesty
      rw [hkeyy, hlatest, some.injEq] at hsame
      exact htake (hsame ▸ hy)

theorem tracked_readPage (hc : Consistent d s) (hs : Tracked d entity id s)
    (h : readPage s = some t) : Tracked d entity id t := by
  revert h
  fun_cases readPage s <;> rintro ⟨⟩
  rename_i current rest lastId hphase _
  refine hs.of_empty_page (by rw [hphase]; rfl) (by rw [hphase]; rfl) (by rw [hphase]; rfl) rfl
    fun hwas hahead hnone e he => ?_
  -- the page that covers the aggregate is this one
  rw [hphase] at hwas
  rcases hwas with hmem | ⟨hhead, -, hid⟩
  · exact absurd (.inl hmem) hahead
  obtain rfl := some.inj hhead
  obtain ⟨last, hlast, hle⟩ := hc.log.ordered.exists_latest he
  have hrow : currentRow s.log (current.name, id) = some last := by
    rw [currentRow, hlast, filter_some, if_pos]
    exact bne_iff_ne.mpr (hnone last (mem_of_latest hlast))
  have hlast' : lastId < id := hid
  rcases mem_snapshotPage_or hrow hlast' with hmem | ⟨hfull, hcursor⟩
  · refine Or.inl (.inr ⟨snapshotEnvelope last, hmem, ?_, hle⟩)
    exact (key_of_latest hlast).trans (mem_history.mp he).2.symm
  · exact absurd (.inr ⟨rfl, decide_eq_true hfull, hcursor⟩) hahead

theorem tracked_step (hshown : Shown d entity) (hc : Consistent d s)
    (hs : Tracked d entity id s) {a : Action} (hok : StepOk d s a)
    (h : step d s a = some t) : Tracked d entity id t := by
  cases a with
  | commit entity' id' verb vals =>
    obtain ⟨env, rfl, -, hnext, -⟩ := commit_eq_some h
    exact tracked_commit hc hs hnext
  | tick k =>
    cases h
    exact ⟨hs.sound, hs.upserts, hs.deletes⟩
  | deliver w i => exact tracked_deliver hshown hc hs hok h
  | applyTarget w => exact tracked_applyTarget hshown hc hs hok h
  | ack w => exact tracked_ack hs h
  | crash w =>
    cases h
    exact tracked_crash hs
  | mark =>
    rw [step] at h
    revert h
    fun_cases mark s <;> rintro ⟨⟩
    exact Tracked.of_not_dropped rfl
  | dropTarget => exact tracked_dropTarget hshown hc h
  | readPage => exact tracked_readPage hc hs h
  | nextEntity => exact tracked_nextEntity hc hs h
  | applyRow => exact tracked_applyRow hshown hc hs hok h
  | flip => exact tracked_flip hs h
  | abort =>
    obtain ⟨-, rfl⟩ := abort_eq_some h
    exact Tracked.of_not_dropped rfl

/-- A system before its first commit and rebuild; a target of any content may be left over
from an abandoned attempt. -/
def initial (state : ProjState) (graphs : List (String × Graph)) : System where
  state := state
  graphs := graphs

theorem consistent_initial {state : ProjState} {graphs : List (String × Graph)} :
    Consistent d (initial state graphs) where
  log := ⟨ordered_nil, nofun, nofun, nofun, nofun⟩
  delivered := nofun
  acked := nofun
  jobs := nofun
  rows := nofun
  marked := nofun
  flipped := nofun
  state := fun _ => rfl
  caches := nofun

theorem phase_of_settled (hsettled : Settled s) : s.phase = .flipped := by
  have hflipped := hsettled.1
  cases hp : s.phase with
  | flipped => rfl
  | idle | marked | snapshot => simp [hp, Phase.isFlipped] at hflipped

theorem Tracked.held_eq (hc : Consistent d s) (hs : Tracked d entity id s) (hsettled : Settled s) :
    held d s ⟨entity.graphNode, id⟩ =
      (currentRow s.log (entity.name, id)).map fun e => .num e.version := by
  have hphase := phase_of_settled hsettled
  have hdropped : dropped s.phase := by rw [hphase]; rfl
  cases hlast : latest aggregateOf s.log (entity.name, id) with
  | none =>
    rw [currentRow, hlast]
    rcases hs.sound hdropped with hnone | ⟨e, he, -⟩
    · exact hnone
    · rw [latest_eq_none.mp hlast] at he
      cases he
  | some last =>
    have hmem := mem_of_latest hlast
    have hdone := hsettled.2 last (mem_history.mp hmem).1
    by_cases hverb : last.verb = .deleted
    · rw [currentRow, hlast, filter_some, if_neg (by simp [hverb])]
      exact (hs.deletes hdropped last hmem hverb (hc.acked last hdone)).resolve_right
        fun howed => howed.1 hdone
    · -- a deleted aggregate would have the delete as its latest event
      have hnone : ∀ e ∈ history aggregateOf s.log (entity.name, id), e.verb ≠ .deleted := by
        intro e he hdeleted
        have hfinal := hc.log.final e (mem_history.mp he).1 hdeleted
        rw [(mem_history.mp he).2, hlast, some.injEq] at hfinal
        exact hverb (hfinal ▸ hdeleted)
      have hahead : ¬ Ahead entity id s.phase := by
        rw [hphase]
        exact fun h => h
      rw [currentRow, hlast, filter_some, if_pos (by simp [hverb])]
      rcases (hs.upserts hdropped hahead hnone last hmem).resolve_right
        (fun howed => howed.1 hdone) with ⟨n, hn, hheld⟩ | ⟨row, hrow, -⟩
      · rcases hs.sound hdropped with hempty | ⟨e, he, -, heq⟩
        · exact absurd (hheld.symm.trans hempty) (some_ne_none _)
        · rw [hheld, some.injEq, Json.num.injEq, Rat.intCast_inj] at heq
          rw [hc.log.ordered.eq_latest hlast he (heq ▸ hn)] at heq
          rw [hheld, heq]
          rfl
      · rw [hphase] at hrow
        cases hrow

def freshRebuild : List Action :=
  [.commit "asset" "a1" .created [], .commit "asset" "a2" .created [],
    .deliver 0 0, .applyTarget 0, .ack 0, .deliver 1 1, .applyTarget 1, .ack 1,
    .tick 3000, .mark, .dropTarget, .readPage, .commit "asset" "a1" .updated [],
    .deliver 0 2, .applyTarget 0, .applyTarget 0, .ack 0, .applyRow, .applyRow,
    .nextEntity, .flip, .commit "asset" "a2" .deleted [],
    .deliver 0 3, .applyTarget 0, .applyTarget 0, .ack 0]

end Fabriq.Projection.RebuildSafety
