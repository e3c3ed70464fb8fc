import Fabriq.Lib.Machine
import Fabriq.Live.Dispatcher

namespace Fabriq.Live.ScopeIsolation

open Core.Value Lib Lib.Machine Live.Dispatcher Live.MaintainedWindow Live.Types
open List Option

/-- A tenant's row changes of one entity with the scope of each row version, the scopes of the
subscribers, and that of the context that opened the partition, under which every refill reads. -/
structure Tenant where
  engine : Engine
  changes : List Change
  scope : String → Int → Option String
  scopes : Nat → Option String
  feed : Option String

/-- The scope rule of the row-level security: a read without a scope sees every row. -/
def canSee (reader scope : Option String) : Bool :=
  reader.all fun s => scope.all fun t => s == t

def Tenant.sees (c : Tenant) (reader : Option String) (ch : Change) : Bool :=
  canSee reader (c.scope ch.aggId ch.version)

/-- A read returns rows that pass the filter and that the reader sees; a page is given by the
positions of its row versions in the changes. -/
def Tenant.reads (c : Tenant) (reader : Option String) (pred : Vals → Bool)
    (page : List Nat) : Bool :=
  page.all fun i => (c.changes[i]?).all fun ch =>
    !ch.deleted && pred ch.vals && c.sees reader ch

def Tenant.rows (c : Tenant) (sort : List SortKey) (page : List Nat) : List Row :=
  page.filterMap fun i => (c.changes[i]?).map (rowFromChange sort)

def snapshot (v : View) : List Row :=
  match v.q.mode with
  | .streamed => v.initialPage
  | .maintained => (v.win.map Window.visible).getD []

def carriesRow (d : LiveDelta) : Bool :=
  match d.op with
  | .unmatch => false
  | .reset => false
  | _ => true

abbrev Frame := Nat × String × Int

def fanOut (subs : List Nat) (deltas : List LiveDelta) : List Frame :=
  subs.flatMap fun sub =>
    (deltas.filter carriesRow).map fun d => (sub, d.aggId, d.version)

/-- The deltas of the replay in `drain`. -/
def drainDeltas : List (Option (List Row)) → View → Column → List Change → List LiveDelta
  | _, _, _, [] => []
  | refills, v, column, ch :: rest =>
    let next := applyReady (fun _ _ _ => refills.headD none) v column ch
    next.2 ++ drainDeltas refills.tail next.1.1 next.1.2 rest

/-- `homes` records the scope of the subscriber that created a view, which reads its snapshot. -/
structure State where
  partition : Partition
  received : List Frame
  homes : String → Option String

def start : State :=
  ⟨.empty, [], fun _ => none⟩

inductive Action
  | create (creator : Option String) (q : LiveQuery)
  | activate (id : String) (page : List Nat) (ids : List String)
      (refills : List (Option (List Nat)))
  | failSeed (id : String)
  | join (sub : Nat) (id : String)
  | dispatch (i : Nat) (refills : String → Option (List Nat))
  | detach (sub : Nat)

def sent (p : Partition) (ch : Change) (refills : String → Option (List Row)) : List Frame :=
  p.views.flatMap fun entry =>
    if p.selects ch entry.1 then
      fanOut entry.2.subs
        (applyChange (fun _ _ _ => refills entry.1) entry.2 (p.column entry.1) ch).2
    else []

def step (c : Tenant) (s : State) : Action → Option State
  | .create creator q =>
    (Dispatcher.step c.engine s.partition (.create q)).map fun p =>
      { s with
        partition := p
        homes := fun id =>
          if id = c.engine.shapeKey q ∧ s.partition.view id = none then creator else s.homes id }
  | .activate id page ids refills =>
    (s.partition.view id).bind fun v =>
      let rows := c.rows v.q.sort page
      let answers := refills.map (Option.map (c.rows v.q.sort))
      let seeded := seedView c.engine.cushion v (s.partition.column id) rows ids
      if c.reads (s.homes id) v.pred page && refills.all (Option.all (c.reads c.feed v.pred)) then
        (Dispatcher.step c.engine s.partition (.activate id rows ids answers)).map fun p =>
          { s with
            partition := p
            received := fanOut v.subs (drainDeltas answers seeded.1 seeded.2 v.pending) ++
              s.received }
      else none
  | .failSeed id =>
    (Dispatcher.step c.engine s.partition (.failSeed id)).map fun p => { s with partition := p }
  | .join sub id =>
    (s.partition.view id).bind fun v =>
      (Dispatcher.step c.engine s.partition (.join sub id)).map fun p =>
        { s with
          partition := p
          received := (snapshot v).map (fun r => (sub, r.aggId, r.version)) ++ s.received }
  | .dispatch i refills =>
    (c.changes[i]?).bind fun ch =>
      let answers := fun id => (s.partition.view id).bind fun v =>
        (refills id).map (c.rows v.q.sort)
      if s.partition.views.all fun entry =>
          (refills entry.1).all (c.reads c.feed entry.2.pred) then
        some { s with
          partition := s.partition.dispatch ch answers
          received := sent s.partition ch answers ++ s.received }
      else none
  | .detach sub =>
    (Dispatcher.step c.engine s.partition (.detach sub)).map fun p => { s with partition := p }

/-- A subscriber receives row versions of its own scope and of no scope only. -/
def Isolated (c : Tenant) (s : State) : Prop :=
  ∀ sub aggId version, (sub, aggId, version) ∈ s.received →
    canSee (c.scopes sub) (c.scope aggId version) = true

def twoScopes : Tenant where
  engine := ⟨1, fun _ => "view", id⟩
  changes := [rankChange "a" 1 1]
  scope := fun aggId _ => if aggId = "a" then some "south" else some "north"
  scopes := fun _ => some "north"
  feed := some "north"

/-- A change of another scope passes the filter of a view whose snapshot, read under its
creator's scope, was empty. -/
theorem otherScope_not_isolated : ∃ s, run (step twoScopes) start
        [.create (some "north") byRank, .activate "view" [] [] [], .join 1 "view",
          .dispatch 0 fun _ => none] = some s ∧ ¬ Isolated twoScopes s := by
  refine ⟨_, rfl, fun h => ?_⟩
  have hseen := h 1 "a" 1 (by decide)
  revert hseen
  decide

/-- A reader without a scope, or of the same one. -/
def covers (reader home : Option String) : Bool :=
  reader.isNone || reader == home

/-- The view may apply the change: a row that its filter accepts is one that its home sees. -/
def admits (c : Tenant) (home : Option String) (v : View) (ch : Change) : Bool :=
  ch.deleted || !v.pred ch.vals || c.sees home ch

/-- A subscriber joins a view that was created under its own scope, a view is handed rows of that
scope, and it is refilled only if the partition was opened under it. -/
def ownScope (c : Tenant) (s : State) : Action → Bool
  | .join sub id => covers (c.scopes sub) (s.homes id)
  | .activate id _ _ refills =>
    (s.partition.view id).all fun v => v.pending.all (admits c (s.homes id) v) &&
      (refills.all Option.isNone || covers (s.homes id) c.feed)
  | .dispatch i refills => (c.changes[i]?).all fun ch => s.partition.views.all fun entry =>
      !entry.2.ready || (admits c (s.homes entry.1) entry.2 ch &&
        ((refills entry.1).isNone || covers (s.homes entry.1) c.feed))
  | .create .. | .failSeed _ | .detach _ => true

def Fits (c : Tenant) (home : Option String) (aggId : String) (version : Int) : Prop :=
  canSee home (c.scope aggId version) = true

/-- A view holds row versions that its home sees, and its subscribers see these. -/
structure Sealed (c : Tenant) (home : Option String) (v : View) : Prop where
  window : ∀ w, v.win = some w →
    w.pred = v.pred ∧ ∀ r ∈ w.rows, Fits c home r.aggId r.version
  page : ∀ r ∈ v.initialPage, Fits c home r.aggId r.version
  subs : ∀ sub ∈ v.subs, covers (c.scopes sub) home = true

variable {c : Tenant} {home : Option String} {v : View} {column : Column} {ch : Change}
  {answer : Option (List Row)}

theorem Fits.of_covers {reader : Option String} (h : covers reader home) {aggId : String}
    {version : Int} (hfits : Fits c home aggId version) : Fits c reader aggId version := by
  rcases Bool.or_eq_true_iff.mp h with hnone | hsame
  · rw [isNone_iff_eq_none.mp hnone]
    rfl
  · rw [beq_iff_eq.mp hsame]
    exact hfits

theorem fits_of_reads {reader : Option String} {pred : Vals → Bool} {page : List Nat}
    (h : c.reads reader pred page) {sort : List SortKey} {r : Row}
    (hr : r ∈ c.rows sort page) : Fits c reader r.aggId r.version := by
  obtain ⟨i, hi, hrow⟩ := mem_filterMap.mp hr
  obtain ⟨ch, hch, rfl⟩ := map_eq_some_iff.mp hrow
  have hread := all_eq_true.mp h i hi
  rw [hch, all_some, Bool.and_eq_true] at hread
  exact hread.2

theorem fits_of_matches (hadmits : admits c home v ch) (h : (!ch.deleted && v.pred ch.vals)) :
    Fits c home ch.aggId ch.version := by
  obtain ⟨hlive, hpred⟩ := Bool.and_eq_true_iff.mp h
  rw [Bool.not_eq_true'] at hlive
  have hsees : c.sees home ch := by simpa [admits, hlive, hpred] using hadmits
  exact hsees

theorem win_absorb {refill : Refiller} {w' : Window} (h : (v.absorb refill ch).1.win = some w') :
    v.win = some w' ∨ ∃ w, v.win = some w ∧ w' = (w.apply refill ch).1 := by
  unfold View.absorb at h
  split at h
  · refine Or.inl ?_
    unfold View.applyStreamed View.rememberVals at h
    split at h
    · split_ifs at h <;> exact h
    · exact h
    · split_ifs at h <;> exact h
    · exact h
  · rename_i w _ hwin
    exact .inr ⟨w, hwin, (some.inj h).symm⟩
  · exact .inl h

theorem sealed_newView (q : LiveQuery) (pred : Vals → Bool) :
    Sealed c home (newView q pred) where
  window := nofun
  page := forall_mem_nil _
  subs := forall_mem_nil _

section

variable (h : Sealed c home v)
include h

theorem Sealed.window_absorb (hadmits : admits c home v ch)
    (hanswer : ∀ more, answer = some more → ∀ r ∈ more, Fits c home r.aggId r.version) :
    ∀ w', (v.absorb (fun _ _ _ => answer) ch).1.win = some w' →
      w'.pred = v.pred ∧ ∀ r ∈ w'.rows, Fits c home r.aggId r.version := by
  intro w' hw'
  rcases win_absorb hw' with hwin | ⟨w, hwin, rfl⟩
  · exact h.window w' hwin
  · obtain ⟨hpred, hrows⟩ := h.window w hwin
    have hshape : (w.apply (fun _ _ _ => answer) ch).1.shape.pred = w.shape.pred := by
      rw [shape_apply]
    refine ⟨hshape.trans hpred, fun r hr => ?_⟩
    rcases mem_apply hr with (hold | ⟨hmatch, rfl⟩) | ⟨_, _, _, more, hmore, hr⟩
    · exact hrows r hold
    · rw [Window.matchesChange, hpred] at hmatch
      exact fits_of_matches hadmits hmatch
    · exact hanswer more hmore r hr

theorem Sealed.applyReady (column : Column) (hadmits : admits c home v ch)
    (hanswer : ∀ more, answer = some more → ∀ r ∈ more, Fits c home r.aggId r.version) :
    Sealed c home (applyReady (fun _ _ _ => answer) v column ch).1.1 ∧
      (Dispatcher.applyReady (fun _ _ _ => answer) v column ch).1.1.pred = v.pred := by
  cases hstale : v.isStale ch with
  | true =>
    rw [applyReady_of_stale hstale]
    exact ⟨h, rfl⟩
  | false =>
    obtain ⟨members, heq⟩ := exists_applyReady _ column hstale
    have hmarked : Sealed c home (v.markSeen ch) := ⟨h.window, h.page, h.subs⟩
    have hframe : ((v.markSeen ch).absorb (fun _ _ _ => answer) ch).1.frame =
        (v.markSeen ch).frame := frame_absorb
    have hpred := congrArg View.pred hframe
    have hsubs := congrArg View.subs hframe
    have hpage := congrArg View.initialPage hframe
    rw [heq]
    refine ⟨⟨?_, ?_, ?_⟩, hpred⟩
    · intro w' hw'
      exact (hmarked.window_absorb hadmits hanswer w' hw').imp_left (·.trans hpred.symm)
    · intro r hr
      exact h.page r (hpage ▸ hr)
    · intro sub hsub
      exact h.subs sub (hsubs ▸ hsub)

theorem Sealed.deltas_absorb (hadmits : admits c home v ch) {refill : Refiller}
    {d : LiveDelta} (hd : d ∈ (v.absorb refill ch).2) (hrow : carriesRow d) :
    Fits c home d.aggId d.version := by
  unfold View.absorb at hd
  split at hd
  · unfold View.applyStreamed at hd
    split at hd
    · rename_i hmatch _
      obtain rfl := mem_singleton.mp hd
      exact fits_of_matches hadmits hmatch
    · obtain rfl := mem_singleton.mp hd
      simp [carriesRow] at hrow
    · rename_i hmatch _
      obtain rfl := mem_singleton.mp hd
      exact fits_of_matches hadmits hmatch
    · simp at hd
  · rename_i w _ hwin
    obtain ⟨hpred, hrows⟩ := h.window w hwin
    obtain ⟨r, hr, hid, hversion⟩ := delta_apply hd
    rw [hid, hversion]
    rcases hr with hold | ⟨hmatch, rfl⟩
    · exact hrows r hold
    · rw [Window.matchesChange, hpred] at hmatch
      exact fits_of_matches hadmits hmatch
  · simp at hd

theorem Sealed.deltas (hadmits : admits c home v ch) {d : LiveDelta}
    (hd : d ∈ (Dispatcher.applyReady (fun _ _ _ => answer) v column ch).2)
    (hrow : carriesRow d) : Fits c home d.aggId d.version := by
  unfold Dispatcher.applyReady at hd
  split_ifs at hd
  · simp at hd
  · obtain ⟨produced, hproduced, rfl⟩ := mem_map.mp hd
    have hmarked : Sealed c home (v.markSeen ch) := ⟨h.window, h.page, h.subs⟩
    have hfits : Fits c home produced.aggId produced.version :=
      hmarked.deltas_absorb hadmits hproduced hrow
    exact hfits

theorem Sealed.drain (column : Column) {pending : List Change}
    (hpending : ∀ ch ∈ pending, admits c home v ch) {refills : List (Option (List Row))}
    (hrefills : ∀ answer ∈ refills, ∀ more, answer = some more →
      ∀ r ∈ more, Fits c home r.aggId r.version) :
    Sealed c home (drain refills v column pending).1 ∧
      ∀ d ∈ drainDeltas refills v column pending, carriesRow d →
        Fits c home d.aggId d.version := by
  induction pending generalizing refills v column with
  | nil => exact ⟨h, forall_mem_nil _⟩
  | cons ch rest ih =>
    have hadmits := hpending ch mem_cons_self
    have hanswer : ∀ more, refills.headD none = some more →
        ∀ r ∈ more, Fits c home r.aggId r.version := by
      intro more hmore
      cases refills with
      | nil => simp at hmore
      | cons answer rest => exact hrefills answer mem_cons_self more hmore
    obtain ⟨hnext, hpred⟩ := h.applyReady column hadmits hanswer
    have hrest : ∀ later ∈ rest, admits c home
        (Dispatcher.applyReady (fun _ _ _ => refills.headD none) v column ch).1.1 later := by
      intro later hlater
      rw [admits, hpred]
      exact hpending later (mem_cons_of_mem _ hlater)
    obtain ⟨hsealed, hlater⟩ := ih hnext _ hrest
      fun answer hmem => hrefills answer (mem_of_mem_tail hmem)
    refine ⟨hsealed, fun d hd hrow => ?_⟩
    rcases mem_append.mp hd with hfirst | hd
    · exact h.deltas hadmits hfirst hrow
    · exact hlater d hd hrow

theorem Sealed.snapshot {r : Row} (hr : r ∈ snapshot v) : Fits c home r.aggId r.version := by
  unfold ScopeIsolation.snapshot at hr
  split at hr
  · exact h.page r hr
  · cases hwin : v.win with
    | none => simp [hwin] at hr
    | some w =>
      rw [hwin] at hr
      exact (h.window w hwin).2 r (mem_of_mem_take hr)

variable {sub : Nat}

theorem Sealed.fanOut {deltas : List LiveDelta}
    (hdeltas : ∀ d ∈ deltas, carriesRow d → Fits c home d.aggId d.version) {aggId : String}
    {version : Int} (hframe : (sub, aggId, version) ∈ fanOut v.subs deltas) :
    canSee (c.scopes sub) (c.scope aggId version) := by
  obtain ⟨sub', hsub, hframe⟩ := mem_flatMap.mp hframe
  obtain ⟨d, hd, heq⟩ := mem_map.mp hframe
  obtain ⟨rfl, rfl, rfl⟩ : sub' = sub ∧ d.aggId = aggId ∧ d.version = version := by
    simpa using heq
  obtain ⟨hmem, hrow⟩ := mem_filter.mp hd
  exact (hdeltas d hmem hrow).of_covers (h.subs sub' hsub)

theorem Sealed.seedView (column : Column) (cushion : Nat) {rows : List Row}
    (hrows : ∀ r ∈ rows, Fits c home r.aggId r.version) (ids : List String) :
    Sealed c home (seedView cushion v column rows ids).1 ∧
      (Dispatcher.seedView cushion v column rows ids).1.pred = v.pred := by
  unfold Dispatcher.seedView
  split
  · exact ⟨⟨h.window, hrows, h.subs⟩, rfl⟩
  · refine ⟨⟨?_, h.page, h.subs⟩, rfl⟩
    rintro _ ⟨⟩
    exact ⟨rfl, hrows⟩

end

structure Inv (c : Tenant) (s : State) : Prop where
  views : ∀ entry ∈ s.partition.views, Sealed c (s.homes entry.1) entry.2
  received : Isolated c s

variable {s t : State} {p : Partition} {id : String}

theorem inv_start : Inv c start := ⟨forall_mem_nil _, fun _ _ _ hmem => absurd hmem not_mem_nil⟩

theorem isolated_append {frames : List Frame} {homes : String → Option String}
    (hnew : ∀ sub aggId version, (sub, aggId, version) ∈ frames →
      Fits c (c.scopes sub) aggId version) (hold : Isolated c s) :
    Isolated c ⟨p, frames ++ s.received, homes⟩ := by
  intro sub aggId version hmem
  rcases mem_append.mp hmem with hmem | hmem
  · exact hnew sub aggId version hmem
  · exact hold sub aggId version hmem

section

variable (h : Inv c s)
include h

theorem Inv.view (hv : s.partition.view id = some v) : Sealed c (s.homes id) v :=
  h.views _ (Assoc.mem_of_lookup hv)

omit h in
theorem views_put {homes : String → Option String} {entry : View × Column}
    (hnew : Sealed c (homes id) entry.1)
    (hviews : ∀ entry ∈ p.views, Sealed c (homes entry.1) entry.2) :
    ∀ e ∈ (p.put id entry).views, Sealed c (homes e.1) e.2 := by
  intro e he
  rcases mem_cons.mp he with rfl | hold
  · exact hnew
  · exact hviews e (mem_of_mem_filter hold)

theorem Inv.create {creator : Option String} {q : LiveQuery}
    (hp : Dispatcher.step c.engine s.partition (.create q) = some p) :
    Inv c { s with
      partition := p
      homes := fun id =>
        if id = c.engine.shapeKey q ∧ s.partition.view id = none then creator else s.homes id } := by
  refine ⟨?_, h.received⟩
  -- Only a view that is not there yet gets a home.
  have hold : ∀ e ∈ s.partition.views, Sealed c (if e.1 = c.engine.shapeKey q ∧
      s.partition.view e.1 = none then creator else s.homes e.1) e.2 := by
    intro e he
    rw [if_neg]
    · exact h.views e he
    · rintro ⟨-, hnone⟩
      have hne := (lookup_eq_none_iff.mp hnone) e he
      simp at hne
  obtain rfl | ⟨-, rfl⟩ := step_create hp
  · exact hold
  · exact views_put (sealed_newView _ _) hold

theorem Inv.failSeed (hp : Dispatcher.step c.engine s.partition (.failSeed id) = some p) :
    Inv c { s with partition := p } := by
  refine ⟨?_, h.received⟩
  obtain rfl | ⟨-, rfl⟩ := step_failSeed hp
  · exact h.views
  · exact fun e he => h.views e (mem_of_mem_filter he)

theorem Inv.detach (hp : Dispatcher.step c.engine s.partition (.detach sub) = some p) :
    Inv c { s with partition := p } := by
  refine ⟨?_, h.received⟩
  obtain rfl | ⟨subView, rfl | ⟨id, v, hv, rfl | rfl⟩⟩ := step_detach hp
  · exact h.views
  · exact h.views
  · exact fun e he => h.views e (mem_of_mem_filter he)
  · have hold := h.view hv
    exact views_put ⟨hold.window, hold.page, fun sub hsub =>
      hold.subs sub (mem_of_mem_erase hsub)⟩ h.views

omit h in
/-- The rows of a refill are those that the partition's context sees, so the view's home does. -/
theorem fits_refill {pred : Vals → Bool} {sort : List SortKey} {refill : Option (List Nat)}
    (hcovers : refill.isNone || covers home c.feed) (hreads : refill.all (c.reads c.feed pred))
    {more : List Row} (hmore : refill.map (c.rows sort) = some more) :
    ∀ r ∈ more, Fits c home r.aggId r.version := by
  obtain ⟨page, rfl, rfl⟩ := map_eq_some_iff.mp hmore
  intro r hr
  rw [all_some] at hreads
  exact (fits_of_reads hreads hr).of_covers (by simpa using hcovers)

theorem Inv.activate {page : List Nat} {ids : List String} {refills : List (Option (List Nat))}
    (hv : s.partition.view id = some v) (hpage : c.reads (s.homes id) v.pred page)
    (hpending : ∀ ch ∈ v.pending, admits c (s.homes id) v ch)
    (hcovers : ∀ answer ∈ refills, answer.isNone || covers (s.homes id) c.feed)
    (hrefills : ∀ answer ∈ refills, answer.all (c.reads c.feed v.pred))
    (hp : Dispatcher.step c.engine s.partition (.activate id (c.rows v.q.sort page) ids
      (refills.map (Option.map (c.rows v.q.sort)))) = some p) :
    Inv c ⟨p, fanOut v.subs (drainDeltas (refills.map (Option.map (c.rows v.q.sort)))
      (seedView c.engine.cushion v (s.partition.column id) (c.rows v.q.sort page) ids).1
      (seedView c.engine.cushion v (s.partition.column id) (c.rows v.q.sort page) ids).2
      v.pending) ++ s.received, s.homes⟩ := by
  have hview := h.view hv
  obtain ⟨hseeded, hpred⟩ := hview.seedView (s.partition.column id) c.engine.cushion
    (fun r hr => fits_of_reads hpage hr) ids
  have hanswers : ∀ answer ∈ refills.map (Option.map (c.rows v.q.sort)),
      ∀ more, answer = some more → ∀ r ∈ more, Fits c (s.homes id) r.aggId r.version := by
    intro answer hanswer more hmore
    obtain ⟨read, hread, rfl⟩ := List.mem_map.mp hanswer
    exact fits_refill (hcovers read hread) (hrefills read hread) hmore
  have hadmits : ∀ ch ∈ v.pending, admits c (s.homes id)
      (seedView c.engine.cushion v (s.partition.column id) (c.rows v.q.sort page) ids).1 ch := by
    intro ch hch
    rw [admits, hpred]
    exact hpending ch hch
  obtain ⟨hdrained, hdeltas⟩ := hseeded.drain
    (seedView c.engine.cushion v (s.partition.column id) (c.rows v.q.sort page) ids).2
    hadmits hanswers
  refine ⟨?_, isolated_append (fun sub aggId version hnew => ?_) h.received⟩
  · obtain ⟨v', hv', -, rfl⟩ := step_activate hp
    obtain rfl := some.inj (hv.symm.trans hv')
    exact views_put hdrained h.views
  · exact hview.fanOut hdeltas hnew

theorem Inv.join (hv : s.partition.view id = some v)
    (hok : covers (c.scopes sub) (s.homes id))
    (hp : Dispatcher.step c.engine s.partition (.join sub id) = some p) :
    Inv c ⟨p, (snapshot v).map (fun r => (sub, r.aggId, r.version)) ++ s.received, s.homes⟩ := by
  have hview := h.view hv
  refine ⟨?_, isolated_append (fun i aggId version hnew => ?_) h.received⟩
  · obtain ⟨v', hv', -, rfl⟩ := step_join hp
    obtain rfl := some.inj (hv.symm.trans hv')
    refine views_put ⟨hview.window, hview.page, fun i hi => ?_⟩ h.views
    rcases mem_cons.mp hi with rfl | hold
    · exact hok
    · exact hview.subs i (mem_of_mem_erase hold)
  · obtain ⟨r, hr, heq⟩ := mem_map.mp hnew
    obtain ⟨rfl, rfl, rfl⟩ : sub = i ∧ r.aggId = aggId ∧ r.version = version := by
      simpa using heq
    exact (hview.snapshot hr).of_covers hok

theorem Inv.dispatch {answers : String → Option (List Row)}
    (hadmits : ∀ entry ∈ s.partition.views, entry.2.ready →
      admits c (s.homes entry.1) entry.2 ch)
    (hanswers : ∀ entry ∈ s.partition.views, entry.2.ready → ∀ more,
      answers entry.1 = some more → ∀ r ∈ more, Fits c (s.homes entry.1) r.aggId r.version) :
    Inv c ⟨s.partition.dispatch ch answers, sent s.partition ch answers ++ s.received,
      s.homes⟩ := by
  refine ⟨fun e he => ?_, isolated_append (fun sub aggId version hnew => ?_) h.received⟩
  · obtain ⟨entry, hentry, rfl⟩ := mem_map.mp he
    have hview := h.views entry hentry
    simp only [Partition.next, applyChange]
    split_ifs with _ hready
    · exact (hview.applyReady _ (hadmits entry hentry hready)
        (hanswers entry hentry hready)).1
    · exact ⟨hview.window, hview.page, hview.subs⟩
    · exact hview
  · obtain ⟨entry, hentry, hframe⟩ := mem_flatMap.mp hnew
    have hview := h.views entry hentry
    split_ifs at hframe
    · refine hview.fanOut (fun d hd hrow => ?_) hframe
      simp only [applyChange] at hd
      split_ifs at hd with hready
      · exact hview.deltas (hadmits entry hentry hready) hd hrow
      · simp at hd
    · simp at hframe

theorem inv_step {a : Action} (hok : ownScope c s a) (hstep : step c s a = some t) : Inv c t := by
  cases a with
  | create creator q =>
    obtain ⟨p, hp, rfl⟩ := map_eq_some_iff.mp hstep
    exact h.create hp
  | activate id page ids refills =>
    obtain ⟨v, hv, hstep⟩ := bind_eq_some_iff.mp hstep
    split_ifs at hstep with hreads
    obtain ⟨hpage, hrefills⟩ := Bool.and_eq_true_iff.mp hreads
    obtain ⟨p, hp, rfl⟩ := map_eq_some_iff.mp hstep
    rw [ownScope, hv, all_some, Bool.and_eq_true, Bool.or_eq_true] at hok
    refine h.activate hv hpage (List.all_eq_true.mp hok.1) (fun answer hanswer => ?_)
      (List.all_eq_true.mp hrefills) hp
    exact Bool.or_eq_true_iff.mpr
      (hok.2.imp_left fun hall => List.all_eq_true.mp hall answer hanswer)
  | failSeed id =>
    obtain ⟨p, hp, rfl⟩ := map_eq_some_iff.mp hstep
    exact h.failSeed hp
  | join sub id =>
    obtain ⟨v, hv, hstep⟩ := bind_eq_some_iff.mp hstep
    obtain ⟨p, hp, rfl⟩ := map_eq_some_iff.mp hstep
    exact h.join hv hok hp
  | dispatch i refills =>
    obtain ⟨ch, hch, hstep⟩ := bind_eq_some_iff.mp hstep
    split_ifs at hstep with hreads
    cases hstep
    have hready : ∀ entry ∈ s.partition.views, entry.2.ready →
        admits c (s.homes entry.1) entry.2 ch ∧
          ((refills entry.1).isNone || covers (s.homes entry.1) c.feed) := by
      intro entry hentry hready
      rw [ownScope, hch, all_some] at hok
      simpa [hready] using List.all_eq_true.mp hok entry hentry
    refine h.dispatch (fun entry hentry hr => (hready entry hentry hr).1) ?_
    intro entry hentry hr more hmore
    obtain ⟨v, -, hmore⟩ := bind_eq_some_iff.mp hmore
    exact fits_refill (hready entry hentry hr).2 (List.all_eq_true.mp hreads entry hentry) hmore
  | detach sub =>
    obtain ⟨p, hp, rfl⟩ := map_eq_some_iff.mp hstep
    exact h.detach hp

end

/-- In every run in which views keep to the scope of their creator, no subscriber receives a row of
another scope. -/
theorem isolated_of_ownScope (c : Tenant) (trace : List Action) {s : State}
    (hok : Along (step c) (fun s a => ownScope c s a = true) start trace)
    (hrun : run (step c) start trace = some s) : Isolated c s :=
  (run_invariant (fun _ _ _ h => inv_step h) inv_start hok hrun).received

def rankRow (aggId : String) (version : Int) : Change :=
  ⟨aggId, version, false, some [("rank", .num 1)], "", "", 0⟩

def northRows : Tenant :=
  { twoScopes with changes := [rankRow "b" 1, rankRow "a" 1, rankRow "b" 2] }

/-- The row of the south is not dispatched; the snapshot, read under the north, is without it. -/
theorem isolated_northRows : ∃ s, run (step northRows) start
        [.create (some "north") byRank, .activate "view" [0] [] [], .join 1 "view",
          .join 2 "view", .dispatch 2 fun _ => none] = some s ∧
      s.received = [(2, "b", 2), (1, "b", 2), (2, "b", 1), (1, "b", 1)] ∧
      Isolated northRows s := by
  refine ⟨_, rfl, by decide, ?_⟩
  exact isolated_of_ownScope _
    [.create (some "north") byRank, .activate "view" [0] [] [], .join 1 "view",
      .join 2 "view", .dispatch 2 fun _ => none] (by decide) rfl

end Fabriq.Live.ScopeIsolation
