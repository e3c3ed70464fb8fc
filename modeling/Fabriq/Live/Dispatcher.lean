import Fabriq.Lib.Assoc
import Fabriq.Live.CandidateIndex
import Fabriq.Live.MaintainedWindow

namespace Fabriq.Live.Dispatcher

open Core.Value Lib Live.CandidateIndex Live.MaintainedWindow Live.Match Live.Order Live.Types
open List Option Lib.Assoc

/-- The shared matcher and window of one query shape.  `pending` holds the changes before the
snapshot, `seen` the version high-water of each aggregate. -/
structure View where
  q : LiveQuery
  pred : Vals → Bool
  win : Option Window
  streamMembers : String → Bool
  streamVals : String → Vals
  initialPage : List Row
  seen : String → Option Int
  members : String → Bool
  ready : Bool
  pending : List Change
  subs : List Nat

def newView (q : LiveQuery) (pred : Vals → Bool) : View where
  q := q
  pred := pred
  win := none
  streamMembers := fun _ => false
  streamVals := fun _ => none
  initialPage := []
  seen := fun _ => none
  members := fun _ => false
  ready := false
  pending := []
  subs := []

def View.contains (v : View) (aggId : String) : Bool :=
  match v.q.mode with
  | .streamed => v.streamMembers aggId
  | .maintained => v.win.any fun w => w.contains aggId

/-- A view's row of the reverse index: the aggregates whose `memberOf` names it. -/
abbrev Column := String → Bool

def setMember (v : View) (column : Column) (aggId : String) (member : Bool) : View × Column :=
  ({ v with members := fun a => if a = aggId then member else v.members a },
    fun a => if a = aggId then member else column a)

def View.rememberVals (v : View) (ch : Change) : View :=
  if v.q.fieldDeltas then
    { v with streamVals := fun a => if a = ch.aggId then ch.vals else v.streamVals a }
  else v

def View.matchesChange (v : View) (ch : Change) : Bool :=
  !ch.deleted && v.pred ch.vals

def View.applyStreamed (v : View) (ch : Change) : View × List LiveDelta :=
  let cursor := sortKeyOf ch.vals v.q.sort ch.aggId
  match v.matchesChange ch, v.streamMembers ch.aggId with
  | true, false =>
    ({ v with streamMembers := fun a => if a = ch.aggId then true else v.streamMembers a
      }.rememberVals ch,
      [{ op := .isMatch, aggId := ch.aggId, version := ch.version, row := ch.raw,
         cursor := cursor }])
  | false, true =>
    ({ v with
        streamMembers := fun a => if a = ch.aggId then false else v.streamMembers a
        streamVals := fun a => if a = ch.aggId then none else v.streamVals a },
      [{ op := .unmatch, aggId := ch.aggId, version := ch.version }])
  | true, true =>
    (v.rememberVals ch,
      [{ op := .update, aggId := ch.aggId, version := ch.version, row := ch.raw,
         cursor := cursor,
         changes := if v.q.fieldDeltas then diffVals (v.streamVals ch.aggId) ch.vals
           else none }])
  | false, false => (v, [])

def View.absorb (refill : Refiller) (v : View) (ch : Change) : View × List LiveDelta :=
  match v.q.mode, v.win with
  | .streamed, _ => v.applyStreamed ch
  | .maintained, some w =>
    ({ v with win := some (w.apply refill ch).1 }, (w.apply refill ch).2)
  | .maintained, none => (v, [])

def View.isStale (v : View) (ch : Change) : Bool :=
  (v.seen ch.aggId).any fun seen => decide (ch.version ≤ seen)

def View.markSeen (v : View) (ch : Change) : View :=
  { v with seen := fun a => if a = ch.aggId then some ch.version else v.seen a }

def applyReady (refill : Refiller) (v : View) (column : Column) (ch : Change) :
    (View × Column) × List LiveDelta :=
  if v.isStale ch then ((v, column), [])
  else
    let absorbed := (v.markSeen ch).absorb refill ch
    let after := absorbed.1.contains ch.aggId
    ((if after = v.contains ch.aggId then (absorbed.1, column)
      else setMember absorbed.1 column ch.aggId after),
      absorbed.2.map fun d => { d with streamId := ch.streamId, time := ch.time })

/-- A view that is not ready buffers the change. -/
def applyChange (refill : Refiller) (v : View) (column : Column) (ch : Change) :
    (View × Column) × List LiveDelta :=
  if v.ready then applyReady refill v column ch
  else (({ v with pending := v.pending ++ [ch] }, column), [])

/-- Replay the buffered changes; `refills` are the refiller's answers, one for each. -/
def drain : List (Option (List Row)) → View → Column → List Change → View × Column
  | _, v, column, [] => (v, column)
  | refills, v, column, ch :: rest =>
    let next := (applyReady (fun _ _ _ => refills.headD none) v column ch).1
    drain refills.tail next.1 next.2 rest

def drainAll (ok : Option (List Row) → View → Change → Bool) :
    List (Option (List Row)) → View → Column → List Change → Bool
  | _, _, _, [] => true
  | refills, v, column, ch :: rest =>
    let next := (applyReady (fun _ _ _ => refills.headD none) v column ch).1
    ok (refills.headD none) v ch && drainAll ok refills.tail next.1 next.2 rest

def seedSeen (seen : String → Option Int) (seed : List Row) : String → Option Int :=
  seed.foldl (fun seen r => fun a =>
    if a = r.aggId ∧ (seen a).getD 0 < r.version then some r.version else seen a) seen

/-- `seedView` on the dispatch goroutine, up to the replay: the window or member set of the
snapshot, the version high-water of its rows and the reverse index. -/
def seedView (cushion : Nat) (v : View) (column : Column) (page : List Row)
    (ids : List String) : View × Column :=
  match v.q.mode with
  | .streamed =>
    let held := fun a => ids.contains a || v.streamMembers a
    ({ v with
        streamMembers := held
        seen := seedSeen v.seen page
        initialPage := page
        members := fun a => held a || v.members a
        ready := true
        pending := [] },
      fun a => held a || column a)
  | .maintained =>
    let held := fun a => page.any fun r => r.aggId == a
    ({ v with
        win := some (newWindow v.q v.pred page
          (decide (page.length < v.q.limit + cushion)) cushion)
        seen := seedSeen v.seen page
        members := fun a => held a || v.members a
        ready := true
        pending := [] },
      fun a => held a || column a)

def activate (cushion : Nat) (refills : List (Option (List Row))) (v : View)
    (column : Column) (page : List Row) (ids : List String) : View × Column :=
  let seeded := seedView cushion v column page ids
  drain refills seeded.1 seeded.2 v.pending

/-- What the engine of a partition is configured with; `shapeKey` identifies query
shapes and `toLower` is `strings.ToLower`. -/
structure Engine where
  cushion : Nat
  shapeKey : LiveQuery → String
  toLower : String → String

structure Partition where
  index : PredicateIndex
  views : List (String × View)
  memberOf : String → String → Bool
  subView : Nat → Option String

def Partition.empty : Partition where
  index := .empty
  views := []
  memberOf := fun _ _ => false
  subView := fun _ => none

/-- The compiled filter.  An evaluation that panics ends the process; it counts as no
match here. -/
def compile (toLower : String → String) (conds : Fabriq.Query.Filter.Where) : Vals → Bool :=
  fun row => (eval toLower row conds).getD false

def Partition.view (p : Partition) (id : String) : Option View :=
  p.views.lookup id

def Partition.column (p : Partition) (id : String) : Column :=
  fun a => p.memberOf a id

def Partition.put (p : Partition) (id : String) (entry : View × Column) : Partition :=
  { p with
    views := Assoc.put p.views id entry.1
    memberOf := fun a i => if i = id then entry.2 a else p.memberOf a i }

/-- The views a change is handed to: the candidates of its row and the views that hold
its aggregate. -/
def Partition.selects (p : Partition) (ch : Change) (id : String) : Bool :=
  p.index.candidates ch.vals id || p.memberOf ch.aggId id

def Partition.next (p : Partition) (ch : Change) (refills : String → Option (List Row))
    (id : String) (v : View) : View × Column :=
  if p.selects ch id then
    (applyChange (fun _ _ _ => refills id) v (p.column id) ch).1
  else (v, p.column id)

-- Each view changes its own state and its own row of the reverse index only, so the
-- order in which `dispatch` visits the selected views does not matter.
def Partition.dispatch (p : Partition) (ch : Change)
    (refills : String → Option (List Row)) : Partition :=
  { p with
    views := mapValues p.views fun id v => (p.next ch refills id v).1
    memberOf := fun a id =>
      match p.view id with
      | some v => (p.next ch refills id v).2 a
      | none => p.memberOf a id }

def Partition.drop (p : Partition) (id : String) (v : View) : Partition :=
  { p with
    index := p.index.remove id
    views := Assoc.drop p.views id
    memberOf := fun a i => if i = id ∧ v.members a then false else p.memberOf a i }

inductive Action
  /-- The first control step of `attach`: join the view of the shape or create it. -/
  | create (q : LiveQuery)
  | activate (id : String) (page : List Row) (ids : List String)
      (refills : List (Option (List Row)))
  | failSeed (id : String)
  /-- The last control step of `attach`. -/
  | join (sub : Nat) (id : String)
  | dispatch (ch : Change) (refills : String → Option (List Row))
  | detach (sub : Nat)

/-- One function run on the dispatch goroutine.  `Reanchor` is a `detach` and the steps
of an `attach`. -/
def step (e : Engine) (p : Partition) : Action → Option Partition
  | .create q =>
    match p.view (e.shapeKey q) with
    | some _ => some p
    | none =>
      if checkOps q.conds then
        some { p.put (e.shapeKey q)
                (newView q (compile e.toLower q.conds), p.column (e.shapeKey q)) with
              index := p.index.add (e.shapeKey q) q.conds }
      else some p
  | .activate id page ids refills =>
    match p.view id with
    | some v =>
      if v.ready then none
      else some (p.put id (activate e.cushion refills v (p.column id) page ids))
    | none => none
  | .failSeed id =>
    match p.view id with
    | some v =>
      if v.ready then none
      else if v.subs = [] then
        some { p with
          index := p.index.remove id
          views := drop p.views id }
      else some p
    | none => none
  | .join sub id =>
    match p.view id with
    | some v =>
      if v.ready then
        some { p.put id ({ v with subs := sub :: v.subs.erase sub }, p.column id) with
          subView := fun s => if s = sub then some id else p.subView s }
      else none
    | none => none
  | .dispatch ch refills => some (p.dispatch ch refills)
  | .detach sub =>
    match p.subView sub with
    | none => some p
    | some id =>
      let q := { p with subView := fun s => if s = sub then none else p.subView s }
      match p.view id with
      | none => some q
      | some v =>
        let left := { v with subs := v.subs.erase sub }
        if left.subs = [] then some (q.drop id left)
        else some (q.put id (left, q.column id))

variable {v : View} {column : Column} {ch : Change} {refill : Refiller}

theorem streamMembers_applyStreamed (a : String) : (v.applyStreamed ch).1.streamMembers a =
      if a = ch.aggId then v.matchesChange ch else v.streamMembers a := by
  unfold View.applyStreamed View.rememberVals
  split <;> split_ifs <;> simp_all

def View.frame (v : View) : View :=
  { v with win := none, streamMembers := fun _ => false, streamVals := fun _ => none }

theorem frame_rememberVals : (v.rememberVals ch).frame = v.frame := by
  unfold View.rememberVals
  split_ifs <;> rfl

theorem frame_absorb : (v.absorb refill ch).1.frame = v.frame := by
  unfold View.absorb
  split
  · unfold View.applyStreamed
    split
    · exact frame_rememberVals
    · rfl
    · exact frame_rememberVals
    · rfl
  · rfl
  · rfl

theorem q_absorb : (v.absorb refill ch).1.q = v.q := by
  have h : (v.absorb refill ch).1.frame.q = v.frame.q := by rw [frame_absorb]
  exact h

theorem members_absorb : (v.absorb refill ch).1.members = v.members := by
  have h : (v.absorb refill ch).1.frame.members = v.frame.members := by rw [frame_absorb]
  exact h

theorem pred_absorb : (v.absorb refill ch).1.pred = v.pred := by
  have h : (v.absorb refill ch).1.frame.pred = v.frame.pred := by rw [frame_absorb]
  exact h

theorem seen_absorb : (v.absorb refill ch).1.seen = v.seen := by
  have h : (v.absorb refill ch).1.frame.seen = v.frame.seen := by rw [frame_absorb]
  exact h

theorem ready_absorb : (v.absorb refill ch).1.ready = v.ready := by
  have h : (v.absorb refill ch).1.frame.ready = v.frame.ready := by rw [frame_absorb]
  exact h

theorem applyReady_of_stale (h : v.isStale ch) :
    (applyReady refill v column ch).1 = (v, column) := by
  rw [applyReady, if_pos h]

theorem exists_applyReady (refill : Refiller) (column : Column) (h : v.isStale ch = false) :
    ∃ members, (applyReady refill v column ch).1.1 =
      { ((v.markSeen ch).absorb refill ch).1 with members := members } := by
  rw [applyReady, if_neg (by simp [h])]
  simp only
  split_ifs
  · exact ⟨_, rfl⟩
  · exact ⟨_, rfl⟩

theorem seen_applyReady (a : String) : (applyReady refill v column ch).1.1.seen a =
      if a = ch.aggId ∧ v.isStale ch = false then some ch.version else v.seen a := by
  cases hstale : v.isStale ch with
  | true => simp [applyReady_of_stale hstale]
  | false =>
    obtain ⟨members, heq⟩ := exists_applyReady refill column hstale
    simp [heq, seen_absorb, View.markSeen]

theorem le_seen_applyReady (refill : Refiller) (column : Column) {next : Change}
    (h : ch = next ∨ ∃ n, v.seen ch.aggId = some n ∧ ch.version ≤ n) :
    ∃ n, (applyReady refill v column next).1.1.seen ch.aggId = some n ∧ ch.version ≤ n := by
  rw [seen_applyReady]
  cases hstale : v.isStale next with
  | true =>
    rw [if_neg (by simp)]
    rcases h with rfl | h
    · simpa [View.isStale, Option.any_eq_true] using hstale
    · exact h
  | false =>
    split_ifs with hself
    · refine ⟨next.version, rfl, ?_⟩
      rcases h with rfl | ⟨n, hn, hle⟩
      · exact le_rfl
      · rw [hself.1] at hn
        simp only [View.isStale, hn, any_some, decide_eq_false_iff_not] at hstale
        omega
    · rcases h with rfl | h
      · simp at hself
      · exact h

theorem seedSeen_eq_some {seen : String → Option Int} {page : List Row} {a : String} {n : Int}
    (h : seedSeen seen page a = some n) :
    seen a = some n ∨ ∃ r ∈ page, r.aggId = a ∧ r.version = n := by
  induction page generalizing seen with
  | nil => exact .inl h
  | cons r rest ih =>
    rcases ih h with h | ⟨x, hx, hid, hversion⟩
    · simp only at h
      split_ifs at h with hself
      · exact .inr ⟨r, mem_cons_self, hself.1.symm, some.inj h⟩
      · exact .inl h
    · exact .inr ⟨x, mem_cons_of_mem _ hx, hid, hversion⟩

theorem drain_invariant {ok : Option (List Row) → View → Change → Bool}
    {P : View → Column → Prop} {pending : List Change} {refills : List (Option (List Row))}
    (hstep : ∀ answer v column ch, ch ∈ pending → ok answer v ch → P v column →
      P (applyReady (fun _ _ _ => answer) v column ch).1.1
        (applyReady (fun _ _ _ => answer) v column ch).1.2)
    (hok : drainAll ok refills v column pending) (hP : P v column) :
    P (drain refills v column pending).1 (drain refills v column pending).2 := by
  induction pending generalizing refills v column with
  | nil => exact hP
  | cons ch rest ih =>
    obtain ⟨hfirst, hrest⟩ := Bool.and_eq_true_iff.mp hok
    refine ih (fun answer v column ch hch => ?_) hrest ?_
    · exact hstep answer v column ch (mem_cons_of_mem _ hch)
    · exact hstep _ v column ch mem_cons_self hfirst hP

variable {p : Partition} {id i : String} {refills : String → Option (List Row)}
  {entry : View × Column}

theorem view_dispatch :
    (p.dispatch ch refills).view i = (p.view i).map fun v => (p.next ch refills i v).1 := by
  rw [Partition.view, Partition.dispatch, lookup_mapValues]
  rfl

theorem column_dispatch (hv : p.view i = some v) :
    (p.dispatch ch refills).column i = (p.next ch refills i v).2 := by
  funext a
  simp [Partition.column, Partition.dispatch, hv]

theorem view_put : (p.put id entry).view i = if i = id then some entry.1 else p.view i := by
  rw [Partition.view, Partition.put, lookup_put]
  rfl

theorem column_put : (p.put id entry).column i = if i = id then entry.2 else p.column i := by
  funext a
  split_ifs with hi <;> simp [Partition.column, Partition.put, hi]

theorem selects_of_compile {toLower : String → String} {conds : Fabriq.Query.Filter.Where}
    {ix : PredicateIndex} (hindex : p.index = ix.add id conds)
    (hmatch : compile toLower conds ch.vals) : p.selects ch id := by
  have heval : eval toLower ch.vals conds = some true := by
    rw [compile] at hmatch
    cases heval : eval toLower ch.vals conds with
    | none => simp [heval] at hmatch
    | some hit => simpa [heval] using hmatch
  rw [Partition.selects, hindex, candidates_add_of_eval ix id heval, Bool.true_or]

variable {e : Engine} {q : Partition} {sub : Nat}

theorem step_create {query : LiveQuery} (h : step e p (.create query) = some q) :
    q = p ∨ p.view (e.shapeKey query) = none ∧
      q = { p.put (e.shapeKey query) (newView query (compile e.toLower query.conds),
              p.column (e.shapeKey query)) with
            index := p.index.add (e.shapeKey query) query.conds } := by
  simp only [step] at h
  split at h
  · exact .inl (some.inj h).symm
  · rename_i hnone
    split_ifs at h
    · exact .inr ⟨hnone, (some.inj h).symm⟩
    · exact .inl (some.inj h).symm

theorem step_activate {page : List Row} {ids : List String}
    {refills : List (Option (List Row))} (h : step e p (.activate id page ids refills) = some q) :
    ∃ v, p.view id = some v ∧ v.ready = false ∧
      q = p.put id (activate e.cushion refills v (p.column id) page ids) := by
  simp only [step] at h
  split at h
  · rename_i v hv
    split_ifs at h with hready
    exact ⟨v, hv, by simpa using hready, (some.inj h).symm⟩
  · simp at h

theorem step_failSeed (h : step e p (.failSeed id) = some q) :
    q = p ∨ (∃ v, p.view id = some v ∧ v.ready = false) ∧
      q = { p with index := p.index.remove id, views := drop p.views id } := by
  simp only [step] at h
  split at h
  · rename_i v hv
    split_ifs at h with hready
    · exact .inr ⟨⟨v, hv, by simpa using hready⟩, (some.inj h).symm⟩
    · exact .inl (some.inj h).symm
  · simp at h

theorem step_join (h : step e p (.join sub id) = some q) : ∃ v, p.view id = some v ∧ v.ready ∧
      q = { p.put id ({ v with subs := sub :: v.subs.erase sub }, p.column id) with
            subView := fun s => if s = sub then some id else p.subView s } := by
  simp only [step] at h
  split at h
  · rename_i v hv
    split_ifs at h with hready
    exact ⟨v, hv, hready, (some.inj h).symm⟩
  · simp at h

theorem step_detach (h : step e p (.detach sub) = some q) :
    q = p ∨ ∃ subView, q = { p with subView := subView } ∨ ∃ id v, p.view id = some v ∧
      (q = { p with subView := subView }.drop id { v with subs := v.subs.erase sub } ∨
        q = { p with subView := subView }.put id
          ({ v with subs := v.subs.erase sub }, p.column id)) := by
  simp only [step] at h
  split at h
  · exact .inl (some.inj h).symm
  · rename_i id hid
    refine Or.inr ⟨fun s => if s = sub then none else p.subView s, ?_⟩
    split at h
    · exact .inl (some.inj h).symm
    · rename_i v hv
      refine Or.inr ⟨id, v, hv, ?_⟩
      split_ifs at h
      · exact .inl (some.inj h).symm
      · exact .inr (some.inj h).symm

end Fabriq.Live.Dispatcher
