import Fabriq.Lib.KeyedLog
import Fabriq.Live.Dispatcher
import Fabriq.Live.WindowPrefix

namespace Fabriq.Live.Reconcile

open Core.Value Lib.KeyedLog Lib.Machine Live.CandidateIndex Live.Dispatcher List Option
open Live.MaintainedWindow Live.Order Live.Types
open Live.WindowPrefix (Admissible Exact Table noGap)

structure Watch where
  engine : Engine
  q : LiveQuery

def Watch.key (c : Watch) : String :=
  c.engine.shapeKey c.q

def Watch.pred (c : Watch) : Vals → Bool :=
  compile c.engine.toLower c.q.conds

/-- The visible rows disagree with the first `n` rows of the truth by id or version. -/
def windowDrift (w : Window) (truth : List Row) (n : Nat) : Bool :=
  let expected := truth.take n
  decide (w.visible.length ≠ expected.length) ||
    (w.visible.zip expected).any fun pair =>
      decide (pair.1.aggId ≠ pair.2.aggId) || decide (pair.1.version ≠ pair.2.version)

/-- The window, the version marks and the reverse index start over from the page. -/
def reseed (cushion : Nat) (v : View) (column : Column) (page : List Row) : View × Column :=
  let held := fun a => page.any fun r => r.aggId == a
  ({ v with
      win := some (newWindow v.q v.pred page
        (decide (page.length < v.q.limit + cushion)) cushion)
      seen := seedSeen (fun _ => none) page
      members := held },
    fun a => held a || (column a && !v.members a))

def Watch.drifts (c : Watch) (p : Partition) (page : List Row) : Bool :=
  (p.view c.key).any fun v => v.win.any fun w => windowDrift w page c.q.limit

/-- What `Reconcile` runs on the dispatch goroutine, for one view. -/
def Watch.repair (c : Watch) (p : Partition) (page : List Row) : Partition :=
  match p.view c.key with
  | some v =>
    if c.drifts p page then
      p.put c.key (reseed c.engine.cushion v (p.column c.key) page)
    else p
  | none => p

variable {kind : String → SortKind} {c : Watch}

/-- `LiveStore.Snapshot`, which does not read the anchor of the query; a limit of zero is no
limit. -/
def Watch.page (c : Watch) (t : Table kind c.q.sort) : List Row :=
  let rows := t.result { c.q with cursor := none } c.pred
  if c.q.limit + c.engine.cushion = 0 then rows else rows.take (c.q.limit + c.engine.cushion)

def put (t : Table kind c.q.sort) (ch : Change) : Table kind c.q.sort :=
  if h : Admissible kind c.q.sort ch then t.commit ch h else t

/-- The committed rows and changes, how many changes are dispatched, and the partition.
`top` is the last version of each aggregate. -/
structure State (kind : String → SortKind) (c : Watch) where
  current : Table kind c.q.sort
  top : String → Int
  log : List Change
  delivered : Nat
  partition : Partition
  /-- The snapshots that are read and not compared yet, each with the number of changes
  committed before it. -/
  reads : List (Nat × Table kind c.q.sort)
  /-- What the view was told: the rows of its snapshot with the changes it took since. -/
  known : Table kind c.q.sort

def State.commit (s : State kind c) (ch : Change) (h : Admissible kind c.q.sort ch) :
    State kind c :=
  { s with
    current := s.current.commit ch h
    top := fun a => if a = ch.aggId then ch.version else s.top a
    log := s.log ++ [ch] }

def State.refill (s : State kind c) (ch : Change) : Option (List Row) :=
  (s.partition.view c.key).bind fun v => v.win.bind fun w =>
    s.current.refiller c.pred (edited w ch).q (edited w ch).refillAfter
      ((edited w ch).cap - (edited w ch).rows.length)

def State.dispatch (s : State kind c) (ch : Change) (answered : Bool) : State kind c :=
  { s with
    delivered := s.delivered + 1
    partition := s.partition.dispatch ch fun _ => if answered then s.refill ch else none
    known := if (s.partition.view c.key).any fun v => v.isStale ch then s.known
      else put s.known ch }

def State.compare (s : State kind c) (i : Nat) (t : Table kind c.q.sort) : State kind c :=
  { s with
    partition := c.repair s.partition (c.page t)
    reads := s.reads.eraseIdx i
    known := if c.drifts s.partition (c.page t) then t else s.known }

inductive Action
  | commit (ch : Change)
  | dispatch (answered : Bool)
  | readOracle
  | compare (i : Nat)

def step (s : State kind c) : Action → Option (State kind c)
  | .commit ch =>
    if h : Admissible kind c.q.sort ch ∧ s.top ch.aggId < ch.version then
      some (s.commit ch h.1)
    else none
  | .dispatch answered => (s.log[s.delivered]?).map fun ch => s.dispatch ch answered
  | .readOracle => some { s with reads := (s.log.length, s.current) :: s.reads }
  | .compare i => (s.reads[i]?).map fun read => s.compare i read.2

/-- Once every change is dispatched, the visible rows are the first ones of the current
result. -/
def Correct (s : State kind c) : Prop :=
  s.delivered = s.log.length → ∀ v w, s.partition.view c.key = some v → v.win = some w →
    w.visible = (s.current.result c.q c.pred).take c.q.limit

def ranks : Watch :=
  ⟨⟨1, fun _ => "view", id⟩, byRank⟩

def oneRow : Table (fun _ => .num) ranks.q.sort where
  rows := [rankRow "a" 1]
  nodup := by decide
  keyed := by
    intro r hr
    obtain rfl := List.mem_singleton.mp hr
    exact ⟨rfl, rfl⟩

def watching (t : Table kind c.q.sort) (top : String → Int) : State kind c where
  current := t
  top := top
  log := []
  delivered := 0
  partition :=
    let seeded := seedView c.engine.cushion (newView c.q c.pred) (fun _ => false) (c.page t) []
    { Partition.empty.put c.key seeded with
      index := PredicateIndex.empty.add c.key c.q.conds }
  reads := []
  known := t

def shown (s : State kind c) : List String × List String × Nat × Nat :=
  ((s.partition.view c.key).toList.flatMap fun v => v.win.toList.flatMap fun w =>
      w.visible.map Row.aggId,
    ((s.current.result c.q c.pred).take c.q.limit).map Row.aggId, s.delivered, s.log.length)

/-- A snapshot is taken for the truth only of a query without an anchor, and before a later change
is dispatched; a dispatched change that the view takes is not appended over a gap, reaches the view
if it holds the row, and leaves the window long enough or is the last one committed when the window
is topped up. -/
def keepsUp (s : State kind c) : Action → Bool
  | .dispatch answered =>
    match s.log[s.delivered]?, s.partition.view c.key with
    | some ch, some v => v.isStale ch || v.win.all fun w =>
      noGap ⟨s.known, w⟩ ch &&
        if s.partition.selects ch c.key then
          !(edited w ch).wantsRefill ||
            (answered && decide (s.delivered + 1 = s.log.length))
        else !w.contains ch.aggId
    | _, _ => true
  | .compare i =>
    match s.reads[i]? with
    | some (position, t) =>
      !c.drifts s.partition (c.page t) ||
        (c.q.cursor.isNone && decide (s.delivered ≤ position))
    | none => true
  | _ => true

def SameAt (t t' : Table kind c.q.sort) (a : String) : Prop :=
  ∀ x : Row, x.aggId = a → (x ∈ t.rows ↔ x ∈ t'.rows)

/-- The last change of an aggregate is in the queue, and above every version taken. -/
def Awaits (queue : List Change) (a : String) (taken : Int → Prop) : Prop :=
  ∃ ch, latest Change.aggId queue a = some ch ∧ ∀ n, taken n → n < ch.version

/-- Versions only grow, and the table has the last change of every aggregate. -/
structure Versioned (s : State kind c) : Prop where
  delivered_le : s.delivered ≤ s.log.length
  ordered : Ordered Change.aggId Change.version s.log
  logged : ∀ ch ∈ s.log, Admissible kind c.q.sort ch ∧ ch.version ≤ s.top ch.aggId
  rows : ∀ x ∈ s.current.rows, x.version ≤ s.top x.aggId
  written : ∀ ch, latest Change.aggId s.log ch.aggId = some ch → ∀ x, x.aggId = ch.aggId →
    (x ∈ s.current.rows ↔ ch.deleted = false ∧ x = rowFromChange c.q.sort ch)

/-- The view runs the query, and its buffer is exact for what it was told and long
enough for the visible rows. -/
structure Serves (s : State kind c) (v : View) (w : Window) : Prop where
  view : s.partition.view c.key = some v
  window : v.win = some w
  maintained : c.q.mode = .maintained
  ready : v.ready = true
  query : v.q = c.q
  filter : v.pred = c.pred
  size : w.n = c.q.limit
  exact : Exact s.known c.pred w
  long : w.complete = true ∨ w.n ≤ w.rows.length
  marks : ∀ a n, v.seen a = some n → n ≤ s.top a

/-- A view that is correct, with a buffer and version marks that are so, too. -/
structure Settled (s : State kind c) : Prop where
  indexed : ∃ ix : PredicateIndex, s.partition.index = ix.add c.key c.q.conds
  anchored : ∀ cur ∈ c.q.cursor, Keyed kind c.q.sort cur
  versioned : Versioned s
  reads : s.reads = []
  known : s.known = s.current
  served : ∃ v w, Serves s v w

structure ReadOk (s : State kind c) (position : Nat) (t : Table kind c.q.sort) : Prop where
  position_le : position ≤ s.log.length
  rows : ∀ x ∈ t.rows, x.version ≤ s.top x.aggId
  current : ∀ a, SameAt t s.current a ∨
    Awaits (s.log.drop position) a fun n => ∃ x ∈ t.rows, x.aggId = a ∧ x.version = n

/-- Of every aggregate the view was told the current row, or the change that brings it
is still to come and will not count as stale. -/
def Told (s : State kind c) : Prop :=
  ∃ v w, Serves s v w ∧ ∀ a, SameAt s.known s.current a ∨
    Awaits (s.log.drop s.delivered) a fun n => v.seen a = some n

structure Inv (s : State kind c) : Prop where
  indexed : ∃ ix : PredicateIndex, s.partition.index = ix.add c.key c.q.conds
  anchored : ∀ cur ∈ c.q.cursor, Keyed kind c.q.sort cur
  versioned : Versioned s
  reads : ∀ position t, (position, t) ∈ s.reads → ReadOk s position t
  served : Told s

variable {s : State kind c}

theorem Settled.inv (h : Settled s) : Inv s where
  indexed := h.indexed
  anchored := h.anchored
  versioned := h.versioned
  reads position t hmem := by simp [h.reads] at hmem
  served := by
    obtain ⟨v, w, hserves⟩ := h.served
    refine ⟨v, w, hserves, fun a => .inl ?_⟩
    rw [h.known]
    exact fun x _ => Iff.rfl

theorem not_awaits_nil {a : String} {taken : Int → Prop} : ¬ Awaits [] a taken := by
  rintro ⟨ch, hlast, -⟩
  simp [latest, history] at hlast

theorem visible_of_exact {t : Table kind c.q.sort} {w : Window} (h : Exact t c.pred w)
    (hlong : w.complete ∨ w.n ≤ w.rows.length) : w.visible = (t.result c.q c.pred).take w.n := by
  have hlinear := linearCmpOn_compareCursors kind c.q.sort
  have hsorted := t.sorted_filter (WindowPrefix.inResult c.q c.pred)
  rcases hlong with hcompl | hle
  · have hpre := h.isPrefix
    rw [hcompl] at hpre
    rw [Window.visible, hpre.eq_of_complete hlinear hsorted
      (fun x => WindowPrefix.mem_result) fun x hx => hx.keyed]
    rfl
  · have hpre := h.isPrefix.isPrefix hlinear hsorted
      (fun x => WindowPrefix.mem_result) fun x hx => hx.keyed
    obtain ⟨rest, hrest⟩ := hpre
    rw [Window.visible, Table.result, ← hrest, take_append_of_le_length hle]

theorem Inv.correct (h : Inv s) : Correct s := by
  intro hall v w hview hwin
  obtain ⟨v', w', hserves, hagrees⟩ := h.served
  obtain rfl := some.inj (hserves.view.symm.trans hview)
  obtain rfl := some.inj (hserves.window.symm.trans hwin)
  have hsame : ∀ x, x ∈ s.known.rows ↔ x ∈ s.current.rows := by
    intro x
    refine (hagrees x.aggId).resolve_right ?_ x rfl
    rw [hall, drop_length]
    exact not_awaits_nil
  rw [visible_of_exact (hserves.exact.congr hsame) hserves.long, hserves.size]

end Fabriq.Live.Reconcile
