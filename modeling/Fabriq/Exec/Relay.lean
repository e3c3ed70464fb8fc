import Mathlib.Data.List.Sort
import Fabriq.Exec.Outbox
import Fabriq.Exec.OutboxVersions
import Fabriq.Lib.Machine
import Fabriq.Lib.Precedence

namespace Fabriq.Exec.Relay

open Core.Schema Exec.CommandStore Exec.Outbox Exec.OutboxVersions Lib Lib.KeyedLog Lib.Machine
open List Option
open Lib.Precedence

/-- What a writer's process adds to an event: an id from its own clock, the time and the
trace. -/
structure Minted where
  id : String
  micros : Int
  traceparent : String := ""

/-- The command store, with all columns of the outbox. -/
structure Tables where
  db : Db
  records : List Record

def Tables.empty : Tables :=
  ⟨.empty, []⟩

/-- One command and its event.  The id is the primary key of the outbox. -/
def appendEvent (t : Tables) (p : Prepared) (m : Minted) : Option Tables :=
  match apply t.db p with
  | .ok (db, env) =>
    if t.records.any fun r => r.id == m.id then none
    else
      let e := newEvent p env.version (p.stampedValues env.version) env.verb m.id m.micros
        m.traceparent
      some ⟨db, t.records ++ [record e]⟩
  | .error _ => none

def prepareAll (x : Executor) (batch : List (Request × Minted)) :
    Option (List (Prepared × Minted)) :=
  batch.mapM fun c => (c.1.prepare x).toOption.map fun p => (p, c.2)

def appendAll (t : Tables) (prepared : List (Prepared × Minted)) : Option Tables :=
  prepared.foldlM (fun t c => appendEvent t c.1 c.2) t

/-- The transaction of a relay: the rows of the select's snapshot it has not come to, those it has
locked and not published, and the ids it has marked with their stream ids, for others to see when
it commits. -/
structure Drain where
  scan : List Record
  rows : List Record := []
  marked : List (String × String) := []

def Drain.holds (d : Drain) (id : String) : Bool :=
  (d.rows.any fun r => r.id == id) || d.marked.any fun m => m.1 == id

structure World where
  tables : Tables
  /-- The publications, in the order in which the stream got them. -/
  stream : List Event
  drains : List (String × Drain)

def World.start : World :=
  ⟨.empty, [], []⟩

structure Relays where
  executor : Executor
  zone : PgTime.Zone
  batch : Nat

inductive Action
  /-- A writer's transaction commits its commands, or fails. -/
  | exec (batch : List (Request × Minted))
  | select (relay : String)
  | lock (relay : String)
  | publish (relay streamId : String)
  | commit (relay : String) (now : Int)
  /-- The relay stops or a call of it fails, and its transaction is rolled back. -/
  | crash (relay : String)

def World.lockedByOther (s : World) (relay id : String) : Bool :=
  s.drains.any fun d => d.1 != relay && d.2.holds id

def World.put (s : World) (relay : String) (d : Drain) : World :=
  { s with drains := Assoc.put s.drains relay d }

def eligible (r : Record) : Bool :=
  r.publishedAt.isNone && r.erasedAt.isNone

def exec (x : Executor) (s : World) (batch : List (Request × Minted)) : World :=
  match (prepareAll x batch).bind (appendAll s.tables) with
  | some tables => { s with tables := tables }
  | none => s

def select (s : World) (relay : String) : Option World :=
  match s.drains.lookup relay with
  | some _ => none
  | none => some (s.put relay
      { scan := (s.tables.records.filter eligible).insertionSort fun a b => a.id ≤ b.id })

/-- The select comes to the next row of its snapshot.  A row that another relay holds is skipped,
and the condition is checked again on the row. -/
def lock (batch : Nat) (s : World) (relay : String) : Option World :=
  match s.drains.lookup relay with
  | some ⟨row :: rest, rows, marked⟩ =>
    if rows.length < batch then
      if s.lockedByOther relay row.id then some (s.put relay ⟨rest, rows, marked⟩)
      else
        match (s.tables.records.find? fun r => r.id == row.id).filter eligible with
        | some current => some (s.put relay ⟨rest, rows ++ [current], marked⟩)
        | none => some (s.put relay ⟨rest, rows, marked⟩)
    else none
  | _ => none

/-- The rows are published and marked in turn once the select is over. -/
def publish (r : Relays) (s : World) (relay streamId : String) : Option World :=
  match s.drains.lookup relay with
  | some ⟨scan, row :: rest, marked⟩ =>
    if scan.isEmpty || (row :: rest).length == r.batch then
      (row.scan r.zone).envelope.map fun e =>
        { s.put relay ⟨[], rest, marked ++ [(row.id, streamId)]⟩ with
          stream := s.stream ++ [e] }
    else none
  | _ => none

def markPublished (marked : List (String × String)) (now : Int) (r : Record) : Record :=
  match marked.lookup r.id with
  | some streamId => { r with publishedAt := some now, streamId := streamId }
  | none => r

def commit (s : World) (relay : String) (now : Int) : Option World :=
  match s.drains.lookup relay with
  | some ⟨[], [], marked⟩ => some { s with
      tables := { s.tables with records := s.tables.records.map (markPublished marked now) }
      drains := Assoc.drop s.drains relay }
  | _ => none

def step (r : Relays) (s : World) : Action → Option World
  | .exec batch => some (exec r.executor s batch)
  | .select relay => select s relay
  | .lock relay => lock r.batch s relay
  | .publish relay streamId => publish r s relay streamId
  | .commit relay now => commit s relay now
  | .crash relay => some { s with drains := Assoc.drop s.drains relay }

def Before (a b : Change) : Prop :=
  a.1 = b.1 ∧ a.2 < b.2

instance : DecidableRel Before :=
  fun a b => inferInstanceAs (Decidable (a.1 = b.1 ∧ a.2 < b.2))

def eventChange (e : Event) : Change :=
  rowChange (outboxRow e.toEnvelope)

/-- Ahead of every publication of a version there is one of each smaller version of the
aggregate that is ever published. -/
def VersionOrdered (stream : List Event) : Prop :=
  ∀ earlier e later, stream = earlier ++ e :: later → ∀ other ∈ stream,
    Before (eventChange other) (eventChange e) →
      ∃ first ∈ earlier, eventChange first = eventChange other

def MarkedAfterPublished (s : World) : Prop :=
  ∀ r ∈ s.tables.records, r.publishedAt.isSome = true →
    ∃ e ∈ s.stream, eventChange e = rowChange r.toOutboxRow

def note : Entity where
  name := "note"
  columns := []
  edges_columns := edges_noColumns
  search_columns := search_noColumns

def notes : Relays where
  executor := { reg := [note], coerce := fun _ vals => some vals }
  zone := kolkata
  batch := 2

def change (op : Op) (id : String) : Action :=
  .exec [(⟨⟨"acme", ""⟩, "new", ⟨"note", op, "n1", some [], none⟩⟩, ⟨id, 0, ""⟩)]

def clockBehind : List Action :=
  [change .create "02", change .update "01", .select "r", .lock "r", .lock "r",
    .publish "r" "1-0", .publish "r" "1-1"]

def rowSkipped : List Action :=
  [change .create "01", .select "r", .lock "r", change .update "02", .select "q", .lock "q",
    .lock "q", .publish "q" "1-0", .publish "r" "1-1"]

theorem not_versionOrdered_of_swapped {a b : Event}
    (h : Before (eventChange b) (eventChange a)) : ¬ VersionOrdered [a, b] := by
  intro hordered
  obtain ⟨first, hfirst, -⟩ := hordered [] a [b] rfl b (by simp) h
  exact not_mem_nil hfirst

theorem published_out_of_order :
    (∃ t, run (step notes) .start clockBehind = some t ∧ ¬ VersionOrdered t.stream) ∧
      ∃ t, run (step notes) .start rowSkipped = some t ∧ ¬ VersionOrdered t.stream := by
  constructor
  · exact ⟨_, rfl, not_versionOrdered_of_swapped (by decide)⟩
  · exact ⟨_, rfl, not_versionOrdered_of_swapped (by decide)⟩

/-- The ids of the commands are above those of the events that their aggregates have. -/
def IdsFollow (records : List Record) (prepared : List (Prepared × Minted)) : Prop :=
  (∀ c ∈ prepared, ∀ r ∈ records,
      eventIdentity r.toOutboxRow = preparedIdentity c.1 → r.id < c.2.id) ∧
    prepared.Pairwise fun a b => preparedIdentity a.1 = preparedIdentity b.1 → a.2.id < b.2.id

/-- A writer's ids follow the versions, and a relay skips a row only if its scan holds no
other event of the aggregate. -/
def Orderly (x : Executor) (s : World) : Action → Prop
  | .exec batch => ∀ prepared ∈ prepareAll x batch, IdsFollow s.tables.records prepared
  | .lock relay => ∀ d ∈ s.drains.lookup relay, ∀ row ∈ d.scan.head?,
      s.lockedByOther relay row.id = true → ∀ later ∈ d.scan.tail,
        eventIdentity later.toOutboxRow ≠ eventIdentity row.toOutboxRow
  | _ => True

instance (records : List Record) (prepared : List (Prepared × Minted)) :
    Decidable (IdsFollow records prepared) :=
  inferInstanceAs (Decidable (_ ∧ _))

instance (x : Executor) (s : World) : ∀ a, Decidable (Orderly x s a)
  | .exec batch => inferInstanceAs (Decidable
      (∀ prepared ∈ prepareAll x batch, IdsFollow s.tables.records prepared))
  | .lock relay => inferInstanceAs (Decidable
      (∀ d ∈ s.drains.lookup relay, ∀ row ∈ d.scan.head?,
        s.lockedByOther relay row.id = true → ∀ later ∈ d.scan.tail,
          eventIdentity later.toOutboxRow ≠ eventIdentity row.toOutboxRow))
  | .select _ | .publish _ _ | .commit _ _ | .crash _ => isTrue trivial

def entry (r : Record) : String × Change :=
  (r.id, rowChange r.toOutboxRow)

def World.entries (s : World) : List (String × Change) :=
  s.tables.records.map entry

def World.sent (s : World) : List Change :=
  s.stream.map eventChange

structure Stored (t : Tables) : Prop where
  gapless : Gapless t.db
  outbox : t.records.map Record.toOutboxRow = t.db.outbox
  unerased : ∀ r ∈ t.records, r.erasedAt = none
  nodup : (t.records.map Record.id).Nodup
  ids : ∀ a ∈ t.records, ∀ b ∈ t.records,
    Before (rowChange a.toOutboxRow) (rowChange b.toOutboxRow) → a.id < b.id

structure Working (entries : List (String × Change)) (sent : List Change) (d : Drain) :
    Prop where
  kept : ∀ r ∈ d.rows ++ d.scan, entry r ∈ entries
  marked : ∀ m ∈ d.marked, ∃ c ∈ sent, (m.1, c) ∈ entries
  ready : Ready Before (entries.map Prod.snd) sent
    ((d.rows ++ d.scan).map fun r => rowChange r.toOutboxRow)

structure Inv (s : World) : Prop where
  stored : Stored s.tables
  published : ∀ r ∈ s.tables.records, r.publishedAt.isSome = true →
    rowChange r.toOutboxRow ∈ s.sent
  known : s.sent ⊆ s.entries.map Prod.snd
  ordered : Ready Before (s.entries.map Prod.snd) [] s.sent
  working : ∀ e ∈ s.drains, Working s.entries s.sent e.2

theorem inv_start : Inv .start := ⟨⟨gapless_empty, rfl, forall_mem_nil _, .nil, forall_mem_nil _⟩,
    forall_mem_nil _, List.Subset.refl _, trivial, forall_mem_nil _⟩

variable {t after : Tables} {p : Prepared} {m : Minted} {r : Record} {s : World}

structure Appended (t : Tables) (p : Prepared) (m : Minted) (after : Tables) (r : Record) :
    Prop where
  gapless : Gapless after.db
  outbox : after.db.outbox = t.db.outbox ++ [r.toOutboxRow]
  records : after.records = t.records ++ [r]
  id : r.id = m.id
  identity : eventIdentity r.toOutboxRow = preparedIdentity p
  unpublished : r.publishedAt = none
  unerased : r.erasedAt = none
  fresh : ∀ old ∈ t.records, old.id ≠ m.id
  latest : ∀ old ∈ t.records,
    ¬ Before (rowChange r.toOutboxRow) (rowChange old.toOutboxRow)

theorem appendEvent_eq_some (h : Stored t) (hstep : appendEvent t p m = some after) :
    ∃ r, Appended t p m after r := by
  unfold appendEvent at hstep
  split at hstep
  · rename_i db env happly
    have happlied := apply_eq_ok happly
    split_ifs at hstep with hany
    cases hstep
    obtain rfl := happlied.env_eq
    refine ⟨_, h.gapless.apply happlied, happlied.outbox, rfl, rfl, rfl, rfl, rfl, ?_, ?_⟩
    · intro old hold heq
      exact hany (any_eq_true.mpr ⟨old, hold, by simpa using heq⟩)
    · -- The events of the aggregate are numbered, and the new one has the next number.
      rintro old hold ⟨hid, hlt⟩
      have hmem : old.toOutboxRow ∈ t.db.outbox := h.outbox ▸ mem_map_of_mem hold
      have hle := h.gapless.numbered.le_length (mem_history.mpr ⟨hmem, hid.symm⟩)
      have hnext : currentVersion t.db p + 1 =
          (history eventIdentity t.db.outbox (preparedIdentity p)).length + 1 :=
        h.gapless.next_eq happlied
      have hversion : currentVersion t.db p + 1 < old.version := hlt
      rw [hnext] at hversion
      exact absurd (hle.trans_lt (lt_add_one _)) (not_lt.mpr hversion.le)
  · simp at hstep

theorem Stored.append (h : Stored t) (ha : Appended t p m after r) (hids : ∀ old ∈ t.records,
      eventIdentity old.toOutboxRow = preparedIdentity p → old.id < m.id) : Stored after := by
  refine ⟨ha.gapless, ?_, ?_, ?_, ?_⟩
  · rw [ha.records, ha.outbox, map_append, h.outbox]
    rfl
  · rw [ha.records]
    exact forall_mem_append.mpr ⟨h.unerased, by simpa using ha.unerased⟩
  · rw [ha.records, map_append]
    refine nodup_append.mpr ⟨h.nodup, nodup_singleton _, ?_⟩
    rintro _ hold _ hnew rfl
    obtain ⟨old, hmem, heq⟩ := mem_map.mp hold
    exact ha.fresh old hmem (heq.trans ((mem_singleton.mp hnew).trans ha.id))
  · rw [ha.records]
    intro a hmema b hmemb hbefore
    rcases mem_append.mp hmema with hold | hnew
    · rcases mem_append.mp hmemb with holdb | hnewb
      · exact h.ids a hold b holdb hbefore
      · obtain rfl := mem_singleton.mp hnewb
        rw [ha.id]
        exact hids a hold (hbefore.1.trans ha.identity)
    · obtain rfl := mem_singleton.mp hnew
      rcases mem_append.mp hmemb with holdb | hnewb
      · exact absurd hbefore (ha.latest b holdb)
      · rw [mem_singleton.mp hnewb] at hbefore
        exact absurd hbefore.2 (lt_irrefl _)

theorem Working.append {entries : List (String × Change)} {sent : List Change} {d : Drain}
    {new : String × Change} (h : Working entries sent d)
    (hlatest : ∀ e ∈ entries, ¬ Before new.2 e.2) : Working (entries ++ [new]) sent d := by
  refine ⟨fun r hr => mem_append_left _ (h.kept r hr), fun m hm => ?_, ?_⟩
  · obtain ⟨c, hc, hmem⟩ := h.marked m hm
    exact ⟨c, hc, mem_append_left _ hmem⟩
  · refine h.ready.extend fun c hc => ?_
    rw [map_append, mem_append] at hc
    refine hc.imp_right fun hnew x hx => ?_
    obtain ⟨row, hrow, rfl⟩ := mem_map.mp hx
    rw [mem_singleton.mp hnew]
    exact hlatest _ (h.kept row hrow)

theorem Inv.append (h : Inv s) (hids : ∀ old ∈ s.tables.records,
      eventIdentity old.toOutboxRow = preparedIdentity p → old.id < m.id)
    (ha : Appended s.tables p m after r) : Inv { s with tables := after } := by
  have hentries : World.entries { s with tables := after } = s.entries ++ [entry r] := by
    rw [World.entries, ha.records, map_append]
    rfl
  have hlatest : ∀ e ∈ s.entries, ¬ Before (entry r).2 e.2 := by
    intro e he
    obtain ⟨old, hold, rfl⟩ := mem_map.mp he
    exact ha.latest old hold
  refine ⟨h.stored.append ha hids, ?_, ?_, ?_, ?_⟩
  · rw [ha.records]
    refine forall_mem_append.mpr ⟨h.published, fun new hnew hmark => ?_⟩
    rw [mem_singleton.mp hnew, ha.unpublished] at hmark
    cases hmark
  · rw [hentries, map_append]
    exact subset_append_of_subset_left _ h.known
  · rw [hentries]
    refine h.ordered.extend fun c hc => ?_
    rw [map_append, mem_append] at hc
    refine hc.imp_right fun hnew x hx => ?_
    obtain ⟨e, he, rfl⟩ := mem_map.mp (h.known hx)
    rw [mem_singleton.mp hnew]
    exact hlatest e he
  · intro e he
    rw [hentries]
    exact (h.working e he).append hlatest

theorem inv_appendAll {prepared : List (Prepared × Minted)} (h : Inv s)
    (hids : IdsFollow s.tables.records prepared)
    (hstep : appendAll s.tables prepared = some after) : Inv { s with tables := after } := by
  induction prepared generalizing s with
  | nil =>
    cases hstep
    exact h
  | cons c rest ih =>
    obtain ⟨hold, hpair⟩ := hids
    rw [pairwise_cons] at hpair
    obtain ⟨next, hfirst, hrest⟩ := bind_eq_some_iff.mp hstep
    obtain ⟨r, ha⟩ := appendEvent_eq_some h.stored hfirst
    have hnext := h.append (hold c mem_cons_self) ha
    refine ih (s := { s with tables := next }) hnext ⟨fun d hd row hrow hid => ?_, hpair.2⟩ hrest
    rw [ha.records] at hrow
    rcases mem_append.mp hrow with hrow | hrow
    · exact hold d (mem_cons_of_mem c hd) row hrow hid
    · rw [mem_singleton.mp hrow] at hid ⊢
      rw [ha.id]
      exact hpair.1 d hd (ha.identity.symm.trans hid)

theorem inv_exec {x : Executor} {batch : List (Request × Minted)} (h : Inv s)
    (hok : Orderly x s (.exec batch)) : Inv (exec x s batch) := by
  unfold exec
  split
  · rename_i tables htables
    obtain ⟨prepared, hprep, hstep⟩ := bind_eq_some_iff.mp htables
    exact inv_appendAll h (hok prepared hprep) hstep
  · exact h

section

variable {t : World} {relay : String} {d : Drain}

theorem Inv.put (h : Inv s) (hd : Working s.entries s.sent d) : Inv (s.put relay d) := by
  refine ⟨h.stored, h.published, h.known, h.ordered, fun e he => ?_⟩
  rcases mem_cons.mp he with rfl | he
  · exact hd
  · exact h.working e (mem_of_mem_filter he)

theorem Inv.working_of_lookup (h : Inv s) (hd : s.drains.lookup relay = some d) :
    Working s.entries s.sent d :=
  h.working _ (Assoc.mem_of_lookup hd)

theorem inv_select (h : Inv s) (hstep : select s relay = some t) : Inv t := by
  revert hstep
  fun_cases select s relay <;> rintro ⟨⟩
  have hmem : ∀ r ∈ (s.tables.records.filter eligible).insertionSort (fun a b => a.id ≤ b.id),
      r ∈ s.tables.records := by
    intro r hr
    exact mem_of_mem_filter ((mem_insertionSort _).mp hr)
  refine h.put ⟨fun r hr => mem_map_of_mem (hmem r hr), forall_mem_nil _, ?_⟩
  refine ready_of_pairwise (fun c _ hc => lt_irrefl _ hc.2) ?_ fun c hc => ?_
  · rw [pairwise_map]
    have hsorted := pairwise_insertionSort (fun a b : Record => a.id ≤ b.id)
      (s.tables.records.filter eligible)
    refine hsorted.imp_of_mem fun {a b} ha hb hle hbefore => ?_
    exact String.not_lt.mpr hle (h.stored.ids b (hmem b hb) a (hmem a ha) hbefore)
  · obtain ⟨e, he, rfl⟩ := mem_map.mp hc
    obtain ⟨r, hr, rfl⟩ := mem_map.mp he
    cases hmark : r.publishedAt with
    | some now => exact .inl (h.published r hr (by rw [hmark]; rfl))
    | none =>
      have helig : eligible r := by
        rw [eligible, hmark, h.stored.unerased r hr]
        rfl
      refine Or.inr (mem_map.mpr ⟨r, ?_, rfl⟩)
      exact (mem_insertionSort _).mpr (mem_filter.mpr ⟨hr, helig⟩)

theorem change_eq_of_id (h : Stored s.tables) {e e' : String × Change} (he : e ∈ s.entries)
    (he' : e' ∈ s.entries) (hid : e.1 = e'.1) : e.2 = e'.2 := by
  obtain ⟨a, ha, rfl⟩ := mem_map.mp he
  obtain ⟨b, hb, rfl⟩ := mem_map.mp he'
  rw [inj_on_of_nodup_map h.nodup ha hb hid]

theorem find_scanned (h : Inv s) {row : Record} (hrow : entry row ∈ s.entries) :
    ∃ current, (s.tables.records.find? fun r => r.id == row.id) = some current ∧
      entry current = entry row ∧ current ∈ s.tables.records := by
  obtain ⟨r, hr, hentry⟩ := mem_map.mp hrow
  have hid : r.id = row.id := congrArg Prod.fst hentry
  have hsome : (s.tables.records.find? fun r => r.id == row.id).isSome :=
    find?_isSome.mpr ⟨r, hr, by simpa using hid⟩
  obtain ⟨current, hcurrent⟩ := isSome_iff_exists.mp hsome
  have hmem := mem_of_find?_eq_some hcurrent
  have hsame : current.id = row.id := by simpa using find?_some hcurrent
  refine ⟨current, hcurrent, Prod.ext hsame ?_, hmem⟩
  exact change_eq_of_id h.stored (mem_map_of_mem hmem) hrow hsame

section

variable {row : Record} {rest rows : List Record} {marked : List (String × String)}
  {entries : List (String × Change)} {sent : List Change}

theorem Working.skip (h : Working entries sent ⟨row :: rest, rows, marked⟩)
    (hdone : rowChange row.toOutboxRow ∈ sent ∨
      ∀ later ∈ rest, eventIdentity later.toOutboxRow ≠ eventIdentity row.toOutboxRow) :
    Working entries sent ⟨rest, rows, marked⟩ := by
  refine ⟨fun r hr => h.kept r ?_, h.marked, ?_⟩
  · rcases mem_append.mp hr with hr | hr
    · exact mem_append_left _ hr
    · exact mem_append_right _ (mem_cons_of_mem row hr)
  · have hready := h.ready
    simp only [map_append, map_cons] at hready ⊢
    refine hready.remove (hdone.imp_right fun hother c hc hbefore => ?_)
    obtain ⟨later, hlater, rfl⟩ := mem_map.mp hc
    exact hother later hlater hbefore.1.symm

theorem Working.take (h : Working entries sent ⟨row :: rest, rows, marked⟩) {current : Record}
    (hentry : entry current = entry row) :
    Working entries sent ⟨rest, rows ++ [current], marked⟩ := by
  have hchange : rowChange current.toOutboxRow = rowChange row.toOutboxRow :=
    congrArg Prod.snd hentry
  refine ⟨fun r hr => ?_, h.marked, ?_⟩
  · rw [append_assoc, mem_append, singleton_append, mem_cons] at hr
    rcases hr with hr | rfl | hr
    · exact h.kept r (mem_append_left _ hr)
    · rw [hentry]
      exact h.kept row (mem_append_right _ mem_cons_self)
    · exact h.kept r (mem_append_right _ (mem_cons_of_mem row hr))
  · have hready := h.ready
    simp only [map_append, map_cons, append_assoc, singleton_append, hchange] at hready ⊢
    exact hready

end

theorem inv_lock {x : Executor} {batch : Nat} (h : Inv s) (hok : Orderly x s (.lock relay))
    (hstep : lock batch s relay = some t) : Inv t := by
  unfold lock at hstep
  split at hstep
  · rename_i row rest rows marked hlookup
    have hwork := h.working_of_lookup hlookup
    have hrow : entry row ∈ s.entries := hwork.kept row (mem_append_right _ mem_cons_self)
    obtain ⟨current, hfind, hentry, hmem⟩ := find_scanned h hrow
    split_ifs at hstep with hlimit hlocked
    · cases hstep
      exact h.put (hwork.skip (.inr (hok _ hlookup row rfl hlocked)))
    · rw [hfind] at hstep
      cases helig : eligible current with
      | true =>
        rw [filter_some_pos helig] at hstep
        cases hstep
        exact h.put (hwork.take hentry)
      | false =>
        rw [filter_some_neg (by simpa using helig)] at hstep
        cases hstep
        rw [eligible, h.stored.unerased current hmem, isNone_none, Bool.and_true,
          isNone_eq_false_iff] at helig
        have hchange : rowChange current.toOutboxRow = rowChange row.toOutboxRow :=
          congrArg Prod.snd hentry
        exact h.put (hwork.skip (.inl (hchange ▸ h.published current hmem helig)))
  · simp at hstep

theorem eventChange_of_envelope {zone : PgTime.Zone} {row : Record} {e : Event}
    (h : (row.scan zone).envelope = some e) : eventChange e = rowChange row.toOutboxRow := by
  obtain ⟨micros, -, rfl⟩ := map_eq_some_iff.mp h
  rfl

theorem Working.mono {entries : List (String × Change)} {sent more : List Change}
    (h : Working entries sent d) (hsub : sent ⊆ more) : Working entries more d := by
  refine ⟨h.kept, fun m hm => ?_, h.ready.mono hsub⟩
  obtain ⟨c, hc, hmem⟩ := h.marked m hm
  exact ⟨c, hsub hc, hmem⟩

theorem inv_publish {r : Relays} {streamId : String} (h : Inv s)
    (hstep : publish r s relay streamId = some t) : Inv t := by
  revert hstep
  fun_cases publish r s relay streamId <;> intro hstep <;> try cases hstep
  rename_i row rest marked hlookup _
  obtain ⟨e, henvelope, rfl⟩ := map_eq_some_iff.mp hstep
  have hwork := h.working_of_lookup hlookup
  have hchange := eventChange_of_envelope henvelope
  have hrow : entry row ∈ s.entries := hwork.kept row mem_cons_self
  have hsent : (s.stream ++ [e]).map eventChange = s.sent ++ [rowChange row.toOutboxRow] := by
    rw [map_append, map_singleton, hchange]
    rfl
  have hsub : s.sent ⊆ (s.stream ++ [e]).map eventChange := by
    rw [hsent]
    exact subset_append_left _ _
  have hready := hwork.ready
  rw [cons_append, map_cons, map_append] at hready
  obtain ⟨hfirst, hrest⟩ := hready
  refine ⟨h.stored, fun r hr hmark => hsub (h.published r hr hmark), ?_, ?_, ?_⟩
  · rw [World.sent, hsent]
    exact forall_mem_concat (fun _ hc => h.known hc) (mem_map_of_mem hrow)
  · rw [World.sent, hsent]
    refine ready_append.mpr ⟨h.ordered, fun y hy hbefore => ?_, trivial⟩
    exact mem_append_left _ (hfirst y hy hbefore)
  · intro other hother
    rcases mem_cons.mp hother with rfl | hother
    · refine ⟨fun r hr => ?_, fun m hm => ?_, ?_⟩
      · rw [append_nil] at hr
        exact hwork.kept r (mem_cons_of_mem row (mem_append_left _ hr))
      · rcases mem_append.mp hm with hm | hm
        · obtain ⟨c, hc, hmem⟩ := hwork.marked m hm
          exact ⟨c, hsub hc, hmem⟩
        · rw [mem_singleton.mp hm]
          refine ⟨_, ?_, hrow⟩
          rw [World.sent, hsent]
          exact mem_append_right _ mem_cons_self
      · rw [append_nil, World.sent, hsent]
        refine (ready_append.mp hrest).1.mono fun c hc => ?_
        rcases mem_cons.mp hc with rfl | hc
        · exact mem_append_right _ mem_cons_self
        · exact mem_append_left _ hc
    · exact (h.working other (mem_of_mem_filter hother)).mono hsub

theorem markPublished_fields (marked : List (String × String)) (now : Int) (r : Record) :
    (markPublished marked now r).toOutboxRow = r.toOutboxRow ∧
      (markPublished marked now r).id = r.id ∧
      (markPublished marked now r).erasedAt = r.erasedAt := by
  unfold markPublished
  split <;> exact ⟨rfl, rfl, rfl⟩

theorem Stored.markPublished (h : Stored s.tables) (marked : List (String × String)) (now : Int) :
    Stored ⟨s.tables.db, s.tables.records.map (markPublished marked now)⟩ := by
  have hfields := markPublished_fields marked now
  refine ⟨h.gapless, ?_, ?_, ?_, ?_⟩
  · rw [← h.outbox, List.map_map]
    exact map_congr_left fun r _ => (hfields r).1
  · refine forall_mem_map.mpr fun r hr => ?_
    rw [(hfields r).2.2, h.unerased r hr]
  · have hids : (s.tables.records.map (Relay.markPublished marked now)).map Record.id =
        s.tables.records.map Record.id := by
      rw [List.map_map]
      exact map_congr_left fun r _ => (hfields r).2.1
    rw [hids]
    exact h.nodup
  · refine forall_mem_map.mpr fun a ha => forall_mem_map.mpr fun b hb => ?_
    rw [(hfields a).1, (hfields b).1, (hfields a).2.1, (hfields b).2.1]
    exact h.ids a ha b hb

theorem inv_commit {now : Int} (h : Inv s) (hstep : commit s relay now = some t) : Inv t := by
  revert hstep
  fun_cases commit s relay now <;> rintro ⟨⟩
  rename_i marked hlookup
  have hwork := h.working_of_lookup hlookup
  have hfields := markPublished_fields marked now
  have hentries : (s.tables.records.map (markPublished marked now)).map entry = s.entries := by
    rw [List.map_map, World.entries]
    refine map_congr_left fun r _ => ?_
    rw [Function.comp_apply, entry, (hfields r).1, (hfields r).2.1, entry]
  refine ⟨h.stored.markPublished marked now, ?_, ?_, ?_, ?_⟩
  · refine forall_mem_map.mpr fun r hr hmark => ?_
    rw [(hfields r).1]
    rw [markPublished] at hmark
    split at hmark
    · -- A row that this transaction marked is on the stream, as ids are unique.
      rename_i streamId hid
      obtain ⟨c, hc, hmem⟩ := hwork.marked _ (Assoc.mem_of_lookup hid)
      have hsame : rowChange r.toOutboxRow = c :=
        change_eq_of_id h.stored (mem_map_of_mem hr) hmem rfl
      rw [hsame]
      exact hc
    · exact h.published r hr hmark
  · rw [World.entries, hentries]
    exact h.known
  · rw [World.entries, hentries]
    exact h.ordered
  · intro e he
    rw [World.entries, hentries]
    exact h.working e (mem_of_mem_filter he)

end

theorem inv_step (r : Relays) {t : World} (a : Action) (h : Inv s) (hok : Orderly r.executor s a)
    (hstep : step r s a = some t) : Inv t := by
  cases a with
  | exec batch =>
    cases hstep
    exact inv_exec h hok
  | select relay => exact inv_select h hstep
  | lock relay => exact inv_lock h hok hstep
  | publish relay streamId => exact inv_publish h hstep
  | commit relay now => exact inv_commit h hstep
  | crash relay =>
    cases hstep
    exact ⟨h.stored, h.published, h.known, h.ordered, fun e he =>
      h.working e (mem_of_mem_filter he)⟩

theorem Inv.versionOrdered (h : Inv s) : VersionOrdered s.stream := by
  intro earlier e later hsplit other hother hbefore
  have hordered := h.ordered
  rw [World.sent, hsplit, map_append, map_cons] at hordered
  have hknown := h.known (mem_map_of_mem hother)
  rcases hordered.exists_earlier hknown hbefore with hmem | hmem
  · exact mem_map.mp hmem
  · cases hmem

/-- In every orderly run, each aggregate is published in the order of its versions and no row is
marked before it is published. -/
theorem relay_publishes_in_order (r : Relays) {t : World} {trace : List Action}
    (hok : Along (step r) (Orderly r.executor) .start trace)
    (hrun : run (step r) .start trace = some t) :
    VersionOrdered t.stream ∧ MarkedAfterPublished t := by
  have hinv := run_invariant (fun _ a _ => inv_step r a) inv_start hok hrun
  refine ⟨hinv.versionOrdered, fun row hrow hmark => ?_⟩
  exact mem_map.mp (hinv.published row hrow hmark)

def sideBySide : List Action :=
  [change .create "01", change .update "02", .select "r", .lock "r", .lock "r",
    .exec [(⟨⟨"acme", ""⟩, "new", ⟨"note", .create, "n2", some [], none⟩⟩, ⟨"00", 0, ""⟩)],
    .select "q", .lock "q", .publish "r" "1-0", .publish "r" "1-1", .commit "r" 1]

theorem relay_publishes_in_order_sideBySide :
    ∃ t, Along (step notes) (Orderly notes.executor) .start sideBySide ∧
      run (step notes) .start sideBySide = some t ∧ VersionOrdered t.stream ∧
      MarkedAfterPublished t := by
  have hok : Along (step notes) (Orderly notes.executor) .start sideBySide := by decide
  exact ⟨_, hok, rfl, relay_publishes_in_order notes hok rfl⟩

end Fabriq.Exec.Relay
