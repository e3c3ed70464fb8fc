import Fabriq.Dynamic.Lifecycle
import Fabriq.Lib.Machine

/-!
Which tables the tenant backstop guards after any sequence of lifecycle operations.
-/

namespace Fabriq.Dynamic.Guarded

open Lib Lib.Machine Dynamic.Spec Dynamic.Lifecycle List Option Lib.Assoc

variable {β : Type}

/-- The type `n` is registered with the table `t`. -/
def Uses (f : Facade) (n t : String) : Prop :=
  ∃ spec s, f.get n = some spec ∧ spec.schema = some s ∧ s.table = t

/-- A persisted row describes the type `n` with the table `t`. -/
def Describes (json : Json β) (rows : List (Record β)) (n t : String) : Prop :=
  ∃ r ∈ rows, r.name = n ∧
    ∃ spec s, decodeRow json r = some spec ∧ spec.schema = some s ∧ s.table = t

/-- Registered types are sound and their tables guarded; `T` bounds which type may use which
table. -/
structure Inv (T : String → String → Prop) (f : Facade) : Prop where
  sound : ∀ n spec, f.get n = some spec → spec.name = n ∧ problems spec = []
  guarded : ∀ n t, Uses f n t → t ∈ f.guarded
  within : ∀ n t, Uses f n t → T n t

variable {T : String → String → Prop} {f g : Facade} {spec prev : EntitySpec}
  {loaded : List (String × Int)} {guarded : List String} {name : String} {s : DynamicSchema}

theorem Inv.put (hinv : Inv T f) (hsound : problems spec = [])
    (hnew : ∀ s, spec.schema = some s → s.table ∈ guarded ∧ T spec.name s.table)
    (hothers : ∀ n t, n ≠ spec.name → Uses f n t → t ∈ guarded) :
    Inv T ⟨put f.registry spec.name spec, loaded, guarded⟩ := by
  have hget : ∀ n, Facade.get ⟨Assoc.put _ _ spec, loaded, guarded⟩ n =
      if n = spec.name then some spec else f.get n := fun n => lookup_put
  have huses : ∀ n t, Uses ⟨Assoc.put f.registry spec.name spec, loaded, guarded⟩ n t →
      (n = spec.name ∧ ∃ s, spec.schema = some s ∧ s.table = t) ∨ (n ≠ spec.name ∧ Uses f n t) := by
    rintro n t ⟨p, s, hp, hs, ht⟩
    rw [hget] at hp
    split_ifs at hp with hn
    · cases hp
      exact .inl ⟨hn, s, hs, ht⟩
    · exact .inr ⟨hn, p, s, hp, hs, ht⟩
  refine ⟨fun n p hp => ?_, fun n t ht => ?_, fun n t ht => ?_⟩
  · rw [hget] at hp
    split_ifs at hp with hn
    · cases hp
      exact ⟨hn.symm, hsound⟩
    · exact hinv.sound n p hp
  · rcases huses n t ht with ⟨-, s, hs, rfl⟩ | ⟨hn, hf⟩
    · exact (hnew s hs).1
    · exact hothers n t hn hf
  · rcases huses n t ht with ⟨rfl, s, hs, rfl⟩ | ⟨-, hf⟩
    · exact (hnew s hs).2
    · exact hinv.within n t hf

theorem Inv.drop (hinv : Inv T f) (hothers : ∀ n t, n ≠ name → Uses f n t → t ∈ guarded) :
    Inv T ⟨drop f.registry name, loaded, guarded⟩ := by
  have hget : ∀ n p, Facade.get ⟨Assoc.drop f.registry name, loaded, guarded⟩ n = some p →
      n ≠ name ∧ f.get n = some p := by
    intro n p hp
    rw [Facade.get, lookup_drop] at hp
    split_ifs at hp with hn
    exact ⟨hn, hp⟩
  refine ⟨fun n p hp => hinv.sound n p (hget n p hp).2, ?_, ?_⟩
  · rintro n t ⟨p, s, hp, hs, ht⟩
    exact hothers n t (hget n p hp).1 ⟨p, s, (hget n p hp).2, hs, ht⟩
  · rintro n t ⟨p, s, hp, hs, ht⟩
    exact hinv.within n t ⟨p, s, (hget n p hp).2, hs, ht⟩

theorem Inv.setLoaded (hinv : Inv T f) : Inv T { f with loaded := loaded } :=
  ⟨hinv.sound, hinv.guarded, hinv.within⟩

theorem Inv.put_same (hinv : Inv T f) (hsound : problems spec = [])
    (hnew : ∀ s, spec.schema = some s → Uses f spec.name s.table) : Inv T (f.put spec) :=
  hinv.put hsound (fun s hs => ⟨hinv.guarded _ _ (hnew s hs), hinv.within _ _ (hnew s hs)⟩)
    fun n t _ => hinv.guarded n t

variable {t : String}

theorem Inv.kept (hinv : Inv T f) (honly : ∀ n, Uses f n t → n = name) :
    ∀ n u, n ≠ name → Uses f n u → u ∈ f.guarded.filter (· ≠ t) := by
  intro n u hn hu
  refine mem_filter.mpr ⟨hinv.guarded n u hu, ?_⟩
  rw [decide_eq_true_eq]
  rintro rfl
  exact hn (honly n hu)

theorem unregister_put (hs : spec.schema = some s) :
    (f.put spec).attempt (Facade.unregister · spec.name) =
      { f with registry := drop f.registry spec.name } := by
  have hget : (f.put spec).get spec.name = some spec := by simp [Facade.get_put]
  have hdrop : Assoc.drop (f.put spec).registry spec.name = Assoc.drop f.registry spec.name := by
    simp [Facade.put, Assoc.put, Assoc.drop]
  rw [Facade.attempt, Facade.unregister_of_get hget hs, hdrop]
  rfl

theorem Inv.unregister_put (hinv : Inv T f) (hs : spec.schema = some s) :
    Inv T ((f.put spec).attempt (Facade.unregister · spec.name)) := by
  rw [Guarded.unregister_put hs]
  exact hinv.drop fun n t _ => hinv.guarded n t

theorem Inv.replace_put {t : DynamicSchema} (hinv : Inv T f) (hs : spec.schema = some s)
    (hprev : f.get spec.name = some prev) (ht : prev.schema = some t) :
    Inv T ((f.put spec).attempt (Facade.replace · prev)) := by
  obtain ⟨hname, hsound⟩ := hinv.sound _ _ hprev
  have hget : (f.put spec).get prev.name = some spec := by simp [Facade.get_put, hname]
  have hback : (f.put spec).put prev = f.put prev := by
    simp [Facade.put, Assoc.put, hname]
  rw [Facade.attempt, Facade.replace_of_sound hsound hget hs ht, hback]
  exact hinv.put_same hsound fun t ht => ⟨prev, t, by rw [hname, hprev], ht, rfl⟩

theorem mem_addGuardedTable : t ∈ (f.addGuardedTable spec).guarded ↔
      (∃ s, spec.schema = some s ∧ s.table = t) ∨ t ∈ f.guarded := by
  simp [Facade.addGuardedTable]

variable {p : Pass}

section

def Disjoint (T : String → String → Prop) : Prop :=
  ∀ n m t, T n t → T m t → n = m

theorem Inv.only (hinv : Inv T f) (hdisj : Disjoint T) (ht : Uses f name t) :
    ∀ n, Uses f n t → n = name :=
  fun n hn => hdisj n name t (hinv.within n t hn) (hinv.within name t ht)

theorem Inv.add (hinv : Inv T p.facade) (hs : spec.schema = some s) (hT : T spec.name s.table)
    (ensured : Bool) (revision : Int) :
    Inv T (p.add ensured spec revision).facade := by
  unfold Pass.add
  split
  · exact hinv
  · rename_i g hg
    obtain ⟨rfl, hsound, -⟩ := Facade.register_eq_ok hg
    split_ifs
    · refine hinv.put hsound (fun u hu => ?_) fun n t _ ht => ?_
      · obtain rfl := some.inj (hs.symm.trans hu)
        exact ⟨mem_addGuardedTable.mpr (.inl ⟨s, hs, rfl⟩), hT⟩
      · exact mem_addGuardedTable.mpr (.inr (hinv.guarded n t ht))
    · exact (hinv.unregister_put hs).setLoaded

theorem replaceLoaded_eq_ok (h : f.replaceLoaded spec prev = .ok g) :
    ∃ next, next.name = spec.name ∧ next.schema = spec.schema ∧ f.replace next = .ok g := by
  unfold Facade.replaceLoaded at h
  split at h
  · rename_i g' hg
    exact ⟨withInProcessFields spec prev, rfl, rfl, h ▸ hg⟩
  · exact ⟨spec, rfl, rfl, h⟩

theorem Inv.update (hinv : Inv T p.facade) (hdisj : Disjoint T) (hs : spec.schema = some s)
    (hT : T spec.name s.table) (hprev : p.facade.get spec.name = some prev) (ensured : Bool)
    (revision : Int) :
    Inv T (p.update ensured spec prev revision).facade := by
  unfold Pass.update
  split
  · exact hinv
  · rename_i g hg
    obtain ⟨next, hname, hschema, hreplace⟩ := replaceLoaded_eq_ok hg
    obtain ⟨rfl, hsound, cur, t, -, hcur, ht, -⟩ := Facade.replace_eq_ok hreplace
    obtain rfl : prev = cur := by
      rw [hname, hprev] at hcur
      exact some.inj hcur
    have huses : Uses p.facade spec.name t.table := ⟨prev, t, hprev, ht, rfl⟩
    split_ifs
    · have hnew : ∀ u, next.schema = some u → ∀ l, u.table ∈ s.table :: l ∧ T next.name u.table := by
        intro u hu l
        obtain rfl := some.inj (hs.symm.trans (hschema ▸ hu))
        exact ⟨mem_cons_self, hname ▸ hT⟩
      simp only [ht, hs, map_some, Facade.addGuardedTable, toList_some]
      split_ifs
      · exact hinv.put hsound (fun u hu => hnew u hu _) fun n u _ hu =>
          mem_cons_of_mem _ (hinv.guarded n u hu)
      · refine hinv.put hsound (fun u hu => hnew u hu _) fun n u hn hu => ?_
        exact mem_cons_of_mem _ (hinv.kept (hinv.only hdisj huses) n u (hname ▸ hn) hu)
    · exact hinv.replace_put (hschema.trans hs) (hname.symm ▸ hprev) ht

theorem Inv.remove (hinv : Inv T p.facade) (hdisj : Disjoint T) (name : String) :
    Inv T (p.remove name).facade := by
  unfold Pass.remove
  split
  · rename_i ent hent
    split
    · rename_i s hs
      have hget : (p.facade.removeGuardedTable s.table).get name = some ent := hent
      simp only [Facade.attempt, Facade.unregister_of_get hget hs]
      exact hinv.drop (hinv.kept (hinv.only hdisj ⟨ent, s, hent, hs, rfl⟩))
    · exact hinv.setLoaded
  · exact hinv.setLoaded

variable [DecidableEq β] {json : Json β} {rows : List (Record β)}

theorem Inv.syncRow {r : Record β} (hinv : Inv T p.facade) (hdisj : Disjoint T)
    (hT : ∀ n t, Describes json rows n t → T n t) (hr : r ∈ rows) (ensureRow : String → Bool) :
    Inv T (syncRow json ensureRow p r).facade := by
  unfold Lifecycle.syncRow
  split
  · exact hinv
  · rename_i spec hspec
    obtain ⟨hname, hdecode⟩ := decodeRow_name json hspec
    obtain ⟨s, hs⟩ := decode_schema json hdecode
    have hrow : T spec.name s.table := hT _ _ ⟨r, hr, hname.symm, spec, s, hspec, hs, rfl⟩
    split
    · exact hinv.add hs hrow _ _
    · exact hinv
    · rename_i cur known hcur _
      split_ifs
      · exact hinv
      · exact hinv.update hdisj hs hrow (hname.symm ▸ hcur) _ _

theorem Inv.sync (hinv : Inv T f) (hdisj : Disjoint T)
    (hT : ∀ n t, Describes json rows n t → T n t) (ensureRow : String → Bool) :
    Inv T (syncPersistedDynamic json ensureRow rows f).facade := by
  have hrows : ∀ (l : List (Record β)) (p : Pass), (∀ r ∈ l, r ∈ rows) → Inv T p.facade →
      Inv T (l.foldl (Lifecycle.syncRow json ensureRow) p).facade := by
    intro l
    induction l with
    | nil => exact fun p _ hp => hp
    | cons r rest ih =>
      intro p hl hp
      exact ih _ (fun q hq => hl q (mem_cons_of_mem _ hq))
        (hp.syncRow hdisj hT (hl r mem_cons_self) _)
  have hgone : ∀ (names : List String) (p : Pass), Inv T p.facade →
      Inv T (names.foldl Pass.remove p).facade := by
    intro names
    induction names with
    | nil => exact fun p hp => hp
    | cons name rest ih => exact fun p hp => ih _ (hp.remove hdisj name)
  exact hgone _ _ (hrows rows _ (fun _ => id) hinv)

end

def Any (_ _ : String) : Prop := True

theorem Inv.of_any (hinv : Inv Any f) (hT : ∀ n t, Uses f n t → T n t) : Inv T f :=
  ⟨hinv.sound, hinv.guarded, hT⟩

theorem Inv.any (hinv : Inv T f) : Inv Any f := ⟨hinv.sound, hinv.guarded, fun _ _ _ => trivial⟩

variable {store : Bool}

section

variable {json : Json β} {db : Database β}

theorem Inv.alter (hinv : Inv Any f) (htable : ∀ s, spec.schema = some s → s.table ∈ f.guarded) :
    Inv Any (alterDynamic json db store f spec).2 := by
  -- what is left follows a replacement
  fun_cases alterDynamic json db store f spec <;> try exact hinv
  all_goals
    obtain ⟨rfl, hsound, cur, t, s, hcur, ht, hs⟩ := Facade.replace_eq_ok ‹_›
    have hput : Inv Any (f.put spec) :=
      hinv.put hsound (fun s hs => ⟨htable s hs, trivial⟩) fun n t _ => hinv.guarded n t
  · rename_i hprev _ _ _ _ _
    obtain rfl := some.inj (hprev.symm.trans hcur)
    exact hinv.replace_put hs hprev ht
  · exact hput
  · exact hput.setLoaded
  · exact hput

theorem Inv.defineNew (hinv : Inv Any f) (hs : spec.schema = some s) :
    Inv Any (defineNew json db store f spec).2 := by
  fun_cases Lifecycle.defineNew json db store f spec <;> try exact hinv
  all_goals
    obtain ⟨rfl, hsound, -⟩ := Facade.register_eq_ok ‹_›
    have hput : ∀ loaded, Inv Any
        ((⟨Assoc.put f.registry spec.name spec, loaded, f.guarded⟩ : Facade).addGuardedTable
          spec) := by
      intro loaded
      refine hinv.put hsound (fun u hu => ⟨?_, trivial⟩) fun n t _ ht => ?_
      · exact mem_addGuardedTable.mpr (.inl ⟨u, hu, rfl⟩)
      · exact mem_addGuardedTable.mpr (.inr (hinv.guarded n t ht))
  · exact hinv.unregister_put hs
  · exact hinv.unregister_put hs
  · exact hput _
  · exact hput _

theorem Inv.dropDynamic (hinv : Inv Any f)
    (hapart : ∀ t, Uses f name t → ∀ n, Uses f n t → n = name) :
    Inv Any (dropDynamic json db store f name).2 := by
  unfold Lifecycle.dropDynamic
  split
  · exact hinv
  · rename_i ent hent
    split
    · rename_i s _ hs
      dsimp only
      split_ifs
      · exact hinv
      · split
        · exact hinv.setLoaded
        · exact hinv
      · have hget : Facade.get { f.removeGuardedTable s.table with
            loaded := Assoc.drop f.loaded name } name = some ent := hent
        simp only [Facade.unregister_of_get hget hs]
        exact hinv.drop (hinv.kept (hapart _ ⟨ent, s, hent, hs, rfl⟩))
    · exact hinv
    · exact hinv

variable [DecidableEq β]

theorem Inv.defineKnown (hinv : Inv Any f) (hs : spec.schema = some s) :
    Inv Any (defineKnown json db f spec).2 := by
  fun_cases Lifecycle.defineKnown json db f spec
  · exact hinv.defineNew hs
  · exact hinv.defineNew hs
  · exact hinv
  · rename_i cur hcur _ hsame g hg
    obtain ⟨rfl, hsound, -⟩ := Facade.replace_eq_ok hg
    refine hinv.put_same hsound fun u hu => ?_
    obtain ⟨t, ht, htable⟩ := table_eq_of_sameDynamicEncoding json hsame hu
    exact ⟨cur, t, hcur, ht, htable⟩
  · -- a spec that only adds to the registered one keeps its table
    rename_i cur hcur _ _ hadd
    refine hinv.alter fun u hu => ?_
    have hchange := (Bool.and_eq_true_iff.mp hadd).2
    unfold additiveDynamicChange at hchange
    split at hchange
    · rename_i cs ns hcs hns
      obtain rfl := some.inj (hns.symm.trans hu)
      have htable : cs.table = ns.table := by
        simpa using (Bool.and_eq_true_iff.mp hchange).1
      exact hinv.guarded spec.name _ ⟨cur, cs, hcur, hcs, htable⟩
    · cases hchange
  · exact hinv.defineNew hs

/-- The tables of the registered types and of the rows belong to one type each. -/
def RowsApart (json : Json β) (rows : List (Record β)) (f : Facade) : Prop :=
  Disjoint fun n t => Uses f n t ∨ Describes json rows n t

theorem Inv.syncApart {rows : List (Record β)} (hinv : Inv Any f) (hrows : RowsApart json rows f)
    (ensureRow : String → Bool) : Inv Any (syncPersistedDynamic json ensureRow rows f).facade :=
  ((hinv.of_any fun _ _ => .inl).sync hrows (fun _ _ => .inr) _).any

theorem Inv.define (hinv : Inv Any f)
    (hrows : ∀ rows ∈ db.rows, f.get spec.name = none → RowsApart json rows f) :
    Inv Any (defineDynamic json db store f spec).2 := by
  have hsome : assertDynamicAggregate spec = none → ∃ s, spec.schema = some s := by
    unfold assertDynamicAggregate
    cases spec.schema <;> simp
  fun_cases defineDynamic json db store f spec <;> try exact hinv
  all_goals obtain ⟨s, hs⟩ := hsome ‹_›
  · exact hinv.defineNew hs
  · exact hinv.defineKnown hs
  all_goals
    rename_i hget rows hload _ _
    have hsync := hinv.syncApart (hrows rows hload (by simpa using hget)) db.ensureRow
  · exact hsync
  · exact hsync.defineKnown hs

inductive Action (β : Type)
  | define (db : Database β) (store : Bool) (spec : EntitySpec)
  | alter (db : Database β) (store : Bool) (spec : EntitySpec)
  | drop (db : Database β) (store : Bool) (name : String)
  | sync (db : Database β)

def step (json : Json β) (f : Facade) : Action β → Option Facade
  | .define db store spec => some (defineDynamic json db store f spec).2
  | .alter db store spec => some (alterDynamic json db store f spec).2
  | .drop db store name => some (Lifecycle.dropDynamic json db store f name).2
  | .sync db =>
    match db.rows with
    | none => some f
    | some rows => some (syncPersistedDynamic json db.ensureRow rows f).facade

/-- An alter names a guarded table, and a table that stops being guarded is used by one type
only. -/
def OwnTables (json : Json β) (f : Facade) : Action β → Prop
  | .define db _ spec => ∀ rows ∈ db.rows, f.get spec.name = none → RowsApart json rows f
  | .alter _ _ spec => ∀ s, spec.schema = some s → s.table ∈ f.guarded
  | .drop _ _ name => ∀ t, Uses f name t → ∀ n, Uses f n t → n = name
  | .sync db => ∀ rows ∈ db.rows, RowsApart json rows f

theorem Inv.step {f' : Facade} {a : Action β} (hinv : Inv Any f) (hok : OwnTables json f a)
    (hstep : step json f a = some f') : Inv Any f' := by
  revert hok hstep
  fun_cases Guarded.step json f a <;> rintro hok ⟨⟩
  · exact hinv.define hok
  · exact hinv.alter hok
  · exact hinv.dropDynamic hok
  · exact hinv
  · rename_i hrows
    exact hinv.syncApart (hok _ hrows) _

/-- What `Open` leaves: the types registered in code, their tables guarded. -/
def opened (specs : List EntitySpec) : Facade where
  registry := specs.map fun spec => (spec.name, spec)
  guarded := specs.map fun spec => (Spec.bind spec).table

theorem inv_opened {specs : List EntitySpec} (hsound : ∀ spec ∈ specs, problems spec = []) :
    Inv Any (opened specs) := by
  have hmem : ∀ n spec, (opened specs).get n = some spec → spec ∈ specs ∧ spec.name = n := by
    intro n spec hget
    obtain ⟨p, hp, heq⟩ := mem_map.mp (mem_of_lookup hget)
    cases heq
    exact ⟨hp, rfl⟩
  refine ⟨fun n spec hget => ⟨(hmem n spec hget).2, hsound spec (hmem n spec hget).1⟩, ?_,
    fun _ _ _ => trivial⟩
  rintro n t ⟨spec, s, hget, hs, rfl⟩
  refine mem_map.mpr ⟨spec, (hmem n spec hget).1, ?_⟩
  simp [Spec.bind, hs]

/-- In every such run, the table of every registered dynamic type is guarded. -/
theorem dynamic_tables_guarded {specs : List EntitySpec} {trace : List (Action β)} {f : Facade}
    (hsound : ∀ spec ∈ specs, problems spec = [])
    (hok : Along (Guarded.step json) (OwnTables json) (opened specs) trace)
    (hrun : run (Guarded.step json) (opened specs) trace = some f) {n : String} {spec : EntitySpec}
    {s : DynamicSchema} (hget : f.get n = some spec) (hs : spec.schema = some s) :
    s.table ∈ f.guarded := by
  have hinv : Inv Any f := run_invariant (fun _ _ _ => Inv.step) (inv_opened hsound) hok hrun
  exact hinv.guarded n s.table ⟨spec, s, hget, hs, rfl⟩

end

def ticket : EntitySpec :=
  { name := "ticket", schema := some { table := "ds_ticket" } }

def moved : EntitySpec :=
  { ticket with schema := some { table := "ds_ticket2" } }

def titled : EntitySpec :=
  { ticket with schema := some { table := "ds_ticket", columns := [⟨"title", .text, true, ""⟩] } }

def note : EntitySpec :=
  { name := "note", schema := some { table := "ds_note" } }

def noteRows : List (Record PersistedSpec) :=
  (encodePersisted note).toList.map fun b => ⟨"note", b, 2⟩

/-- The types with their tables, registered and persisted. -/
def tables (rows : List (Record PersistedSpec)) (f : Facade) : List (String × String) :=
  (f.registry ++ rows.filterMap fun r => (decodeRow plainJson r).map (r.name, ·)).filterMap
    fun p => p.2.schema.map fun s => (p.1, s.table)

theorem rowsApart_of_tables {rows : List (Record PersistedSpec)} {f : Facade}
    (h : ∀ p ∈ tables rows f, ∀ q ∈ tables rows f, p.2 = q.2 → p.1 = q.1) :
    RowsApart plainJson rows f := by
  have hmem : ∀ n t, Uses f n t ∨ Describes plainJson rows n t → (n, t) ∈ tables rows f := by
    intro n t hn
    rw [tables, mem_filterMap]
    rcases hn with ⟨spec, s, hget, hs, rfl⟩ | ⟨r, hr, rfl, spec, s, hspec, hs, rfl⟩
    · exact ⟨(n, spec), mem_append_left _ (mem_of_lookup hget), by simp [hs]⟩
    · exact ⟨(r.name, spec), mem_append_right _ (mem_filterMap.mpr ⟨r, hr, by simp [hspec]⟩),
        by simp [hs]⟩
  exact fun n m t hn hm => h (n, t) (hmem n t hn) (m, t) (hmem m t hm) rfl

def lifecycle : List (Action PersistedSpec) :=
  [.define {} false ticket, .define {} false { note with name := "memo" }, .alter {} false titled,
    .drop {} false "memo", .sync { rows := some noteRows }]

theorem lifecycle_guarded : ∃ f, run (step plainJson) (opened []) lifecycle = some f ∧
    f.get "note" = some note ∧ "ds_note" ∈ f.guarded := by
  have hok : Along (step plainJson) (OwnTables plainJson) (opened []) lifecycle := by
    refine ⟨nofun, fun f hf => ⟨nofun, fun g hg => ⟨?_, fun h hh => ⟨?_, fun i hi => ⟨?_, ?_⟩⟩⟩⟩⟩
    · cases hf
      cases hg
      rintro s ⟨⟩
      decide +kernel
    · cases hf
      cases hg
      cases hh
      have hapart : ∀ f, _ → RowsApart plainJson [] f := fun _ => rowsApart_of_tables
      exact fun t ht n hn => hapart _ (by decide +kernel) n _ t (.inl hn) (.inl ht)
    · cases hf
      cases hg
      cases hh
      cases hi
      rintro rows ⟨⟩
      exact rowsApart_of_tables (by decide +kernel)
    · exact fun _ _ => trivial
  have hget : (run (step plainJson) (opened []) lifecycle).bind (·.get "note") = some note := by
    decide +kernel
  exact ⟨_, rfl, hget, dynamic_tables_guarded (by simp) hok rfl hget rfl⟩

theorem altered_table_unguarded :
    (run (step plainJson) (opened []) [.define {} false ticket, .alter {} false moved]).map
      (fun f => (f.get "ticket", f.guarded)) = some (some moved, ["ds_ticket"]) := by
  decide +kernel

end Fabriq.Dynamic.Guarded
