import Fabriq.Dynamic.Spec
import Fabriq.Lib.Assoc

/-!
The lifecycle of dynamic types: the registry, the revisions this process loaded, and the
tables the tenant backstop guards.
-/

namespace Fabriq.Dynamic.Lifecycle

open Lib Dynamic.Spec Lib.Assoc

inductive DynamicError
  | notDynamic
  | notAggregate
  | invalid (e : SpecError)
  | registeredTwice
  | unknownEntity
  | modelled
  | encode
  | load
  | unloadable
  | ddl
  | save
  | delete
deriving DecidableEq

structure Facade where
  registry : List (String × EntitySpec) := []
  loaded : List (String × Int) := []
  guarded : List String := []
deriving DecidableEq

def Facade.get (f : Facade) (name : String) : Option EntitySpec :=
  f.registry.lookup name

def Facade.owned (f : Facade) (name : String) : Bool :=
  (f.loaded.lookup name).isSome

def Facade.put (f : Facade) (spec : EntitySpec) : Facade :=
  { f with registry := Assoc.put f.registry spec.name spec }

def Facade.setLoaded (f : Facade) (name : String) (revision : Int) : Facade :=
  { f with loaded := Assoc.put f.loaded name revision }

def Facade.addGuardedTable (f : Facade) (spec : EntitySpec) : Facade :=
  { f with guarded := (spec.schema.map DynamicSchema.table).toList ++ f.guarded }

def Facade.removeGuardedTable (f : Facade) (table : String) : Facade :=
  { f with guarded := f.guarded.filter (· ≠ table) }

def Facade.register (f : Facade) (spec : EntitySpec) : Except DynamicError Facade :=
  match validateAndBind spec with
  | .error e => .error (.invalid e)
  | .ok _ => if (f.get spec.name).isSome then .error .registeredTwice else .ok (f.put spec)

def Facade.replace (f : Facade) (spec : EntitySpec) : Except DynamicError Facade :=
  match validateAndBind spec, f.get spec.name with
  | .error e, _ => .error (.invalid e)
  | .ok _, none => .error .unknownEntity
  | .ok _, some cur =>
    if cur.schema.isNone then .error .notDynamic
    else if spec.schema.isNone then .error .modelled
    else .ok (f.put spec)

def Facade.unregister (f : Facade) (name : String) : Except DynamicError Facade :=
  match f.get name with
  | none => .error .unknownEntity
  | some cur =>
    if cur.schema.isNone then .error .notDynamic
    else .ok { f with registry := drop f.registry name }

def Facade.attempt (f : Facade) (call : Facade → Except DynamicError Facade) : Facade :=
  match call f with
  | .ok g => g
  | .error _ => f

structure Record (β : Type) where
  name : String
  spec : β
  revision : Int

/-- What the database answers to the statements of one operation.  Others write the persisted rows
too, so a pass finds any rows and a save returns any revision. -/
structure Database (β : Type) where
  rows : Option (List (Record β)) := none
  ensureRow : String → Bool := fun _ => true
  ensure : Bool := true
  save : Option Int := none
  delete : Bool := true
  dropTable : Bool := true

inductive Skip
  | invalidSpec
  | registeredInCode
  | refused (e : DynamicError)
  | ensureTable
deriving DecidableEq

structure SyncResult where
  added : List String := []
  updated : List String := []
  removed : List String := []
  skipped : List (String × Skip) := []
deriving DecidableEq

structure Pass where
  facade : Facade
  result : SyncResult := {}
deriving DecidableEq

def Pass.skip (p : Pass) (name : String) (reason : Skip) : Pass :=
  { p with result := { p.result with skipped := p.result.skipped ++ [(name, reason)] } }

variable {β : Type} (json : Json β)

def decodeRow (r : Record β) : Option EntitySpec :=
  (decodeDynamicSpec json r.spec).filter fun spec => spec.name = r.name

variable {f g : Facade} {s : DynamicSchema} {spec : EntitySpec}

theorem decodeRow_name {r : Record β} (h : decodeRow json r = some spec) :
    spec.name = r.name ∧ decodeDynamicSpec json r.spec = some spec := by
  obtain ⟨hspec, hname⟩ := Option.filter_eq_some_iff.mp h
  exact ⟨by simpa using hname, hspec⟩

def Pass.add (p : Pass) (ensured : Bool) (spec : EntitySpec) (revision : Int) : Pass :=
  match p.facade.register spec with
  | .error e => p.skip spec.name (.refused e)
  | .ok g =>
    if ensured then
      ⟨(g.addGuardedTable spec).setLoaded spec.name revision,
        { p.result with added := p.result.added ++ [spec.name] }⟩
    else
      let g := g.attempt (Facade.unregister · spec.name)
      { p.skip spec.name .ensureTable with
        facade := { g with loaded := drop g.loaded spec.name } }

/-- The fields the app attached may name a column the new revision dropped. -/
def Facade.replaceLoaded (f : Facade) (spec prev : EntitySpec) : Except DynamicError Facade :=
  match f.replace (withInProcessFields spec prev) with
  | .ok g => .ok g
  | .error _ => f.replace spec

/-- A row that moved under a type this process loaded as `prev`. -/
def Pass.update (p : Pass) (ensured : Bool) (spec prev : EntitySpec) (revision : Int) : Pass :=
  match p.facade.replaceLoaded spec prev with
  | .error e => p.skip spec.name (.refused e)
  | .ok g =>
    if ensured then
      let g := match prev.schema with
        | some s =>
          if spec.schema.map DynamicSchema.table = some s.table then g
          else g.removeGuardedTable s.table
        | none => g
      ⟨(g.addGuardedTable spec).setLoaded spec.name revision,
        { p.result with updated := p.result.updated ++ [spec.name] }⟩
    else { p.skip spec.name .ensureTable with facade := g.attempt (Facade.replace · prev) }

variable [DecidableEq β]

def syncRow (ensureRow : String → Bool) (p : Pass) (r : Record β) : Pass :=
  match decodeRow json r with
  | none => p.skip r.name .invalidSpec
  | some spec =>
    match p.facade.get r.name, p.facade.loaded.lookup r.name with
    | none, _ => p.add (ensureRow r.name) spec r.revision
    | some _, none => p.skip r.name .registeredInCode
    | some cur, some known =>
      if r.revision = known ∧ sameDynamicEncoding json cur spec then p
      else p.update (ensureRow r.name) spec cur r.revision

def Pass.remove (p : Pass) (name : String) : Pass :=
  let f := match p.facade.get name with
    | some ent =>
      match ent.schema with
      | some s => (p.facade.removeGuardedTable s.table).attempt (Facade.unregister · name)
      | none => p.facade
    | none => p.facade
  ⟨{ f with loaded := drop f.loaded name },
    { p.result with removed := p.result.removed ++ [name] }⟩

def gone (rows : List (Record β)) (f : Facade) : List String :=
  (f.loaded.map Prod.fst).filter fun name => name ∉ rows.map Record.name

/-- The names of the result are listed as they come up; the source sorts them. -/
def syncPersistedDynamic (ensureRow : String → Bool) (rows : List (Record β)) (f : Facade) : Pass :=
  let p := rows.foldl (syncRow json ensureRow) ⟨f, {}⟩
  (gone rows p.facade).foldl Pass.remove p

def assertDynamicAggregate (spec : EntitySpec) : Option DynamicError :=
  if spec.schema.isNone then some .notDynamic
  else if spec.kind ≠ .aggregate then some .notAggregate
  else none

variable (db : Database β)

abbrev Outcome := Except DynamicError Unit × Facade

def alterDynamic (store : Bool) (f : Facade) (spec : EntitySpec) : Outcome :=
  match assertDynamicAggregate spec, f.get spec.name with
  | some e, _ => (.error e, f)
  | none, none => (.error .unknownEntity, f)
  | none, some prev =>
    let persist := store && f.owned spec.name
    if persist && (encodeDynamicSpec json spec).isNone then (.error .encode, f)
    else
      match f.replace spec with
      | .error e => (.error e, f)
      | .ok g =>
        if db.ensure = false then (.error .ddl, g.attempt (Facade.replace · prev))
        else if persist then
          match db.save with
          | none => (.error .save, g)
          | some revision => (.ok (), g.setLoaded spec.name revision)
        else (.ok (), g)

/-- Columns and indexes of `next` under the names of `cur`; of two with one name the last. -/
def project (cur next : DynamicSchema) : Option DynamicSchema := do
  let columns ← cur.columns.mapM fun c => next.columns.reverse.find? (·.name = c.name)
  let indexes ← cur.indexes.mapM fun i => next.indexes.reverse.find? (·.name = i.name)
  return { next with columns, indexes }

def additiveDynamicChange (cur next : EntitySpec) : Bool :=
  match cur.schema, next.schema with
  | some cs, some ns =>
    decide (cs.table = ns.table) && (project cs ns).elim false fun sc =>
      sameDynamicEncoding json cur { next with schema := some sc }
  | _, _ => false

/-- The path of `defineDynamic` for a name that is not adopted from the registry. -/
def defineNew (store : Bool) (f : Facade) (spec : EntitySpec) : Outcome :=
  if store && (encodeDynamicSpec json spec).isNone then (.error .encode, f)
  else
    match f.register spec with
    | .error e => (.error e, f)
    | .ok g =>
      if db.ensure = false then (.error .ddl, g.attempt (Facade.unregister · spec.name))
      else if store then
        match db.save with
        | none => (.error .save, g.attempt (Facade.unregister · spec.name))
        | some revision =>
          (.ok (), (g.setLoaded spec.name revision).addGuardedTable spec)
      else (.ok (), g.addGuardedTable spec)

/-- With a store: a name that is registered, by this process or by the sync before. -/
def defineKnown (f : Facade) (spec : EntitySpec) : Outcome :=
  match f.get spec.name with
  | none => defineNew json db true f spec
  | some cur =>
    if cur.schema.isNone ∨ cur.kind ≠ .aggregate then defineNew json db true f spec
    else if sameDynamicEncoding json cur spec then
      match f.replace spec with
      | .error e => (.error e, f)
      | .ok g => (.ok (), g)
    else if f.owned spec.name && additiveDynamicChange json cur spec then
      alterDynamic json db true f spec
    else defineNew json db true f spec

def defineDynamic (store : Bool) (f : Facade) (spec : EntitySpec) : Outcome :=
  match assertDynamicAggregate spec with
  | some e => (.error e, f)
  | none =>
    if store = false then defineNew json db false f spec
    else if (f.get spec.name).isSome then defineKnown json db f spec
    else
      match db.rows with
      | none => (.error .load, f)
      | some rows =>
        let p := syncPersistedDynamic json db.ensureRow rows f
        if (p.result.skipped.lookup spec.name).isSome then (.error .unloadable, p.facade)
        else defineKnown json db p.facade spec

def dropDynamic (store : Bool) (f : Facade) (name : String) : Outcome :=
  match f.get name with
  | none => (.error .unknownEntity, f)
  | some ent =>
    match assertDynamicAggregate ent, ent.schema with
    | none, some s =>
      let persisted := store && f.owned name
      if persisted && !db.delete then (.error .delete, f)
      else if db.dropTable = false then
        match persisted && (encodeDynamicSpec json ent).isSome, db.save with
        | true, some revision => (.error .ddl, f.setLoaded name revision)
        | _, _ => (.error .ddl, f)
      else
        let g := { f.removeGuardedTable s.table with loaded := drop f.loaded name }
        match g.unregister name with
        | .error e => (.error e, g)
        | .ok h => (.ok (), h)
    | some e, _ => (.error e, f)
    | none, none => (.error .notDynamic, f)

theorem Facade.get_put {n : String} :
    (f.put spec).get n = if n = spec.name then some spec else f.get n :=
  Assoc.lookup_put

theorem Facade.register_eq_ok (h : f.register spec = .ok g) :
    g = f.put spec ∧ problems spec = [] ∧ f.get spec.name = none := by
  revert h
  fun_cases Facade.register f spec <;> rintro ⟨⟩
  rename_i hb hsome
  exact ⟨rfl, validateAndBind_isOk.mp ⟨_, hb⟩, by simpa using hsome⟩

theorem Facade.replace_eq_ok (h : f.replace spec = .ok g) :
    g = f.put spec ∧ problems spec = [] ∧ ∃ cur s t,
      f.get spec.name = some cur ∧ cur.schema = some s ∧ spec.schema = some t := by
  revert h
  fun_cases Facade.replace f spec <;> rintro ⟨⟩
  rename_i hcur hb hs ht
  obtain ⟨s, hs⟩ := Option.ne_none_iff_exists'.mp (by simpa using hs)
  obtain ⟨t, ht⟩ := Option.ne_none_iff_exists'.mp (by simpa using ht)
  exact ⟨rfl, validateAndBind_isOk.mp ⟨_, hb⟩, _, s, t, hcur, hs, ht⟩

theorem Facade.unregister_of_get {name : String} {ent : EntitySpec} (hent : f.get name = some ent)
    (hs : ent.schema = some s) :
    f.unregister name = .ok { f with registry := drop f.registry name } := by
  simp [Facade.unregister, hent, hs]

theorem Facade.replace_of_sound {cur : EntitySpec} {t : DynamicSchema}
    (hsound : problems spec = []) (hcur : f.get spec.name = some cur)
    (hs : cur.schema = some s) (ht : spec.schema = some t) : f.replace spec = .ok (f.put spec) := by
  obtain ⟨b, hb⟩ := validateAndBind_isOk.mpr hsound
  simp [Facade.replace, hb, hcur, hs, ht]

end Fabriq.Dynamic.Lifecycle
