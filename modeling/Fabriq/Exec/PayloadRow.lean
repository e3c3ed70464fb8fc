import Fabriq.Exec.OutboxVersions

namespace Fabriq.Exec.PayloadRow

open Core.Schema Core.Value Exec.CommandStore Exec.OutboxVersions Exec.Recreate Lib Lib.Assoc
open Lib.Result
open List Option

def isReservedColumn (column : String) : Bool :=
  column == columnId || column == columnTenant || column == columnVersion

/-- What the command plane takes from a deployment: the registry, the conversion to the type of a
dynamic column, and the validation of an entity. -/
structure Deployment where
  reg : Registry
  coerceToColumn : Entity → String → Json → Option Json
  validate : Entity → Fields → Bool

/-- `CoerceRow`: the values of a struct are typed already. -/
def coerceRow (d : Deployment) (entity : Entity) (vals : Fields) : Option Fields :=
  if entity.dynamic then
    vals.mapM fun field =>
      if isReservedColumn field.1 then some field
      else (d.coerceToColumn entity field.1 field.2).map fun v => (field.1, v)
  else some vals

def Deployment.executor (d : Deployment) : Executor where
  reg := d.reg
  coerce := fun entity vals => (coerceRow d entity vals).filter fun coerced =>
    d.validate entity coerced

/-- The run commits a batch that takes the tables from `s` to `t` by this request. -/
def Applies (x : Executor) (batches : List (List Request)) (s : Plane) (r : Request)
    (t : Plane) : Prop :=
  ∃ before first rest after, batches = before ++ (first ++ r :: rest) :: after ∧
    (execBatch x (runBatches x before) (first ++ r :: rest)).isOk = true ∧
    execBatch x (runBatches x before) first = .ok s ∧ execBatch x s [r] = .ok t

/-- The event holds every column of the aggregate's row, with its value. -/
def PayloadIsRow (entity : Entity) (env : Envelope) (db : Db) : Prop :=
  ∃ row ∈ db.rows, rowIdentity row = (env.tenantId, env.aggregate, env.aggId) ∧
    ∀ column ∈ entity.columns, env.payload.lookup column = row.vals.lookup column

def stamps (entity : Entity) (caller : Caller) (column : String) : Bool :=
  isReservedColumn column ||
    (column == columnScope && caller.scope != "" && entity.hasColumn columnScope)

/-- A command on a dynamic entity whose payload has a value for every column. -/
def suppliesColumns (entity : Entity) (r : Request) : Bool :=
  !entity.dynamic || entity.columns.all fun column =>
    stamps entity r.caller column || ((r.cmd.payload.getD []).lookup column).isSome

/-- The hooks of the model and the types of the columns leave the values as they are written. -/
def KeepsValues (entity : Entity) (written : Fields) : Prop :=
  ∀ column ∈ entity.columns, ∀ v, written.lookup column = some v →
    entity.stored written column v = v

variable {db after : Db} {p : Prepared} {vals : Fields} {column : String} {version : Int}

theorem isSome_values_iff (hvals : p.vals = some vals) : ((p.values version).lookup column).isSome ↔
      isReservedColumn column ∨
        (column = columnScope ∧ p.scopeId ≠ "" ∧ p.entity.hasColumn columnScope) ∨
        (vals.lookup column).isSome := by
  simp only [Prepared.values, Prepared.stampedValues, hvals, map_some, getD_some,
    isReservedColumn, Bool.or_eq_true, beq_iff_eq]
  by_cases hscoped : p.scopeId ≠ "" ∧ p.entity.hasColumn columnScope
  · rw [if_pos hscoped]
    simp only [lookup_put]
    split_ifs <;> simp_all
  · rw [if_neg hscoped]
    simp only [lookup_put]
    split_ifs <;> simp_all

theorem lookup_values_id (hvals : p.vals = some vals) :
    (p.values version).lookup columnId = some (.str p.aggId) := by
  have hversion : columnId ≠ columnVersion := by decide
  have htenant : columnId ≠ columnTenant := by decide
  have hscope : columnId ≠ columnScope := by decide
  simp only [Prepared.values, Prepared.stampedValues, hvals, map_some, getD_some]
  split_ifs <;>
    simp only [lookup_put, if_neg hversion, if_neg htenant, if_neg hscope, if_pos]

variable {entity : Entity}

theorem lookup_tableRow {base : String → Json} {sets : Fields} (h : column ∈ entity.columns) :
    (tableRow entity base vals sets).lookup column =
      some (((sets.lookup column).map (entity.stored vals column)).getD (base column)) :=
  Assoc.lookup_graph _ h

/-- What a column holds after a write of these values. -/
def storedValue (p : Prepared) (version : Int) (column : String) (old : Json) : Json :=
  (((p.values version).lookup column).map (p.entity.stored (p.values version) column)).getD old

theorem storedValue_id (hvals : p.vals = some vals) (old : Json) :
    storedValue p version columnId old = .str p.aggId := by
  rw [storedValue, lookup_values_id hvals, map_some, getD_some, p.entity.stored_id]

def IdColumn (reg : Registry) (db : Db) : Prop :=
  ∀ r ∈ db.rows, ∀ entity, reg.get r.entity = some entity → columnId ∈ entity.columns →
    r.vals.lookup columnId = some (.str r.id)

variable {reg : Registry}

theorem lookup_updated {r : StoredRow} (version : Int) (hid : IdColumn reg db)
    (hget : reg.get p.entity.name = some p.entity) (hvals : p.vals = some vals) (hr : r ∈ db.rows)
    (haddr : p.addresses r) (hcolumn : column ∈ p.entity.columns) :
    ∃ old, (p.updated r (p.values version)).lookup column =
      some (storedValue p version column old) := by
  unfold Prepared.updated
  split_ifs
  · rw [lookup_tableRow hcolumn, lookup_drop]
    by_cases hcol : column = columnId
    · subst hcol
      obtain ⟨hentity, hrow, -⟩ := addresses_iff.mp haddr
      have hheld := hid r hr p.entity (hentity ▸ hget) hcolumn
      rw [if_pos rfl, hheld, hrow]
      exact ⟨.null, congrArg some (storedValue_id hvals .null).symm⟩
    · rw [if_neg hcol]
      exact ⟨_, rfl⟩
  · exact ⟨_, lookup_tableRow hcolumn⟩

theorem lookup_inserted (version : Int) (hcolumn : column ∈ p.entity.columns) :
    ∃ old, (p.inserted (p.values version)).lookup column =
      some (storedValue p version column old) :=
  ⟨_, lookup_tableRow hcolumn⟩

theorem lookup_written {verb : Verb} {rows : List StoredRow} {row : StoredRow}
    (hgapless : Gapless db) (hid : IdColumn reg db) (hget : reg.get p.entity.name = some p.entity)
    (hvals : p.vals = some vals) (hrew : Rewrites db p verb rows) (hrow : row ∈ rows)
    (hident : rowIdentity row = preparedIdentity p) (hcolumn : column ∈ p.entity.columns) :
    ∃ old, row.vals.lookup column =
      some (storedValue p (currentVersion db p + 1) column old) := by
  have hother : ∀ r ∈ db.rows, p.addresses r = false → currentVersion db p ≠ 0 →
      rowIdentity r ≠ preparedIdentity p := by
    intro r hr haddr hstored hsame
    rw [hgapless.addresses_of_identity hstored hr hsame] at haddr
    exact Bool.false_ne_true haddr.symm
  cases hrew with
  | created hzero habsent =>
    rcases mem_append.mp hrow with hold | hnew
    · simp only [rowIdentity, preparedIdentity, Prod.mk.injEq] at hident
      exact absurd hident.2 (habsent row hold)
    · rw [mem_singleton.mp hnew, hzero, zero_add]
      exact lookup_inserted 1 hcolumn
  | updated hstored =>
    obtain ⟨r, hr, rfl⟩ := mem_map.mp hrow
    cases haddr : p.addresses r with
    | true =>
      exact lookup_updated _ hid hget hvals hr haddr hcolumn
    | false =>
      rw [haddr, if_neg Bool.false_ne_true] at hident
      exact absurd hident (hother r hr haddr hstored)
  | deleted hstored =>
    obtain ⟨hr, hkept⟩ := mem_filter.mp hrow
    exact absurd hident (hother row hr (by simpa using hkept) hstored)

variable {d : Deployment} {r : Request}

theorem prepared_fields {x : Executor} (h : r.prepare x = .ok p) :
    payloadValues x r.caller p.entity r.cmd = .ok p.vals ∧ p.op = r.cmd.op := by
  obtain ⟨entity, -, h⟩ := bind_eq_ok.mp h
  obtain ⟨aggId, -, h⟩ := bind_eq_ok.mp h
  obtain ⟨vals, hvals, h⟩ := bind_eq_ok.mp h
  cases h
  exact ⟨hvals, rfl⟩

theorem coerced_of_prepare {x : Executor} (h : r.prepare x = .ok p) (hvals : p.vals = some vals) :
    ∃ payload, r.cmd.payload = some payload ∧
      x.coerce p.entity (valuesByColumn p.entity payload) = some vals := by
  have hpayload := (prepared_fields h).1
  rw [hvals] at hpayload
  revert hpayload
  fun_cases payloadValues x r.caller p.entity r.cmd <;> intro hpayload <;> try cases hpayload
  refine ⟨_, ‹_›, ?_⟩
  rename_i payload _ _
  cases hprep : prepareVals x r.caller p.entity payload with
  | error e => simp [hprep, Except.map] at hpayload
  | ok found =>
    rw [hprep] at hpayload
    obtain rfl := some.inj (Except.ok.inj hpayload)
    revert hprep
    fun_cases prepareVals x r.caller p.entity payload <;> rintro ⟨⟩
    assumption

theorem keys_coerceRow {coerced : Fields} (h : coerceRow d entity vals = some coerced) :
    coerced.map Prod.fst = vals.map Prod.fst := by
  unfold coerceRow at h
  split_ifs at h
  · refine map_of_mapM (fun field out hout => ?_) h
    split_ifs at hout
    · rw [some.inj hout]
    · obtain ⟨v, -, rfl⟩ := map_eq_some_iff.mp hout
      rfl
  · rw [some.inj h]

theorem mem_keys_valuesByColumn {payload : Fields} (hcolumn : column ∈ entity.columns) :
    column ∈ (valuesByColumn entity payload).map Prod.fst ↔
      entity.dynamic = false ∨ column ∈ payload.map Prod.fst := by
  have hhas : entity.hasColumn column := by simpa [Entity.hasColumn] using hcolumn
  unfold valuesByColumn
  cases entity.dynamic with
  | true =>
    rw [if_pos rfl, List.mem_map, List.mem_map]
    constructor
    · rintro ⟨field, hfield, rfl⟩
      exact .inr ⟨field, mem_of_mem_filter hfield, rfl⟩
    · rintro (hfalse | ⟨field, hfield, rfl⟩)
      · exact absurd hfalse.symm Bool.false_ne_true
      · exact ⟨field, mem_filter.mpr ⟨hfield, hhas⟩, rfl⟩
  | false =>
    simpa using hcolumn

theorem values_complete_iff (hprepare : r.prepare d.executor = .ok p)
    (hvals : p.vals = some vals) (version : Int) :
    (∀ column ∈ p.entity.columns, ((p.values version).lookup column).isSome) ↔
      suppliesColumns p.entity r := by
  obtain ⟨payload, hpayload, hcoerce⟩ := coerced_of_prepare hprepare hvals
  have hkeys := keys_coerceRow (filter_eq_some_iff.mp hcoerce).1
  have hscope := (prepare_eq_ok hprepare).2.1
  have hone : ∀ column ∈ p.entity.columns, ((p.values version).lookup column).isSome ↔
        p.entity.dynamic = false ∨ stamps p.entity r.caller column ∨
          (payload.lookup column).isSome := by
    intro column hcolumn
    rw [isSome_values_iff hvals, isSome_lookup_iff, hkeys, mem_keys_valuesByColumn hcolumn,
      isSome_lookup_iff, stamps, hscope]
    simp only [Bool.or_eq_true, Bool.and_eq_true, beq_iff_eq, bne_iff_ne, and_assoc]
    tauto
  rw [suppliesColumns, hpayload, getD_some, Bool.or_eq_true, Bool.not_eq_true', List.all_eq_true]
  constructor
  · intro h
    cases hdynamic : p.entity.dynamic with
    | false => exact .inl rfl
    | true =>
      refine Or.inr fun column hcolumn => ?_
      have hsupplied := (hone column hcolumn).mp (h column hcolumn)
      rw [hdynamic] at hsupplied
      exact Bool.or_eq_true_iff.mpr (hsupplied.resolve_left Bool.false_ne_true.symm)
  · rintro (hstruct | hall) column hcolumn
    · exact (hone column hcolumn).mpr (.inl hstruct)
    · exact (hone column hcolumn).mpr (.inr (Bool.or_eq_true_iff.mp (hall column hcolumn)))

variable {x : Executor} {batches : List (List Request)} {s t : Plane}

theorem execBatch_singleton (h : execBatch x s [r] = .ok t) :
    ∃ p env, r.prepare x = .ok p ∧ Applied s.db p t.db env ∧ t.changes = s.changes ++ [env] := by
  obtain ⟨prepared, hprep, hfold⟩ := bind_eq_ok.mp h
  rw [mapM_cons] at hprep
  obtain ⟨p, hp, hprep⟩ := bind_eq_ok.mp hprep
  cases hprep
  obtain ⟨u, hnext, hrest⟩ := bind_eq_ok.mp hfold
  cases hrest
  obtain ⟨env, happly, hchanges⟩ := applyNext_eq_ok hnext
  exact ⟨p, env, hp, apply_eq_ok happly, hchanges⟩

theorem Applies.invariant {P : Plane → Prop} (h : Applies x batches s r t) (hempty : P .empty)
    (hstep : ∀ s p t env, (∃ r : Request, r.prepare x = .ok p) → P s →
      Applied s.db p t.db env → P t) : P s := by
  obtain ⟨before, first, rest, after, -, -, hfirst, -⟩ := h
  have hnext : ∀ s p t, (∃ r : Request, r.prepare x = .ok p) → P s →
      applyNext s p = .ok t → P t := by
    intro s p t hp hs hnext
    obtain ⟨env, happly, -⟩ := applyNext_eq_ok hnext
    exact hstep s p t env hp hs (apply_eq_ok happly)
  have hbefore : P (runBatches x before) := by
    refine runBatches_invariant hempty ?_
    rintro s p t ⟨batch, -, r, -, hr⟩
    exact hnext s p t ⟨r, hr⟩
  obtain ⟨prepared, hprep, hfold⟩ := bind_eq_ok.mp hfirst
  refine foldlM_invariant (fun s p t hp => ?_) hbefore hfold
  obtain ⟨r, -, hr⟩ := exists_of_mapM hprep hp
  exact hnext s p t ⟨r, hr⟩

variable {env : Envelope}

theorem vals_of_verb (hprepare : r.prepare x = .ok p) (happlied : Applied db p after env)
    (hverb : env.verb ≠ .deleted) : ∃ vals, p.vals = some vals := by
  refine ne_none_iff_exists'.mp fun hnone => hverb ?_
  rw [happlied.env_eq, change, (prepare_eq_ok hprepare).2.2 hnone]
  rfl

theorem IdColumn.apply (hid : IdColumn reg db) (hget : reg.get p.entity.name = some p.entity)
    (hvals : env.verb ≠ .deleted → ∃ vals, p.vals = some vals) (happlied : Applied db p after env) :
    IdColumn reg after := by
  have hrew := happlied.rows
  intro r hr entity hentity hcolumn
  generalize after.rows = rows at hr hrew
  generalize env.verb = verb at hvals hrew
  cases hrew with
  | created =>
    rcases mem_append.mp hr with hold | hnew
    · exact hid r hold entity hentity hcolumn
    · obtain ⟨vals, hvals⟩ := hvals (by decide)
      rw [mem_singleton.mp hnew] at hentity ⊢
      obtain rfl := some.inj (hget.symm.trans hentity)
      obtain ⟨old, hold⟩ := lookup_inserted (p := p) 1 hcolumn
      rw [storedValue_id hvals] at hold
      exact hold
  | updated =>
    obtain ⟨vals, hvals⟩ := hvals (by decide)
    obtain ⟨r, hold, rfl⟩ := mem_map.mp hr
    cases haddr : p.addresses r with
    | true =>
      rw [if_pos haddr] at hentity
      obtain rfl := some.inj (hget.symm.trans hentity)
      obtain ⟨old, hlookup⟩ := lookup_updated _ hid hget hvals hold
        haddr hcolumn
      rw [storedValue_id hvals] at hlookup
      exact hlookup
    | false =>
      rw [haddr, if_neg Bool.false_ne_true] at hentity
      exact hid r hold entity hentity hcolumn
  | deleted => exact hid r (mem_of_mem_filter hr) entity hentity hcolumn

theorem exists_written (happlied : Applied db p after env) (hverb : env.verb ≠ .deleted) :
    ∃ row ∈ after.rows, rowIdentity row = preparedIdentity p := by
  have hrew := happlied.rows
  generalize after.rows = rows at hrew ⊢
  generalize env.verb = verb at hverb hrew
  cases hrew with
  | created => exact ⟨_, mem_append_right _ (mem_singleton.mpr rfl), rfl⟩
  | updated hstored =>
    unfold currentVersion at hstored
    split at hstored
    · rename_i r hr
      refine ⟨_, mem_map.mpr ⟨r, mem_of_find?_eq_some hr, rfl⟩, ?_⟩
      rw [if_pos (find?_some hr)]
      rfl
    · exact absurd rfl hstored
  | deleted => exact absurd rfl hverb

theorem get_of_prepare (h : r.prepare x = .ok p) : x.reg.get p.entity.name = some p.entity := by
  have hget := (prepare_eq_ok h).1
  rwa [Registry.name_of_get hget]

theorem invariants_of_applies {d : Deployment} {batches : List (List Request)} {s t : Plane}
    {r : Request} (h : Applies d.executor batches s r t) : IdColumn d.reg s.db ∧ Gapless s.db := by
  refine h.invariant (P := fun s => IdColumn d.reg s.db ∧ Gapless s.db)
    ⟨forall_mem_nil _, gapless_empty⟩ ?_
  rintro s p t env ⟨r, hr⟩ ⟨hid, hgapless⟩ happlied
  exact ⟨hid.apply (get_of_prepare hr) (vals_of_verb hr happlied) happlied, hgapless.apply happlied⟩

def forms : Deployment where
  reg := [{ name := "form", dynamic := true,
            columns := ["id", "tenant_id", "version", "title", "body"] }]
  coerceToColumn := fun _ _ v => some v
  validate := fun _ _ => true

def writeForm (op : Op) (payload : Fields) : Request :=
  ⟨⟨"acme", ""⟩, "new", ⟨"form", op, "f1", some payload, none⟩⟩

def newForm : Request :=
  writeForm .create [("title", .str "a"), ("body", .str "b")]

def retitled : Request :=
  writeForm .update [("title", .str "c")]

/-- `FsNode.normalizeMaps`, which both hooks call. -/
def normalizeMaps (column : String) (v : Json) : Json :=
  match v with
  | .null => if column = "metadata" ∨ column = "mount_config" then .obj [] else .null
  | v => v

theorem normalizeMaps_id (v : Json) : normalizeMaps columnId v = v := by
  unfold normalizeMaps
  split
  · exact if_neg (by decide)
  · rfl

def files : Deployment where
  reg := [{ name := "fs_node",
            columns := ["id", "tenant_id", "version", "name", "metadata", "mount_config"]
            stored := fun _ => normalizeMaps
            stored_id := fun _ => normalizeMaps_id }]
  coerceToColumn := fun _ _ v => some v
  validate := fun _ _ => true

def newNode (maps : Fields) : Request :=
  ⟨⟨"acme", ""⟩, "new", ⟨"fs_node", .create, "n1", some (("name", .str "a") :: maps), none⟩⟩

def mounted : Request :=
  newNode [("metadata", .obj [("kind", .str "a")]), ("mount_config", .obj [])]

end Fabriq.Exec.PayloadRow
