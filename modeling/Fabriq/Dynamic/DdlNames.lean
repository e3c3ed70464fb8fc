import Fabriq.Dynamic.SchemaEdits

/-!
The names in the statements of `EnsureDynamic`, which are not quoted, and in all others about a
dynamic table, which are.
-/

namespace Fabriq.Dynamic.DdlNames

open Dynamic.Spec Lib.Assoc List
open Provision.PhysicalNames (identifier)

/-- The columns of each table, all under the names Postgres keeps. -/
abbrev Tables := List (String × List String)

/-- What a name that is not quoted stands for. -/
def unquoted (name : String) : String :=
  identifier (String.ofList (name.toList.map Char.toLower))

/-- What `quoteIdent` of a name stands for. -/
def quoted (name : String) : String :=
  identifier name

def ddlValid (s : DynamicSchema) : Bool :=
  dynIdent s.table && s.columns.all (dynIdent ·.name) &&
    s.indexes.all fun i => dynIdent i.name && i.columns.all dynIdent

def newColumns (s : DynamicSchema) : List String :=
  structural ++ s.columns.map fun c => unquoted c.name

/-- `CREATE TABLE IF NOT EXISTS`, which refuses a column that stands there twice. -/
def createTable (db : Tables) (s : DynamicSchema) : Option (List String) :=
  match db.lookup (unquoted s.table) with
  | some columns => some columns
  | none => if (newColumns s).Nodup then some (newColumns s) else none

/-- `answers` is whether the statements about indexes and row security, and what else Postgres
may refuse, get through. -/
def ensureDynamic (answers : Bool) (db : Tables) (s : DynamicSchema) : Option Tables :=
  if ddlValid s && answers then
    -- then `ADD COLUMN IF NOT EXISTS` for every column
    (createTable db s).map fun columns => put db (unquoted s.table)
      (s.columns.foldl (fun columns c => columns.insert (unquoted c.name)) columns)
  else none

def dropDynamic (db : Tables) (table : String) : Option Tables :=
  if dynIdent table then some (drop db (quoted table)) else none

def columnsOf (db : Tables) (table : String) : List String :=
  (db.lookup table).getD []

def names (s : DynamicSchema) : List String :=
  structural ++ s.columns.map DynamicColumn.name

/-- What exists after `EnsureDynamic` is what the quoted names stand for. -/
structure SameObjects (db db' : Tables) (s : DynamicSchema) : Prop where
  columns : ∀ name ∈ names s, quoted name ∈ columnsOf db' (quoted s.table)
  made : ∀ table, ∀ column ∈ columnsOf db' table, column ∈ columnsOf db table ∨
    table = quoted s.table ∧ ∃ name ∈ names s, column = quoted name
  dropped : (dropDynamic db' s.table).map (List.lookup (unquoted s.table)) = some none

def hasUpper (name : String) : Bool :=
  name.toList.any Char.isUpper

/-- The table, if it is there, has the structural columns and was not made with quoted names. -/
def Managed (db : Tables) (s : DynamicSchema) : Prop :=
  ∀ columns ∈ db.lookup (unquoted s.table),
    structural ⊆ columns ∧ ∀ c ∈ columns, hasUpper c = false

variable {db db' : Tables} {s : DynamicSchema} {answers : Bool} {name : String}

theorem hasUpper_unquoted : hasUpper (unquoted name) = false := by
  simp only [hasUpper, unquoted, identifier, String.toList_ofList, any_eq_false]
  intro c hc hupper
  obtain ⟨d, -, rfl⟩ := List.mem_map.mp (mem_of_mem_take hc)
  have hrange : 'A'.val ≤ d.toLower.val ∧ _ := of_decide_eq_true hupper
  unfold Char.toLower at hrange
  grind

theorem unquoted_eq_quoted_iff : unquoted name = quoted name ↔ hasUpper (quoted name) = false := by
  constructor
  · intro h
    exact h ▸ hasUpper_unquoted
  · intro h
    simp only [hasUpper, quoted, identifier, String.toList_ofList, any_eq_false] at h
    rw [unquoted, quoted, identifier, identifier, String.toList_ofList, ← map_take]
    refine congrArg _ ((map_congr_left fun c hc => ?_).trans (map_id _))
    exact dif_neg fun hrange => h c hc (decide_eq_true hrange)

theorem mem_foldl_insert {cs : List DynamicColumn} {columns : List String} {x : String} :
    x ∈ cs.foldl (fun columns c => columns.insert (unquoted c.name)) columns ↔
      x ∈ columns ∨ x ∈ cs.map fun c => unquoted c.name := by
  induction cs generalizing columns with
  | nil => simp
  | cons c rest ih =>
    rw [foldl_cons, ih, mem_insert_iff, map_cons, mem_cons, or_assoc, or_left_comm]

theorem hasUpper_newColumns : ∀ c ∈ newColumns s, hasUpper c = false := by
  intro c hc
  rcases mem_append.mp hc with hc | hc
  · exact (by decide : ∀ c ∈ structural, hasUpper c = false) c hc
  · obtain ⟨col, -, rfl⟩ := mem_map.mp hc
    exact hasUpper_unquoted

theorem createTable_eq_some {columns : List String} (hmanaged : Managed db s)
    (h : createTable db s = some columns) : structural ⊆ columns ∧ ∀ c ∈ columns,
      hasUpper c = false ∧ (c ∈ columnsOf db (unquoted s.table) ∨ c ∈ newColumns s) := by
  revert h
  fun_cases createTable db s <;> rintro ⟨⟩
  · rename_i hdb
    obtain ⟨hstructural, hlower⟩ := hmanaged _ hdb
    exact ⟨hstructural, fun c hc => ⟨hlower c hc, .inl (by simpa [columnsOf, hdb])⟩⟩
  · exact ⟨subset_append_left .., fun c hc => ⟨hasUpper_newColumns c hc, .inr hc⟩⟩

theorem columnsOf_put {table : String} {columns : List String} {t : String} :
    columnsOf (put db table columns) t = if t = table then columns else columnsOf db t := by
  rw [columnsOf, lookup_put]
  split_ifs <;> rfl

/-- The quoted names stand for what `EnsureDynamic` made if and only if no name of the table and
its columns has an upper-case letter in the part that Postgres keeps. -/
theorem sameObjects_iff {answers : Bool} {db db' : Tables} {s : DynamicSchema}
    (hmanaged : Managed db s) (h : ensureDynamic answers db s = some db') :
    SameObjects db db' s ↔
      ∀ name ∈ s.table :: s.columns.map DynamicColumn.name, hasUpper (quoted name) = false := by
  obtain ⟨hvalid, h⟩ := Option.ite_none_right_eq_some.mp h
  obtain ⟨base, hbase, rfl⟩ := Option.map_eq_some_iff.mp h
  obtain ⟨hstructural, hfrom⟩ := createTable_eq_some hmanaged hbase
  have hident : dynIdent s.table := by simp_all [ddlValid]
  have hadded : ∀ c ∈ s.columns.map fun c => unquoted c.name, c ∈ newColumns s :=
    fun c => mem_append_right _
  constructor
  · intro hsame name hname
    have htable : unquoted s.table = quoted s.table := by
      by_contra hne
      simpa [dropDynamic, hident, lookup_drop, lookup_put, hne] using hsame.dropped
    rcases mem_cons.mp hname with rfl | hname
    · exact unquoted_eq_quoted_iff.mp htable
    · have hmem := hsame.columns name (mem_append_right _ hname)
      rw [← htable, columnsOf_put, if_pos rfl, mem_foldl_insert] at hmem
      exact hmem.elim (fun hc => (hfrom _ hc).1) fun hc => hasUpper_newColumns _ (hadded _ hc)
  · intro hnames
    obtain ⟨htable, hcolumns⟩ := forall_mem_cons.mp hnames
    have htable := unquoted_eq_quoted_iff.mpr htable
    -- structural names are lower-case, and so is every other name by assumption
    have hnew : newColumns s = (names s).map quoted := by
      rw [newColumns, names, map_append, map_map]
      exact congrArg₂ _ (by decide +kernel) (map_congr_left fun c hc =>
        unquoted_eq_quoted_iff.mpr (hcolumns _ (mem_map_of_mem hc)))
    refine ⟨fun name hname => ?_, fun t c hc => ?_, ?_⟩
    · rw [← htable, columnsOf_put, if_pos rfl, mem_foldl_insert]
      have hmem : quoted name ∈ newColumns s := hnew ▸ mem_map_of_mem hname
      exact (mem_append.mp hmem).imp_left fun hc => hstructural hc
    · rw [columnsOf_put] at hc
      split_ifs at hc with ht
      · have hc : c ∈ columnsOf db (unquoted s.table) ∨ c ∈ newColumns s :=
          (mem_foldl_insert.mp hc).elim (fun hc => (hfrom c hc).2) fun hc => .inr (hadded c hc)
        refine hc.imp (fun hold => ht ▸ hold) fun hc => ⟨ht.trans htable, ?_⟩
        obtain ⟨name, hname, heq⟩ := mem_map.mp (hnew ▸ hc)
        exact ⟨name, hname, heq.symm⟩
      · exact .inl hc
    · simp [dropDynamic, hident, lookup_drop, htable]

def schema (table : String) : DynamicSchema where
  table := table
  columns := [⟨"name", .text, false, ""⟩]

theorem sameObjects_asset :
    ∃ db, ensureDynamic true [] (schema "asset") = some db ∧ SameObjects [] db (schema "asset") :=
  ⟨_, rfl, (sameObjects_iff (by simp [Managed]) (rfl : ensureDynamic true _ _ = _)).mpr (by decide)⟩

/-- The table `Asset` is made as `asset`, and `DropDynamic` leaves it there. -/
theorem mixedCase_not_sameObjects :
    ∃ db, ensureDynamic true [] (schema "Asset") = some db ∧
      ¬ SameObjects [] db (schema "Asset") :=
  ⟨_, rfl, fun h => absurd h.dropped (by decide)⟩

end Fabriq.Dynamic.DdlNames
