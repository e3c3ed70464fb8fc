import Mathlib.Data.List.Nodup
import Fabriq.Dynamic.Lifecycle
import Fabriq.Provision.PhysicalNames

/-!
`RenameDynamicField` and `DropDynamicField`: the column of the table first, then the descriptor.
-/

namespace Fabriq.Dynamic.SchemaEdits

open Dynamic.Spec Dynamic.Lifecycle List Option
open Provision.PhysicalNames (identifier)

inductive Edit
  | rename (old new : String)
  | drop (column : String)

def Edit.column : Edit → String
  | .rename old _ => old
  | .drop column => column

def assertMutableColumn (column : String) : Bool :=
  decide (column ∉ structural) && dynIdent column

/-- `RenameDynamicColumn` and `DropDynamicColumn` on the managed columns of a table.  Postgres
shortens a name before it looks for it; `answers` is whether the statement gets through. -/
def Edit.ddl (answers : Bool) (table : String) (columns : List String) : Edit → Option (List String)
  | .rename old new =>
    if (dynIdent table && assertMutableColumn old && assertMutableColumn new && answers) = true ∧
        identifier old ∈ columns ∧ identifier new ∉ columns then
      some (columns.map fun c => if c = identifier old then identifier new else c)
    else none
  | .drop column =>
    if dynIdent table && assertMutableColumn column && answers then
      some (columns.filter (· ≠ identifier column))
    else none

/-- `cloneSpecRenamingColumn` and `cloneSpecDroppingColumn` on the schema. -/
def Edit.clone (s : DynamicSchema) : Edit → DynamicSchema
  | .rename old new =>
    { s with columns := s.columns.map fun c => if c.name = old then { c with name := new } else c }
  | .drop column => { s with columns := s.columns.filter (·.name ≠ column) }

/-- The facade, and the managed columns of the table of the type at hand. -/
structure Site where
  facade : Facade
  columns : List String
deriving DecidableEq

variable {β : Type} (json : Json β) (db : Database β)

def replaceAndPersist (store : Bool) (f : Facade) (next : EntitySpec) : Outcome :=
  match f.replace next with
  | .error e => (.error e, f)
  | .ok g =>
    if store && g.owned next.name then
      match encodeDynamicSpec json next, db.save with
      | some _, some revision => (.ok (), g.setLoaded next.name revision)
      | none, _ => (.error .encode, g)
      | some _, none => (.error .save, g)
    else (.ok (), g)

def editField (store : Bool) (site : Site) (name : String) (edit : Edit) :
    Except DynamicError Unit × Site :=
  match site.facade.get name with
  | none => (.error .unknownEntity, site)
  | some ent =>
    match assertDynamicAggregate ent, ent.schema with
    | none, some s =>
      match edit.ddl db.ensure s.table site.columns with
      | none => (.error .ddl, site)
      | some columns =>
        let next := { ent with schema := some (edit.clone s) }
        let out := replaceAndPersist json db store site.facade next
        (out.1, ⟨out.2, columns⟩)
    | some e, _ => (.error e, site)
    | none, none => (.error .notDynamic, site)

def renameDynamicField (store : Bool) (site : Site) (name old new : String) :
    Except DynamicError Unit × Site :=
  editField json db store site name (.rename old new)

def dropDynamicField (store : Bool) (site : Site) (name column : String) :
    Except DynamicError Unit × Site :=
  editField json db store site name (.drop column)

/-- The fields by which indexes, edges, search, scopes, live queries and the rest of a spec
refer to columns. -/
def references (spec : EntitySpec) : List String :=
  (checks spec).filterMap Check.field

/-- The registered spec of `name` lists the columns of the table, and refers to no other. -/
def Together (site : Site) (name : String) : Prop :=
  ∃ spec s, site.facade.get name = some spec ∧ spec.schema = some s ∧
    (∀ c, c ∈ s.columns.map DynamicColumn.name ↔ c ∈ site.columns) ∧
    ∀ f ∈ references spec, f ∈ structural ++ site.columns

/-- Postgres keeps the names whole, or has nothing under the shortened one to drop. -/
def Edit.Whole (columns : List String) : Edit → Prop
  | .rename old new => identifier old = old ∧ identifier new = new
  | .drop column => identifier column = column ∨ identifier column ∉ columns

variable {json db} {spec : EntitySpec} {s : DynamicSchema} {edit : Edit} {name : String}
  {site : Site} {columns : List String}

theorem problem_eq_none {c : Check} :
    c.problem columns = none ↔ (∀ b e, c = .rule b e → b = false) ∧ ∀ f ∈ c.field, f ∈ columns := by
  cases c <;> simp [Check.problem, Check.field]

theorem problems_eq_nil : problems spec = [] ↔ (∀ b e, .rule b e ∈ checks spec → b = false) ∧
      ∀ f ∈ references spec, f ∈ (bind spec).columns := by
  simp only [problems, filterMap_eq_nil_iff, problem_eq_none, references, mem_filterMap]
  constructor
  · intro h
    refine ⟨fun b e hmem => (h _ hmem).1 b e rfl, ?_⟩
    rintro f ⟨c, hc, hf⟩
    exact (h c hc).2 f hf
  · rintro ⟨hrules, hfields⟩ c hc
    exact ⟨fun b e heq => hrules b e (heq ▸ hc), fun f hf => hfields f ⟨c, hc, hf⟩⟩

def ColumnsOk (names : List String) : Prop :=
  names.Nodup ∧ ∀ c ∈ names, assertMutableColumn c = true

theorem columnChecks_rules {seen : List String} {cols : List DynamicColumn} :
    (∀ b e, .rule b e ∈ columnChecks seen cols → b = false) ↔
      ColumnsOk (cols.map DynamicColumn.name) ∧ ∀ c ∈ cols, c.name ∉ seen := by
  induction cols generalizing seen with
  | nil => simp [columnChecks, ColumnsOk]
  | cons c rest ih =>
    have hsplit : (∀ b e, .rule b e ∈ columnChecks seen (c :: rest) → b = false) ↔
        (assertMutableColumn c.name ∧ c.name ∉ seen) ∧
          ∀ b e, .rule b e ∈ columnChecks (c.name :: seen) rest → b = false := by
      simp [columnChecks, assertMutableColumn, or_imp, forall_and, and_assoc]
    rw [hsplit, ih]
    simp only [ColumnsOk, map_cons, nodup_cons, List.mem_map, mem_cons,
      forall_eq_or_imp, not_exists, not_and, not_or, forall_exists_index, and_imp,
      forall_apply_eq_imp_iff₂]
    grind

theorem columnChecks_fields {seen : List String} {cols : List DynamicColumn} :
    (columnChecks seen cols).filterMap Check.field = [] := by
  induction cols generalizing seen with
  | nil => rfl
  | cons c rest ih => rw [columnChecks, filterMap_append, ih]; rfl

theorem problems_withColumns (hs : spec.schema = some s) (hok : problems spec = [])
    (cols : List DynamicColumn) :
    (problems { spec with schema := some { s with columns := cols } } = [] ↔
      ColumnsOk (cols.map DynamicColumn.name) ∧
        ∀ f ∈ references spec, f ∈ structural ++ cols.map DynamicColumn.name) ∧
      references { spec with schema := some { s with columns := cols } } = references spec := by
  have hmodel : spec.model = none := by
    by_contra hsome
    obtain ⟨m, hm⟩ := ne_none_iff_exists'.mp hsome
    have hrule := (problems_eq_nil.mp hok).1 true .modelAndSchema (by simp [checks, bindChecks, hs, hm])
    cases hrule
  obtain ⟨before, after, hchecks⟩ : ∃ before after, ∀ cols,
      checks { spec with schema := some { s with columns := cols } } =
        before ++ columnChecks [] cols ++ after := by
    refine ⟨[.rule (decide (spec.name = "")) .emptyName,
      .rule (decide (spec.kind = .document ∧ spec.crdt = false)) .documentWithoutCrdt,
      .rule (!dynIdent s.table) (.table s.table)], indexChecks s ++ sectionChecks spec, fun cols => ?_⟩
    simp only [checks, bindChecks, hmodel, append_assoc, cons_append, nil_append]
    rfl
  have hself : { spec with schema := some { s with columns := s.columns } } = spec := by
    rw [← hs]
  have hrefs : ∀ cols, references { spec with schema := some { s with columns := cols } } =
      (before ++ after).filterMap Check.field := by
    intro cols
    simp [references, hchecks, columnChecks_fields]
  have hspec := hrefs s.columns
  rw [hself] at hspec
  have hrules : ∀ b e, .rule b e ∈ before ++ after → b = false := by
    intro b e hmem
    refine (problems_eq_nil.mp hok).1 b e ?_
    rw [← hself, hchecks]
    simp only [mem_append] at hmem ⊢
    tauto
  refine ⟨?_, (hrefs cols).trans hspec.symm⟩
  rw [problems_eq_nil, hrefs, hspec, hchecks]
  refine and_congr ⟨fun h => ?_, fun h b e hmem => ?_⟩ Iff.rfl
  · refine ((@columnChecks_rules [] cols).mp fun b e hmem => h b e ?_).1
    exact mem_append_left _ (mem_append_right _ hmem)
  · simp only [mem_append] at hmem
    rcases hmem with (hmem | hmem) | hmem
    · exact hrules b e (mem_append_left _ hmem)
    · exact (@columnChecks_rules [] cols).mpr ⟨h, by simp⟩ b e hmem
    · exact hrules b e (mem_append_right _ hmem)

structure Ready (site : Site) (name : String) (spec : EntitySpec) (s : DynamicSchema) : Prop where
  get : site.facade.get name = some spec
  named : spec.name = name
  schema : spec.schema = some s
  sound : problems spec = []
  columns : ∀ c, c ∈ s.columns.map DynamicColumn.name ↔ c ∈ site.columns
  whole : ∀ c ∈ site.columns, identifier c = c

theorem Ready.columnsOk (h : Ready site name spec s) :
    ColumnsOk (s.columns.map DynamicColumn.name) ∧
      ∀ f ∈ references spec, f ∈ structural ++ s.columns.map DynamicColumn.name := by
  refine (problems_withColumns h.schema h.sound _).1.mp ?_
  rw [← h.sound]
  congr 1
  rw [← h.schema]

theorem Ready.together (h : Ready site name spec s) : Together site name := by
  refine ⟨spec, s, h.get, h.schema, h.columns, fun f hf => ?_⟩
  have hmem := h.columnsOk.2 f hf
  rw [mem_append] at hmem ⊢
  exact hmem.imp_right (h.columns f).mp

theorem mem_clone (c : String) : c ∈ (edit.clone s).columns.map DynamicColumn.name ↔
      match edit with
      | .rename old new => c ∈ s.columns.map DynamicColumn.name ∧ c ≠ old ∨
          c = new ∧ old ∈ s.columns.map DynamicColumn.name
      | .drop column => c ∈ s.columns.map DynamicColumn.name ∧ c ≠ column := by
  cases edit with
  | rename old new =>
    simp only [Edit.clone, List.map_map, List.mem_map, Function.comp_apply]
    grind
  | drop column =>
    simp only [Edit.clone, List.mem_map, mem_filter]
    grind

theorem columnsOk_rename {old new : String} (h : ColumnsOk (s.columns.map DynamicColumn.name))
    (hnew : assertMutableColumn new) (hfresh : new ∉ s.columns.map DynamicColumn.name) :
    ColumnsOk (((Edit.rename old new).clone s).columns.map DynamicColumn.name) := by
  refine ⟨?_, fun c hc => ?_⟩
  · have hmap : ((Edit.rename old new).clone s).columns.map DynamicColumn.name =
        (s.columns.map DynamicColumn.name).map fun c => if c = old then new else c := by
      simp only [Edit.clone, List.map_map]
      refine List.map_congr_left fun c _ => ?_
      simp only [Function.comp_apply]
      split_ifs <;> rfl
    rw [hmap]
    refine List.Nodup.map_on (fun a ha b hb hab => ?_) h.1
    grind
  · rcases (mem_clone c).mp hc with hc | hc
    · exact h.2 c hc.1
    · exact hc.1 ▸ hnew

theorem columnsOk_drop {column : String} (h : ColumnsOk (s.columns.map DynamicColumn.name)) :
    ColumnsOk (((Edit.drop column).clone s).columns.map DynamicColumn.name) :=
  ⟨h.1.sublist (filter_sublist.map _), fun c hc => h.2 c ((mem_clone c).mp hc).1⟩

theorem Ready.settled_iff {answers : Bool} {after : List String} (h : Ready site name spec s)
    (hddl : edit.ddl answers s.table site.columns = some after) :
    ((ColumnsOk ((edit.clone s).columns.map DynamicColumn.name) ∧
        ∀ f ∈ references spec, f ∈ structural ++ (edit.clone s).columns.map DynamicColumn.name) ∧
        (∀ c, c ∈ (edit.clone s).columns.map DynamicColumn.name ↔ c ∈ after) ∨
      ¬ (ColumnsOk ((edit.clone s).columns.map DynamicColumn.name) ∧
        ∀ f ∈ references spec, f ∈ structural ++ (edit.clone s).columns.map DynamicColumn.name) ∧
        ∀ c, c ∈ s.columns.map DynamicColumn.name ↔ c ∈ after) ↔
      edit.Whole site.columns ∧ edit.column ∉ references spec := by
  obtain ⟨hok, hrefs⟩ := h.columnsOk
  have hcolumns := h.columns
  have hkept := h.whole
  cases edit with
  | rename old new =>
    simp only [Edit.ddl, ite_none_right_eq_some, Bool.and_eq_true] at hddl
    obtain ⟨⟨⟨⟨⟨-, hold⟩, hnew⟩, -⟩, hmem, hnot⟩, heq⟩ := hddl
    have hafter : ∀ c, c ∈ after ↔ c ∈ site.columns ∧ c ≠ identifier old ∨ c = identifier new := by
      cases heq
      intro c
      grind
    have hclone := fun c => @mem_clone s (.rename old new) c
    have hmutable : old ∉ structural := by simpa [assertMutableColumn] using (Bool.and_eq_true_iff.mp hold).1
    simp only [Edit.Whole, Edit.column]
    constructor
    · rintro (⟨⟨hcok, hcrefs⟩, hsame⟩ | ⟨-, hsame⟩)
      · refine ⟨⟨?_, ?_⟩, fun href => ?_⟩ <;> grind
      · grind
    · rintro ⟨⟨hwold, hwnew⟩, href⟩
      refine .inl ⟨⟨columnsOk_rename hok hnew (by grind), fun f hf => ?_⟩, fun c => ?_⟩
      · have := hrefs f hf
        grind
      · grind
  | drop column =>
    simp only [Edit.ddl, ite_none_right_eq_some, Bool.and_eq_true] at hddl
    obtain ⟨⟨⟨-, hcol⟩, -⟩, heq⟩ := hddl
    have hafter : ∀ c, c ∈ after ↔ c ∈ site.columns ∧ c ≠ identifier column := by
      cases heq
      simp
    have hclone := fun c => @mem_clone s (.drop column) c
    have hmutable : column ∉ structural := by simpa [assertMutableColumn] using (Bool.and_eq_true_iff.mp hcol).1
    simp only [Edit.Whole, Edit.column]
    constructor
    · rintro (⟨⟨hcok, hcrefs⟩, hsame⟩ | ⟨hbad, hsame⟩)
      · refine ⟨?_, fun href => ?_⟩ <;> grind
      · exact absurd ⟨columnsOk_drop hok, fun f hf => by have := hrefs f hf; grind⟩ hbad
    · rintro ⟨hwhole, href⟩
      refine .inl ⟨⟨columnsOk_drop hok, fun f hf => ?_⟩, fun c => ?_⟩
      · have := hrefs f hf
        grind
      · grind

theorem replaceAndPersist_get {store : Bool} {f : Facade} {next : EntitySpec} :
    (problems next = [] → (∃ cur t u, f.get next.name = some cur ∧ cur.schema = some t ∧
      next.schema = some u) →
      (replaceAndPersist json db store f next).2.get next.name = some next) ∧
    (problems next ≠ [] → (replaceAndPersist json db store f next).2 = f) := by
  refine ⟨?_, fun hbad => ?_⟩
  · rintro hok ⟨cur, t, u, hcur, ht, hu⟩
    have hget : (f.put next).get next.name = some next := by simp [Facade.get_put]
    rw [replaceAndPersist, Facade.replace_of_sound hok hcur ht hu]
    dsimp only
    split_ifs
    · split <;> exact hget
    · exact hget
  · unfold replaceAndPersist
    split
    · rfl
    · exact absurd (Facade.replace_eq_ok ‹_›).2.1 hbad

theorem Ready.editField_eq (h : Ready site name spec s) (store : Bool) :
    (editField json db store site name edit).2 = if spec.kind = .aggregate then
        (edit.ddl db.ensure s.table site.columns).elim site fun after =>
          ⟨(replaceAndPersist json db store site.facade
            { spec with schema := some (edit.clone s) }).2, after⟩ else site := by
  have hassert : assertDynamicAggregate spec =
      if spec.kind = .aggregate then none else some .notAggregate := by
    simp [assertDynamicAggregate, h.schema]
  rw [editField, h.get]
  simp only [hassert, h.schema]
  by_cases hkind : spec.kind = .aggregate
  · simp only [if_pos hkind]
    cases edit.ddl db.ensure s.table site.columns <;> rfl
  · simp only [if_neg hkind]

/-- After an edit, whether it succeeds or fails, the descriptor and the table agree exactly if
the statement did not run, or nothing in the descriptor refers to the column and Postgres keeps
the names whole. -/
theorem edit_together_iff (store : Bool) (h : Ready site name spec s) :
    Together (editField json db store site name edit).2 name ↔
      (spec.kind = .aggregate → ∀ after, edit.ddl db.ensure s.table site.columns = some after →
        edit.Whole site.columns ∧ edit.column ∉ references spec) := by
  rw [h.editField_eq]
  by_cases hkind : spec.kind = .aggregate
  swap
  · simp [hkind, h.together]
  cases hddl : edit.ddl db.ensure s.table site.columns with
  | none => simp [h.together]
  | some after =>
    simp only [hkind, forall_const, some.injEq, forall_eq', elim_some]
    rw [← hkind, ← h.settled_iff hddl]
    generalize hnext : { spec with schema := some (edit.clone s) } = next
    have hclone : edit.clone s = { s with columns := (edit.clone s).columns } := by
      cases edit <;> rfl
    have hchecked := problems_withColumns h.schema h.sound (edit.clone s).columns
    rw [← hclone, hnext] at hchecked
    have hname : next.name = name := hnext ▸ h.named
    have hschema : next.schema = some (edit.clone s) := hnext ▸ rfl
    have hleft := @replaceAndPersist_get _ json db store site.facade next
    rw [← hchecked.1]
    by_cases hok : problems next = []
    · have hget := hleft.1 hok ⟨spec, s, _, hname ▸ h.get, h.schema, hschema⟩
      rw [hname] at hget
      simp only [hok, true_and, not_true_eq_false, false_and, or_false]
      constructor
      · rintro ⟨p, t, hp, ht, hsame, -⟩
        obtain rfl := some.inj (hget.symm.trans hp)
        obtain rfl := some.inj (hschema.symm.trans ht)
        exact hsame
      · intro hsame
        refine ⟨next, _, hget, hschema, hsame, fun f hf => ?_⟩
        have hmem := (hchecked.1.mp hok).2 f (hchecked.2 ▸ hf)
        rw [mem_append] at hmem ⊢
        exact hmem.imp_right (hsame f).mp
    · simp only [hok, false_and, not_false_eq_true, true_and, false_or]
      rw [hleft.2 hok]
      constructor
      · rintro ⟨p, t, hp, ht, hsame, -⟩
        obtain rfl := some.inj (h.get.symm.trans hp)
        obtain rfl := some.inj (h.schema.symm.trans ht)
        exact hsame
      · intro hsame
        refine ⟨spec, s, h.get, h.schema, hsame, fun f hf => ?_⟩
        have hmem := h.columnsOk.2 f hf
        rw [mem_append] at hmem ⊢
        exact hmem.imp_right (hsame f).mp

def ticket : EntitySpec :=
  { name := "ticket"
    schema := some {
      table := "ds_ticket"
      columns := [⟨"title", .text, false, ""⟩, ⟨"body", .text, false, ""⟩]
      indexes := [⟨"ds_ticket_title", ["title"], false⟩] } }

def ticketSite : Site :=
  ⟨{ registry := [("ticket", ticket)], guarded := ["ds_ticket"] }, ["title", "body"]⟩

theorem ready_ticket (s : DynamicSchema) (hs : ticket.schema = some s) :
    Ready ticketSite "ticket" ticket s where
  get := rfl
  named := rfl
  schema := hs
  sound := by decide +kernel
  columns := by
    cases hs
    exact fun c => Iff.rfl
  whole := by decide +kernel

theorem edit_together_body :
    Together (editField plainJson {} false ticketSite "ticket" (.rename "body" "text")).2
      "ticket" := by
  refine (edit_together_iff false (ready_ticket _ rfl)).mpr fun _ after _ => ?_
  exact ⟨⟨by decide +kernel, by decide +kernel⟩, by decide +kernel⟩

theorem renamed_column_gone :
    let out := renameDynamicField plainJson {} false ticketSite "ticket" "title" "name"
    out.1 = .error (.invalid (.indexColumn "ds_ticket_title" "title")) ∧
      ¬Together out.2 "ticket" := by
  refine ⟨by decide +kernel, fun ⟨spec, s, hget, hs, hcolumns, _⟩ => ?_⟩
  obtain rfl : ticket = spec := Option.some.inj hget
  cases hs
  exact absurd ((hcolumns "title").mp (by decide)) (by decide +kernel)

end Fabriq.Dynamic.SchemaEdits
