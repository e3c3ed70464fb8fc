import Fabriq.Live.SqlParity.Leaf

namespace Fabriq.Live.SqlParity

open Core.Value Lib Lib.Result Lib.ThreeValued Live.Match Query.Filter Query.Sql

variable {toLower : String → String} {row : Vals} {column : String} {op : Op} {value : Operand}
  {db : Database} {types : String → ColType}

def condValue (db : Database) (types : String → ColType) (row : Vals) (c : Cond) : Option Truth :=
  (expr c).bind (Expr.value db types row)

def condValues (db : Database) (types : String → ColType) (row : Vals) (conds : List Cond) :
    Option (List Truth) :=
  (exprs conds).bind (valuesOf db types row)

theorem condValue_group (first : Cond) (rest : List Cond) :
    condValue db types row (.group first rest) =
      (condValues db types row (first :: rest)).map any := by
  unfold condValue condValues
  rw [expr, exprs]
  cases expr first with
  | none => rfl
  | some e => cases exprs rest <;> simp [Expr.value, valuesOf, Function.comp_def]

theorem condValues_cons (c : Cond) (rest : List Cond) : condValues db types row (c :: rest) =
      (condValue db types row c).bind fun t =>
        (condValues db types row rest).map fun ts => t :: ts := by
  unfold condValue condValues
  rw [exprs]
  cases expr c with
  | none => rfl
  | some e => cases exprs rest with
    | none => cases hvalue : e.value db types row <;> simp [hvalue]
    | some es => simp [valuesOf]

variable {b rest : Option Bool} {truth : Truth} {truths : List Truth}

theorem or_settles {hit found : Bool} (hb : b = some hit) (hrest : rest = some found)
    (hhit : hit ↔ truth = .true) (hfound : found ↔ any truths = .true) :
    ∃ r, (b.bind fun hit => if hit then some true else rest) = some r ∧
      (r ↔ any (truth :: truths) = .true) := by
  subst hb hrest
  rw [any_cons_eq_true, ← hhit, ← hfound]
  cases hit with
  | true => exact ⟨true, rfl, by simp⟩
  | false => exact ⟨found, rfl, by simp⟩

theorem and_settles {hit found : Bool} (hb : b = some hit) (hrest : rest = some found)
    (hhit : hit ↔ truth = .true) (hfound : found ↔ all truths = .true) :
    ∃ r, (b.bind fun hit => if hit then rest else some false) = some r ∧
      (r ↔ all (truth :: truths) = .true) := by
  subst hb hrest
  rw [all_cons_eq_true, ← hhit, ← hfound]
  cases hit with
  | true => exact ⟨found, rfl, by simp⟩
  | false => exact ⟨false, rfl, by simp⟩

def Leaf.Settled (toLower : String → String) (db : Database) (types : String → ColType)
    (row : Vals) (leaf : Leaf) : Prop :=
  Settles (evalLeaf toLower leaf.column leaf.op leaf.value row)
    (leafValue db types row leaf.column leaf.op leaf.value) True

def AnySettled (toLower : String → String) (db : Database) (types : String → ColType)
    (row : Vals) (conds : List Cond) : Prop :=
  ∃ found truths, evalAny toLower row conds = some found ∧
    condValues db types row conds = some truths ∧ (found ↔ any truths = .true)

theorem AnySettled.cons {c : Cond} {conds : List Cond}
    (hc : Settles (evalCond toLower row c) (condValue db types row c) True)
    (h : AnySettled toLower db types row conds) :
    AnySettled toLower db types row (c :: conds) := by
  obtain ⟨hit, truth, hhit, htruth, hiff⟩ := hc
  obtain ⟨found, truths, hfound, htruths, hany⟩ := h
  obtain ⟨r, hr, hresult⟩ := or_settles hhit hfound (hiff.mpr trivial) hany
  refine ⟨r, truth :: truths, hr, ?_, hresult⟩
  rw [condValues_cons, htruth, Option.bind_some, htruths]
  rfl

mutual

theorem cond_settles {c : Cond} (hall : ∀ leaf ∈ leaves c, leaf.Settled toLower db types row) :
    Settles (evalCond toLower row c) (condValue db types row c) True := by
  cases c with
  | leaf column op value => exact hall ⟨column, op, value⟩ List.mem_cons_self
  | group first rest =>
    rw [leaves, List.forall_mem_append] at hall
    obtain ⟨r, truths, hr, htruths, hiff⟩ := (any_settles hall.2).cons (cond_settles hall.1)
    refine ⟨r, any truths, hr, ?_, iff_true_intro hiff⟩
    rw [condValue_group, htruths]
    rfl

theorem any_settles {conds : List Cond}
    (hall : ∀ leaf ∈ leavesOf conds, leaf.Settled toLower db types row) :
    AnySettled toLower db types row conds := by
  cases conds with
  | nil => exact ⟨false, [], rfl, rfl, by decide⟩
  | cons c rest =>
    rw [leavesOf, List.forall_mem_append] at hall
    exact (any_settles hall.2).cons (cond_settles hall.1)

end

theorem where_settles {conds : Where}
    (hall : ∀ leaf ∈ leavesOf conds, leaf.Settled toLower db types row) :
    ∃ hit truths, eval toLower row conds = some hit ∧
      condValues db types row conds = some truths ∧ (hit ↔ all truths = .true) := by
  induction conds with
  | nil => exact ⟨true, [], rfl, rfl, by decide⟩
  | cons c rest ih =>
    obtain ⟨hit, truth, hhit, htruth, hiff⟩ := cond_settles fun leaf hleaf =>
      hall leaf (List.mem_append_left _ hleaf)
    obtain ⟨found, truths, hfound, htruths, hrest⟩ := ih fun leaf hleaf =>
      hall leaf (List.mem_append_right _ hleaf)
    obtain ⟨r, hr, hresult⟩ := and_settles hhit hfound (hiff.mpr trivial) hrest
    refine ⟨r, truth :: truths, hr, ?_, hresult⟩
    rw [condValues_cons, htruth, Option.bind_some, htruths]
    rfl

variable {has : String → Bool} {conds : Where} {leaf : Leaf}

/-- The matcher takes the row exactly if the clause is true of it. -/
def Agrees (toLower : String → String) (db : Database) (types : String → ColType) (row : Vals)
    (conds : Where) : Prop :=
  eval toLower row conds = some true ↔ whereValue db types row conds = some .true

theorem whereValue_eq : whereValue db types row conds =
    (condValues db types row conds).map all := by
  unfold whereValue condValues
  cases exprs conds <;> rfl

theorem agrees_of_leaves (hall : ∀ leaf ∈ leavesOf conds, leaf.Settled toLower db types row) :
    Agrees toLower db types row conds := by
  obtain ⟨hit, truths, hhit, htruths, hiff⟩ := where_settles hall
  rw [Agrees, whereValue_eq, hhit, htruths, Option.map_some, Option.some.injEq, Option.some.injEq]
  exact hiff

theorem agrees_leaf_iff {agrees : Prop}
    (h : Settles (evalLeaf toLower leaf.column leaf.op leaf.value row)
      (leafValue db types row leaf.column leaf.op leaf.value) agrees) :
    Agrees toLower db types row [leaf.cond] ↔ agrees := by
  obtain ⟨hit, truth, hhit, htruth, hiff⟩ := h
  have heval : eval toLower row [leaf.cond] = some hit := by
    rw [eval, Leaf.cond, evalCond, hhit, Option.bind_some]
    cases hit <;> rfl
  have hclause : whereValue db types row [leaf.cond] = some truth := by
    have hvalue : condValue db types row leaf.cond = some truth := htruth
    rw [whereValue_eq, condValues_cons, hvalue]
    exact congrArg some (all_singleton truth)
  rw [Agrees, heval, hclause, Option.some.injEq, Option.some.injEq]
  exact hiff

mutual

theorem validateLeaf_of_validate {c : Cond} (h : validate has c = .ok ()) :
    ∀ leaf ∈ leaves c, validateLeaf has leaf.column leaf.op leaf.value = .ok () := by
  cases c with
  | leaf column op value => exact List.forall_mem_singleton.mpr h
  | group first rest =>
    obtain ⟨_, hfirst, hrest⟩ := bind_eq_ok.mp h
    rw [leaves, List.forall_mem_append]
    exact ⟨validateLeaf_of_validate hfirst, validateLeaf_of_validateConds hrest⟩

theorem validateLeaf_of_validateConds {conds : List Cond} (h : validateConds has conds = .ok ()) :
    ∀ leaf ∈ leavesOf conds, validateLeaf has leaf.column leaf.op leaf.value = .ok () := by
  cases conds with
  | nil => exact List.forall_mem_nil _
  | cons c rest =>
    obtain ⟨_, hfirst, hrest⟩ := bind_eq_ok.mp h
    rw [leavesOf, List.forall_mem_append]
    exact ⟨validateLeaf_of_validate hfirst, validateLeaf_of_validateConds hrest⟩

end

def strict : Database where
  bind type p := (literal p).filter fun d => type.holds d || d.isNull
  collate := compare
  like := fun _ _ _ => false

theorem binds_strict : Binds strict where
  own := by
    intro type p d b hliteral _ hbind
    obtain ⟨hb, -⟩ := Option.filter_eq_some_iff.mp hbind
    exact Option.some.inj (hb.symm.trans hliteral)
  typed := by
    intro type p b hbind
    obtain ⟨-, hchecked⟩ := Option.filter_eq_some_iff.mp hbind
    rcases (Bool.or_eq_true _ _).mp hchecked with hholds | hnull
    · exact .inr hholds
    · cases b with
      | null => exact .inl rfl
      | _ => cases hnull
  collate _ _ := Std.compare_eq_iff_eq

def machineTypes : String → ColType
  | "active" => .boolean
  | "load" => .number
  | _ => .text

def isMachineColumn (column : String) : Bool :=
  column ∈ ["kind", "active", "load"]

def pump : Vals :=
  some [("kind", .str "pump"), ("active", .bool true), ("load", .num 9007199254740992)]

theorem typed_pump : Typed machineTypes pump := by
  intro column
  rw [Vals.get]
  cases hfind : pump.find column with
  | none => exact .inl rfl
  | some v =>
    have hmem : (column, v) ∈ [("kind", Json.str "pump"), ("active", .bool true),
      ("load", .num 9007199254740992)] := Assoc.mem_of_lookup hfind
    simp only [List.mem_cons, Prod.mk.injEq, List.not_mem_nil, or_false] at hmem
    rcases hmem with ⟨rfl, rfl⟩ | ⟨rfl, rfl⟩ | ⟨rfl, rfl⟩ <;> exact .inr rfl

theorem missing_of_bind (hbind : db.bind type p = some d) (hnull : d ≠ .null) (hne : d ≠ v) :
    ∀ q ∈ [p], db.bind type q ≠ some .null ∧ db.bind type q ≠ some v := by
  rw [List.forall_mem_singleton, hbind]
  exact ⟨fun heq => hnull (Option.some.inj heq), fun heq => hne (Option.some.inj heq)⟩

def pumpFilter : Where :=
  [.group (.leaf "kind" .notIn (.slice .anys [.str "valve"])) [.leaf "load" .gt (.num 3)],
    .leaf "active" .ne (.bool false)]

end Fabriq.Live.SqlParity
