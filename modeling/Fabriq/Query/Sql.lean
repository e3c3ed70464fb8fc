import Fabriq.Lib.ThreeValued
import Fabriq.Query.Filter

namespace Fabriq.Query.Sql

open Core.Value Lib.ThreeValued Query.Filter Option

inductive Error
  | emptyColumn
  | unknownColumn (column : String)
  | unknownOperator (op : Op) (column : String)
  | needsSlice (op : Op) (column : String)
  | needsNonEmpty (op : Op) (column : String)
  | needsValue (op : Op) (column : String)
  | unsupportedOperator (op : Op)
  deriving DecidableEq

section

variable (has : String → Bool)

def validateValue (column : String) (op : Op) (value : Operand) : Except Error Unit :=
  match op with
  | .isIn | .notIn =>
    match value with
    | .slice _ [] => .error (.needsNonEmpty op column)
    | .slice _ (_ :: _) => .ok ()
    | _ => .error (.needsSlice op column)
  | .isNull | .isNotNull => .ok ()
  | _ =>
    match value with
    | .null => .error (.needsValue op column)
    | _ => .ok ()

def validateLeaf (column : String) (op : Op) (value : Operand) : Except Error Unit :=
  if column = "" then .error .emptyColumn
  else if has column = false then .error (.unknownColumn column)
  else if op.isSet = false then .error (.unknownOperator op column)
  else validateValue column op value

mutual

def validate : Cond → Except Error Unit
  | .leaf column op value => validateLeaf has column op value
  | .group first rest => (validate first).bind fun _ => validateConds rest

def validateConds : List Cond → Except Error Unit
  | [] => .ok ()
  | c :: rest => (validate c).bind fun _ => validateConds rest

end

end

/-- The name that a quoted identifier stands for: quote marks are dropped. -/
def identifier (name : String) : String :=
  String.ofList (name.toList.filter (· != Char.ofNat 34))

def quoteIdent (name : String) : String :=
  "\"" ++ identifier name ++ "\""

def sqlOp : Op → String
  | .eq => "="
  | .ne => "!="
  | .gt => ">"
  | .gte => ">="
  | .lt => "<"
  | .lte => "<="
  | .like => "LIKE"
  | .ilike => "ILIKE"
  | _ => ""

abbrev Frag := String × List Operand × Nat

section

variable (place : Nat → String)

def leafSQL (column : String) (op : Op) (value : Operand) (n : Nat) : Except Error Frag :=
  match op with
  | .eq | .ne | .gt | .gte | .lt | .lte | .like | .ilike =>
    .ok (quoteIdent column ++ " " ++ sqlOp op ++ " " ++ place n, [value], n + 1)
  | .isIn => .ok (quoteIdent column ++ " = ANY(" ++ place n ++ ")", [value], n + 1)
  | .notIn => .ok ("NOT (" ++ quoteIdent column ++ " = ANY(" ++ place n ++ "))", [value], n + 1)
  | .isNull => .ok (quoteIdent column ++ " IS NULL", [], n)
  | .isNotNull => .ok (quoteIdent column ++ " IS NOT NULL", [], n)
  | .unknown _ => .error (.unsupportedOperator op)

mutual

def renderCond : Cond → Nat → Except Error Frag
  | .leaf column op value, n => leafSQL place column op value n
  | .group first rest, n =>
    (renderCond first n).bind fun head =>
      (renderRest rest head).map fun frag => ("(" ++ frag.1 ++ ")", frag.2)

def renderRest : List Cond → Frag → Except Error Frag
  | [], frag => .ok frag
  | c :: rest, (text, args, n) =>
    (renderCond c n).bind fun next =>
      renderRest rest (text ++ " OR " ++ next.1, args ++ next.2.1, next.2.2)

end

end

/-- `condSQLPositional`, with numbered placeholders from `argN`. -/
def condSQLPositional (c : Cond) (argN : Nat) : Except Error Frag :=
  renderCond (fun n => "$" ++ toString n) c argN

/-- `condSQL`; its placeholders have no numbers. -/
def condSQL (c : Cond) : Except Error (String × List Operand) :=
  (renderCond (fun _ => "?") c 0).map fun frag => (frag.1, frag.2.1)

/-- A rendered condition as PostgreSQL reads it. -/
inductive Expr
  | compare (column : String) (op : Op) (arg : Operand)
  | eqAny (column : String) (arg : Operand)
  | not (e : Expr)
  | isNull (column : String)
  | isNotNull (column : String)
  | anyOf (first : Expr) (rest : List Expr)

mutual

def Expr.args : Expr → List Operand
  | .compare _ _ arg => [arg]
  | .eqAny _ arg => [arg]
  | .not e => e.args
  | .isNull _ => []
  | .isNotNull _ => []
  | .anyOf first rest => first.args ++ argsRest rest

def argsRest : List Expr → List Operand
  | [] => []
  | e :: rest => e.args ++ argsRest rest

end

section

variable (place : Nat → String)

mutual

/-- The text of an expression whose first placeholder has the number `n`. -/
def Expr.text : Expr → Nat → String
  | .compare column op _, n => quoteIdent column ++ " " ++ sqlOp op ++ " " ++ place n
  | .eqAny column _, n => quoteIdent column ++ " = ANY(" ++ place n ++ ")"
  | .not e, n => "NOT (" ++ e.text n ++ ")"
  | .isNull column, _ => quoteIdent column ++ " IS NULL"
  | .isNotNull column, _ => quoteIdent column ++ " IS NOT NULL"
  | .anyOf first rest, n =>
    "(" ++ (first.text n ++ textRest rest (n + first.args.length)) ++ ")"

def textRest : List Expr → Nat → String
  | [], _ => ""
  | e :: rest, n => " OR " ++ (e.text n ++ textRest rest (n + e.args.length))

end

end

def leafExpr (column : String) (op : Op) (value : Operand) : Option Expr :=
  match op with
  | .eq | .ne | .gt | .gte | .lt | .lte | .like | .ilike => some (.compare column op value)
  | .isIn => some (.eqAny column value)
  | .notIn => some (.not (.eqAny column value))
  | .isNull => some (.isNull column)
  | .isNotNull => some (.isNotNull column)
  | .unknown _ => none

mutual

/-- The expression of a condition; `none` for an operator that is not supported. -/
def expr : Cond → Option Expr
  | .leaf column op value => leafExpr column op value
  | .group first rest =>
    (expr first).bind fun e => (exprs rest).map fun es => .anyOf e es

def exprs : List Cond → Option (List Expr)
  | [] => some []
  | c :: rest => (expr c).bind fun e => (exprs rest).map fun es => e :: es

end

variable {place : Nat → String}

theorem leafSQL_eq {column : String} {op : Op} {value : Operand} {e : Expr} {n : Nat}
    (h : leafExpr column op value = some e) :
    leafSQL place column op value n = .ok (e.text place n, e.args, n + e.args.length) := by
  cases op with
  | unknown name => cases h
  | _ =>
    cases h
    simp [leafSQL, Expr.text, Expr.args, String.append_assoc]

mutual

theorem renderCond_eq {c : Cond} {e : Expr} {n : Nat} (h : expr c = some e) :
    renderCond place c n = .ok (e.text place n, e.args, n + e.args.length) := by
  cases c with
  | leaf column op value => exact leafSQL_eq h
  | group first rest =>
    rw [expr] at h
    obtain ⟨head, hhead, h⟩ := bind_eq_some_iff.mp h
    obtain ⟨es, hes, rfl⟩ := map_eq_some_iff.mp h
    rw [renderCond, renderCond_eq hhead, Except.bind, renderRest_eq hes]
    simp [Except.map, Expr.text, Expr.args, Nat.add_assoc]

theorem renderRest_eq {rest : List Cond} {es : List Expr} {text : String} {args : List Operand}
    {n : Nat} (h : exprs rest = some es) :
    renderRest place rest (text, args, n) =
      .ok (text ++ textRest place es n, args ++ argsRest es, n + (argsRest es).length) := by
  cases rest with
  | nil =>
    cases h
    simp [renderRest, textRest, argsRest]
  | cons c rest =>
    rw [exprs] at h
    obtain ⟨e, he, h⟩ := bind_eq_some_iff.mp h
    obtain ⟨others, hothers, rfl⟩ := map_eq_some_iff.mp h
    rw [renderRest, renderCond_eq he, Except.bind, renderRest_eq hothers]
    simp [textRest, argsRest, String.append_assoc, Nat.add_assoc]

end

/-- A condition is rendered as its expression, with the arguments in the order of the
placeholders. -/
theorem rendered_as_expr : (∀ c e argN, expr c = some e → condSQLPositional c argN =
      .ok (e.text (fun n => "$" ++ toString n) argN, e.args, argN + e.args.length)) ∧
    ∀ c e, expr c = some e → condSQL c = .ok (e.text (fun _ => "?") 0, e.args) := by
  refine ⟨fun c e argN h => renderCond_eq h, fun c e h => ?_⟩
  rw [condSQL, renderCond_eq h]
  rfl

section

variable (f : Operand → Operand)

mutual

def mapArgs : Cond → Cond
  | .leaf column op value => .leaf column op (f value)
  | .group first rest => .group (mapArgs first) (mapArgsRest rest)

def mapArgsRest : List Cond → List Cond
  | [] => []
  | c :: rest => mapArgs c :: mapArgsRest rest

end

def Frag.mapArgs : Frag → Frag
  | (text, args, n) => (text, args.map f, n)

mutual

theorem renderCond_mapArgs (c : Cond) (n : Nat) :
    renderCond place (mapArgs f c) n = (renderCond place c n).map (Frag.mapArgs f) := by
  cases c with
  | leaf column op value => cases op <;> rfl
  | group first rest =>
    rw [mapArgs, renderCond, renderCond_mapArgs first, renderCond]
    cases renderCond place first n with
    | error e => rfl
    | ok head =>
      simp only [Except.map, Except.bind, renderRest_mapArgs rest]
      cases renderRest place rest head <;> rfl

theorem renderRest_mapArgs (rest : List Cond) (frag : Frag) :
    renderRest place (mapArgsRest f rest) (frag.mapArgs f) =
      (renderRest place rest frag).map (Frag.mapArgs f) := by
  cases rest with
  | nil => rfl
  | cons c rest =>
    rw [mapArgsRest, Frag.mapArgs, renderRest, renderCond_mapArgs c, renderRest]
    cases renderCond place c frag.2.2 with
    | error e => rfl
    | ok next =>
      have ih := renderRest_mapArgs rest
        (frag.1 ++ " OR " ++ next.1, frag.2.1 ++ next.2.1, next.2.2)
      simpa [Except.map, Except.bind, Frag.mapArgs] using ih

end

end

/-- The text of a condition does not depend on its operands, which are bound as arguments. -/
theorem text_without_operands (f : Operand → Operand) (c : Cond) (argN : Nat) :
    condSQLPositional (mapArgs f c) argN = (condSQLPositional c argN).map (Frag.mapArgs f) ∧
      condSQL (mapArgs f c) = (condSQL c).map fun frag => (frag.1, frag.2.map f) := by
  refine ⟨renderCond_mapArgs f c argN, ?_⟩
  rw [condSQL, renderCond_mapArgs, condSQL]
  cases renderCond (fun _ => "?") c 0 <;> rfl

inductive ColType
  | text
  | number
  | boolean
  deriving DecidableEq, Repr

def ColType.holds : ColType → Json → Bool
  | .text, .str _ => true
  | .number, .num _ => true
  | .boolean, .bool _ => true
  | _, _ => false

/-- What lies outside the adapter: what the driver binds an operand to where a type is expected,
`none` if it refuses; the order of texts; and the match of a pattern. -/
structure Database where
  bind : ColType → Operand → Option Json
  collate : String → String → Ordering
  like : Bool → String → String → Bool

/-- The order of two values of one type, `none` if one of them is NULL. -/
def Database.order (db : Database) : Json → Json → Option Ordering
  | .bool a, .bool b => some (compare a b)
  | .num a, .num b => some (compare a b)
  | .str a, .str b => some (db.collate a b)
  | _, _ => none

def Database.matches (db : Database) (ci : Bool) : Json → Json → Truth
  | .str s, .str pattern => .ofBool (db.like ci s pattern)
  | _, _ => .unknown

def holdsFor : Op → Ordering → Bool
  | .eq, o => o == .eq
  | .ne, o => o != .eq
  | .gt, o => o == .gt
  | .gte, o => o != .lt
  | .lt, o => o == .lt
  | .lte, o => o != .gt
  | _, _ => false

/-- A comparison with NULL is unknown. -/
def ofOrder (op : Op) : Option Ordering → Truth
  | some o => .ofBool (holdsFor op o)
  | none => .unknown

def Database.comparison (db : Database) (op : Op) (v arg : Json) : Truth :=
  match op with
  | .like => db.matches false v arg
  | .ilike => db.matches true v arg
  | _ => ofOrder op (db.order v arg)

def Database.bindArray (db : Database) (type : ColType) : Operand → Option (List Json)
  | .slice _ elems => elems.mapM (db.bind type)
  | _ => none

section

variable (db : Database) (types : String → ColType) (row : Vals)

mutual

/-- The value of an expression on a row; `none` if an operand cannot be bound, so that the
statement fails. -/
def Expr.value : Expr → Option Truth
  | .compare column op arg =>
    (db.bind (types (identifier column)) arg).map
      (db.comparison op (row.get (identifier column)))
  | .eqAny column arg =>
    (db.bindArray (types (identifier column)) arg).map fun elems =>
      any (elems.map (db.comparison .eq (row.get (identifier column))))
  | .not e => e.value.map Truth.not
  | .isNull column => some (.ofBool (row.get (identifier column)).isNull)
  | .isNotNull column => some (.ofBool !(row.get (identifier column)).isNull)
  | .anyOf first rest => first.value.bind fun t => (valuesOf rest).map fun ts => any (t :: ts)

def valuesOf : List Expr → Option (List Truth)
  | [] => some []
  | e :: rest => e.value.bind fun t => (valuesOf rest).map fun ts => t :: ts

end

/-- The value of the clause that a filter is rendered to, its fragments joined by `AND`. -/
def whereValue (conds : Where) : Option Truth :=
  (exprs conds).bind fun es => (valuesOf db types row es).map all

end

end Fabriq.Query.Sql
