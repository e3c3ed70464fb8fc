import Mathlib.Data.List.Basic

namespace Fabriq.Lib.ThreeValued

inductive Truth
  | true
  | false
  | unknown
  deriving DecidableEq, Repr

namespace Truth

def ofBool : Bool → Truth
  | .true => .true
  | .false => .false

def not : Truth → Truth
  | .true => .false
  | .false => .true
  | .unknown => .unknown

def or : Truth → Truth → Truth
  | .true, _ => .true
  | _, .true => .true
  | .false, .false => .false
  | _, _ => .unknown

def and : Truth → Truth → Truth
  | .false, _ => .false
  | _, .false => .false
  | .true, .true => .true
  | _, _ => .unknown

end Truth

def any (l : List Truth) : Truth :=
  l.foldr Truth.or .false

def all (l : List Truth) : Truth :=
  l.foldr Truth.and .true

variable {s t : Truth} {l : List Truth} {b : Bool}

theorem ofBool_eq_true : Truth.ofBool b = .true ↔ b = Bool.true := by
  cases b <;> simp [Truth.ofBool]

theorem not_eq_true : t.not = .true ↔ t = .false := by
  cases t <;> simp [Truth.not]

theorem or_eq_true : s.or t = .true ↔ s = .true ∨ t = .true := by
  cases s <;> cases t <;> simp [Truth.or]

theorem or_eq_false : s.or t = .false ↔ s = .false ∧ t = .false := by
  cases s <;> cases t <;> simp [Truth.or]

theorem and_eq_true : s.and t = .true ↔ s = .true ∧ t = .true := by
  cases s <;> cases t <;> simp [Truth.and]

theorem any_singleton (t : Truth) : any [t] = t := by
  cases t <;> rfl

theorem all_singleton (t : Truth) : all [t] = t := by
  cases t <;> rfl

theorem any_cons_eq_true : any (t :: l) = .true ↔ t = .true ∨ any l = .true := or_eq_true

theorem all_cons_eq_true : all (t :: l) = .true ↔ t = .true ∧ all l = .true := and_eq_true

theorem any_eq_true : any l = .true ↔ Truth.true ∈ l := by
  induction l with
  | nil => simp [any]
  | cons t rest ih =>
    rw [any_cons_eq_true, List.mem_cons]
    exact or_congr eq_comm ih

theorem any_eq_false : any l = .false ↔ ∀ t ∈ l, t = .false := by
  induction l with
  | nil => simp [any]
  | cons t rest ih =>
    rw [any, List.foldr_cons, or_eq_false, List.forall_mem_cons]
    exact and_congr_right fun _ => ih

end Fabriq.Lib.ThreeValued
