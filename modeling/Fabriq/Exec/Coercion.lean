import Fabriq.Exec.PayloadRow
import Mathlib.Data.Rat.Lemmas

/-!
The coercion of the values of a dynamic row to the types of its columns.
-/

namespace Fabriq.Exec.Coercion

open Exec.PayloadRow Lib.Result List

inductive IntKind
  | int | int8 | int16 | int32 | int64 | uint | uint8 | uint16 | uint32 | uint64
  deriving DecidableEq

def IntKind.bounds : IntKind → ℤ × ℤ
  | .int | .int64 => (-2 ^ 63, 2 ^ 63)
  | .int8 => (-2 ^ 7, 2 ^ 7)
  | .int16 => (-2 ^ 15, 2 ^ 15)
  | .int32 => (-2 ^ 31, 2 ^ 31)
  | .uint | .uint64 => (0, 2 ^ 64)
  | .uint8 => (0, 2 ^ 8)
  | .uint16 => (0, 2 ^ 16)
  | .uint32 => (0, 2 ^ 32)

def IntKind.Fits (k : IntKind) (n : ℤ) : Prop :=
  k.bounds.1 ≤ n ∧ n < k.bounds.2

instance (k : IntKind) (n : ℤ) : Decidable (k.Fits n) :=
  inferInstanceAs (Decidable (_ ∧ _))

/-- The numbers of an integer type; `int` and `uint` have 64 bits. -/
structure Number (k : IntKind) where
  val : ℤ
  fits : k.Fits val

/-- A `float64`; a `float32` becomes one without loss. -/
inductive GoFloat
  | finite (q : ℚ)
  | infinite (negative : Bool)
  | nan

inductive Value (Time Other : Type)
  | nil
  | string (s : String)
  | bool (b : Bool)
  | integer (k : IntKind) (n : Number k)
  | float32 (f : GoFloat)
  | float64 (f : GoFloat)
  | time (t : Time)
  | other (x : Other)

inductive ColumnType
  | text | int | float | bool | time | json
  | unknown (code : ℤ)

inductive CoerceError (Time Other : Type)
  | expects (t : ColumnType) (got : Value Time Other)
  | overflows (n : Number .uint64)
  | nonIntegral (f : GoFloat)
  | notTime (s : String)
  | unknownType (code : ℤ)

/-- What the coercion takes from the language: `int64(f)` of a float outside of the range,
which is left open, the rounding of `float64(n)`, and `time.Parse`. -/
structure Runtime (Time : Type) where
  outOfRange : GoFloat → Number .int64
  round : ℤ → GoFloat
  parse : String → Option Time

variable {Time Other : Type} (rt : Runtime Time)

/-- `int64(n)` of an integer, which wraps around. -/
def toInt64 (n : ℤ) : Number .int64 :=
  ⟨n.bmod (2 ^ 64), by
    have hlow := @Int.le_bmod n (2 ^ 64) (by decide)
    have hhigh := @Int.bmod_lt n (2 ^ 64) (by decide)
    exact ⟨hlow, hhigh⟩⟩

def Runtime.toInt64 (f : GoFloat) : Number .int64 :=
  match f with
  | .finite q => if h : IntKind.int64.Fits q.num then ⟨q.num, h⟩ else rt.outOfRange f
  | _ => rt.outOfRange f

/-- An infinity is equal to its `math.Trunc`. -/
def Runtime.floatToInt (f : GoFloat) : Except (CoerceError Time Other) (Value Time Other) :=
  match f with
  | .finite q =>
    if q.den = 1 then .ok (.integer .int64 (rt.toInt64 f)) else .error (.nonIntegral f)
  | .infinite _ => .ok (.integer .int64 (rt.toInt64 f))
  | .nan => .error (.nonIntegral f)

def coerceToColumn :
    ColumnType → Value Time Other → Except (CoerceError Time Other) (Value Time Other)
  | _, .nil => .ok .nil
  | .text, .string s => .ok (.string s)
  | .int, .integer k n =>
    if h : k = .uint64 ∧ 2 ^ 63 ≤ n.val then .error (.overflows (h.1 ▸ n))
    else .ok (.integer .int64 (toInt64 n.val))
  | .int, .float32 f | .int, .float64 f => rt.floatToInt f
  | .float, .float32 f | .float, .float64 f => .ok (.float64 f)
  | .float, .integer _ n => .ok (.float64 (rt.round n.val))
  | .bool, .bool b => .ok (.bool b)
  | .time, .time t => .ok (.time t)
  | .time, .string s =>
    match rt.parse s with
    | some t => .ok (.time t)
    | none => .error (.notTime s)
  | .json, v => .ok v
  | .unknown code, _ => .error (.unknownType code)
  | t, v => .error (.expects t v)

structure DynamicEntity where
  name : String
  dynamic : Bool
  dynColumn : String → Option ColumnType

/-- An error names the entity and the column. -/
def coerceField (ent : DynamicEntity) (field : String × Value Time Other) :
    Except (String × String × CoerceError Time Other) (String × Value Time Other) :=
  if isReservedColumn field.1 then .ok field
  else match ent.dynColumn field.1 with
    | none => .ok field
    | some t =>
      match coerceToColumn rt t field.2 with
      | .ok v => .ok (field.1, v)
      | .error e => .error (ent.name, field.1, e)

def coerceRow (ent : DynamicEntity) (vals : List (String × Value Time Other)) :
    Except (String × String × CoerceError Time Other) (List (String × Value Time Other)) :=
  if ent.dynamic then vals.mapM (coerceField rt ent) else .ok vals

/-- The number that a value is, a float taken exactly. -/
def Value.number : Value Time Other → Option ℚ
  | .integer _ n => some n.val
  | .float32 (.finite q) | .float64 (.finite q) => some q
  | _ => none

/-- The coercion gives the number as an `int64`, or fails where there is none. -/
def CoercesExactly (v : Value Time Other) (m : ℤ) : Prop :=
  match coerceToColumn rt .int v with
  | .ok w => ∃ n : Number .int64, w = .integer .int64 n ∧ n.val = m
  | .error _ => ¬ IntKind.int64.Fits m

variable {rt} {v w : Value Time Other}

theorem toInt64_eq_iff {n : ℤ} : (toInt64 n).val = n ↔ IntKind.int64.Fits n := by
  refine ⟨fun h => h ▸ (toInt64 n).fits, fun h => ?_⟩
  have hlow : -2 ^ 63 ≤ n := h.1
  have hhigh : n < 2 ^ 63 := h.2
  exact Int.bmod_eq_of_le (by omega) (by omega)

theorem toInt64_finite_iff {m : ℤ} :
    (rt.toInt64 (.finite m)).val = m ↔ IntKind.int64.Fits m := by
  refine ⟨fun h => h ▸ (rt.toInt64 (.finite m)).fits, fun h => ?_⟩
  rw [Runtime.toInt64, dif_pos (by simpa using h)]
  exact Rat.num_intCast m

theorem coercesExactly_iff {m : ℤ} (hnumber : v.number = some (m : ℚ)) :
    CoercesExactly rt v m ↔ IntKind.int64.Fits m ∨ ∃ n, v = .integer .uint64 n := by
  cases v with
  | integer k n =>
    have hn : n.val = m := by simpa [Value.number] using hnumber
    subst hn
    rw [CoercesExactly, coerceToColumn]
    by_cases hk : k = .uint64
    · subst hk
      refine iff_of_true ?_ (.inr ⟨n, rfl⟩)
      by_cases hover : 2 ^ 63 ≤ n.val
      · rw [dif_pos ⟨rfl, hover⟩]
        exact fun hfits => absurd hfits.2 (not_lt.mpr hover)
      · rw [dif_neg fun h => hover h.2]
        exact ⟨_, rfl, toInt64_eq_iff.mpr ⟨le_trans (by decide) n.fits.1, not_le.mp hover⟩⟩
    · rw [dif_neg fun h => hk h.1]
      simp [hk, toInt64_eq_iff]
  | float32 f | float64 f =>
    cases f with
    | finite q =>
      have hq : q = m := by simpa [Value.number] using hnumber
      subst hq
      have hcast := @toInt64_finite_iff _ rt m
      simp [CoercesExactly, coerceToColumn, Runtime.floatToInt, hcast]
    | infinite _ | nan => cases hnumber
  | nil | string | bool | time | other => cases hnumber

theorem floatToInt_ok {f : GoFloat} (h : rt.floatToInt f = .ok w) :
    w = .integer .int64 (rt.toInt64 f) := by
  revert h
  fun_cases Runtime.floatToInt <;> rintro ⟨⟩ <;> rfl

theorem coerceToColumn_int64 (n : Number .int64) :
    coerceToColumn rt .int (.integer .int64 n : Value Time Other) = .ok (.integer .int64 n) := by
  have hsame : toInt64 n.val = n := by
    cases n with
    | mk val fits => exact Number.mk.injEq .. ▸ toInt64_eq_iff.mpr fits
  rw [coerceToColumn, dif_neg (by simp), hsame]

theorem coerceToColumn_fixed {t : ColumnType} (h : coerceToColumn rt t v = .ok w) :
    coerceToColumn rt t w = .ok w := by
  revert h
  fun_cases coerceToColumn rt t v <;> intro h <;> try cases h
  all_goals try rfl
  · exact coerceToColumn_int64 _
  · exact floatToInt_ok h ▸ coerceToColumn_int64 _
  · exact floatToInt_ok h ▸ coerceToColumn_int64 _
  · cases v <;> rfl

theorem coerceField_fixed {ent : DynamicEntity} {old new : String × Value Time Other}
    (h : coerceField rt ent old = .ok new) : coerceField rt ent new = .ok new := by
  revert h
  fun_cases coerceField rt ent old <;> rintro ⟨⟩
  · simp [coerceField, *]
  · simp [coerceField, *]
  · rename_i hfree t hcolumn v hv
    simp [coerceField, hfree, hcolumn, coerceToColumn_fixed hv]

/-- Of the numbers, those of `uint` and of floats beyond the range of `int64` are changed by
the coercion, and no others; a coerced row stays as it is. -/
theorem coercion_exact_iff (rt : Runtime Time) :
    (∀ (v : Value Time Other) (m : ℤ), v.number = some (m : ℚ) →
      (CoercesExactly rt v m ↔ IntKind.int64.Fits m ∨ ∃ n, v = .integer .uint64 n)) ∧
    ∀ (ent : DynamicEntity) (vals coerced : List (String × Value Time Other)),
      coerceRow rt ent vals = .ok coerced → coerceRow rt ent coerced = .ok coerced := by
  refine ⟨fun v m => coercesExactly_iff, fun ent vals coerced h => ?_⟩
  unfold coerceRow at h ⊢
  split
  · rename_i hdynamic
    rw [if_pos hdynamic] at h
    refine mapM_eq_ok fun field hfield => ?_
    obtain ⟨old, -, hold⟩ := exists_of_mapM h hfield
    exact coerceField_fixed hold
  · rfl

/-- A `uint` beyond the range becomes negative. -/
theorem uint_wraps :
    @coerceToColumn Unit Unit ⟨fun _ => toInt64 0, fun _ => .nan, fun _ => none⟩ .int
      (.integer .uint ⟨2 ^ 63, by decide⟩) = .ok (.integer .int64 ⟨-2 ^ 63, by decide⟩) :=
  rfl

end Fabriq.Exec.Coercion
