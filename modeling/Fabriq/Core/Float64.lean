import Mathlib.Algebra.Order.Ring.Rat

namespace Fabriq.Core.Float64

/-- The `float64` nearest to an integer: 53 significant bits, the even one of two. -/
def float64 (n : Int) : Int :=
  let unit := 2 ^ (n.natAbs.log2 - 52)
  let m := n.natAbs / unit
  let rest := n.natAbs % unit
  let nearest := if 2 * rest < unit ∨ 2 * rest = unit ∧ m % 2 = 0 then m else m + 1
  n.sign * (nearest * unit : Nat)

/-- The `float64` that a number is taken at.  A Go number that is no integer is one already. -/
def toFloat (q : ℚ) : ℚ :=
  if q.den = 1 then float64 q.num else q

theorem float64_of_lt {n : Int} (h : n.natAbs < 2 ^ 53) : float64 n = n := by
  have hlog : n.natAbs.log2 - 52 = 0 := by
    rcases Nat.eq_zero_or_pos n.natAbs with hzero | hpos
    · rw [hzero]
      rfl
    · have := (Nat.log2_lt hpos.ne').mpr h
      omega
  simp only [float64, hlog, pow_zero, Nat.div_one, Nat.mod_one, mul_one]
  exact Int.sign_mul_natAbs n

theorem toFloat_of_lt {q : ℚ} (hden : q.den = 1) (h : q.num.natAbs < 2 ^ 53) : toFloat q = q := by
  rw [toFloat, if_pos hden, float64_of_lt h]
  exact Rat.coe_int_num_of_den_eq_one hden

end Fabriq.Core.Float64
