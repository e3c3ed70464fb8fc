import Mathlib.Order.Basic

namespace Fabriq.Lib.Search

/-- The loop of Go's `sort.Search`, one round per unit of fuel. -/
def searchLoop (f : Nat → Bool) : Nat → Nat → Nat → Nat
  | 0, i, _ => i
  | fuel + 1, i, j =>
    if i < j then
      if f ((i + j) / 2) then searchLoop f fuel i ((i + j) / 2)
      else searchLoop f fuel ((i + j) / 2 + 1) j
    else i

/-- The smallest index in `[0, n)` at which a monotone test holds, `n` if none. -/
def search (n : Nat) (f : Nat → Bool) : Nat :=
  searchLoop f n 0 n

theorem searchLoop_le (f : Nat → Bool) {n fuel i j : Nat} (hij : i ≤ j) (hjn : j ≤ n) :
    searchLoop f fuel i j ≤ n := by
  induction fuel generalizing i j with
  | zero => exact Nat.le_trans hij hjn
  | succ fuel ih =>
    simp only [searchLoop]
    split_ifs
    · exact ih (by omega) (by omega)
    · exact ih (by omega) hjn
    · exact Nat.le_trans hij hjn

theorem search_le (n : Nat) (f : Nat → Bool) : search n f ≤ n :=
  searchLoop_le f (Nat.zero_le n) (Nat.le_refl n)

/-- Everything below the loop's interval fails the test and everything from its end on passes it,
so an interval shrunk to a point is the boundary. -/
theorem searchLoop_spec {f : Nat → Bool} {n fuel i j : Nat}
    (hmono : ∀ a b, a ≤ b → b < n → f a → f b) (hfuel : j - i ≤ fuel) (hij : i ≤ j) (hjn : j ≤ n)
    (hlow : ∀ k, k < i → f k = false) (hhigh : ∀ k, j ≤ k → k < n → f k) :
    (∀ k, k < searchLoop f fuel i j → f k = false) ∧
      ∀ k, searchLoop f fuel i j ≤ k → k < n → f k := by
  induction fuel generalizing i j with
  | zero =>
    have hji : j = i := by omega
    subst hji
    exact ⟨hlow, hhigh⟩
  | succ fuel ih =>
    simp only [searchLoop]
    split_ifs with hlt htest
    · refine ih (by omega) (by omega) (by omega) hlow ?_
      intro k hk hkn
      exact hmono _ k hk hkn htest
    · refine ih (by omega) (by omega) hjn ?_ hhigh
      intro k hk
      rw [Bool.eq_false_iff]
      intro hfk
      exact htest (hmono k _ (by omega) (by omega) hfk)
    · have hji : j = i := by omega
      subst hji
      exact ⟨hlow, hhigh⟩

theorem search_spec {n : Nat} {f : Nat → Bool} (hmono : ∀ a b, a ≤ b → b < n → f a → f b) :
    (∀ k, k < search n f → f k = false) ∧ ∀ k, search n f ≤ k → k < n → f k := by
  apply searchLoop_spec hmono (by omega) (Nat.zero_le n) (Nat.le_refl n)
  · intro k hk
    omega
  · intro k hk hkn
    omega

example : search 5 (fun i => decide (3 ≤ i)) = 3 := by decide

end Fabriq.Lib.Search
