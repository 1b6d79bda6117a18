import Mathlib.Algebra.Group.Nat.Defs

namespace CompleteIo

/-- The result of an operation on unsigned integers of `w` bits, or none where it overflows. -/
def checked (w n : ℕ) : Option ℕ := if n < 2 ^ w then some n else none

/-- `as` between unsigned integers. -/
def truncateTo (w n : ℕ) : ℕ := n % 2 ^ w

/-- `as` from an unsigned to the signed integer of the same width. -/
def asSigned (w n : ℕ) : ℤ := Int.bmod n (2 ^ w)

variable {w n m : ℕ}

theorem checked_eq_some_iff : checked w n = some m ↔ n = m ∧ n < 2 ^ w := by
  unfold checked
  split
  · rename_i h
    simp [h]
  · rename_i h
    simp [h]

theorem truncateTo_le : truncateTo w n ≤ n := Nat.mod_le ..

theorem truncateTo_of_lt (h : n < 2 ^ w) : truncateTo w n = n := Nat.mod_eq_of_lt h

/-- The upper half of the range becomes negative. -/
theorem asSigned_nonneg_iff (h : n < 2 ^ (w + 1)) : 0 ≤ asSigned (w + 1) n ↔ n < 2 ^ w := by
  have hmod : (n : ℤ) % ((2 ^ (w + 1) : ℕ) : ℤ) = n := Int.emod_eq_of_lt (by omega) (by omega)
  have hpow : 2 ^ (w + 1) = 2 * 2 ^ w := by omega
  simp only [asSigned, Int.bmod, hmod]
  split <;> omega

theorem asSigned_of_lt (h : n < 2 ^ w) : asSigned (w + 1) n = n := by
  have hpow : 2 ^ (w + 1) = 2 * 2 ^ w := by omega
  exact Int.bmod_eq_of_le_mul_two (by omega) (by omega)

end CompleteIo
