import Mathlib.Data.Nat.Bitwise

/-!
# Rounding up to an alignment in words

Rounding a word up to a multiple of a power of two adds the mask of the alignment and
clears the bits of it.  The sum may wrap around; the result is then smaller than the word.
-/

namespace LinuxKernel.Lib

/-- Rounding up in words of `w` bits, with a mask. -/
def alignUp (w x a : Nat) : Nat :=
  Nat.ldiff ((x + (a - 1)) % 2 ^ w) (a - 1)

variable {w x k : Nat}

theorem ldiff_two_pow_sub_one (n k : Nat) : Nat.ldiff n (2 ^ k - 1) = n / 2 ^ k * 2 ^ k := by
  apply Nat.eq_of_testBit_eq
  intro i
  rw [Nat.testBit_ldiff, Nat.testBit_two_pow_sub_one, Nat.testBit_mul_two_pow,
    Nat.testBit_div_two_pow]
  by_cases hi : i < k
  · have hik : ¬ k ≤ i := Nat.not_le_of_lt hi
    simp [hi, hik]
  · have hik : k ≤ i := Nat.le_of_not_lt hi
    simp [hi, hik]

theorem dvd_alignUp (w x k : Nat) : 2 ^ k ∣ alignUp w x (2 ^ k) := by
  unfold alignUp
  rw [ldiff_two_pow_sub_one]
  exact dvd_mul_left _ _

theorem alignUp_le_add (w x k : Nat) : alignUp w x (2 ^ k) ≤ x + (2 ^ k - 1) := by
  unfold alignUp
  rw [ldiff_two_pow_sub_one]
  exact (Nat.div_mul_le_self _ _).trans (Nat.mod_le _ _)

theorem alignUp_of_lt (h : x + (2 ^ k - 1) < 2 ^ w) :
    x ≤ alignUp w x (2 ^ k) ∧ ∀ z, x ≤ z → 2 ^ k ∣ z → alignUp w x (2 ^ k) ≤ z := by
  have hpos : 0 < 2 ^ k := Nat.two_pow_pos k
  unfold alignUp
  rw [ldiff_two_pow_sub_one, Nat.mod_eq_of_lt h]
  constructor
  · have hmod := Nat.mod_lt (x + (2 ^ k - 1)) hpos
    have hdiv := Nat.div_add_mod' (x + (2 ^ k - 1)) (2 ^ k)
    omega
  rintro z hz ⟨q, rfl⟩
  have hq : (x + (2 ^ k - 1)) / 2 ^ k < q + 1 := by
    rw [Nat.div_lt_iff_lt_mul hpos, Nat.add_mul, mul_comm q]
    omega
  rw [mul_comm (2 ^ k)]
  exact Nat.mul_le_mul_right _ (Nat.le_of_lt_succ hq)

end LinuxKernel.Lib
