import Mathlib.Data.Nat.Size
import Mathlib.Tactic.Ring

/-!
# Division by a reciprocal

`reciprocal_value()` and `reciprocal_divide()`.  The multiplier that is kept has 33 bits, of
which the highest is always set and is dropped: it is added again as the dividend itself.
-/

namespace LinuxKernel.Arith

open BitVec

section Multiplier

variable {N P a d M c m : Nat}

/-- A quotient by a scaled multiplier, rounded up by less than the dividend can see. -/
theorem mul_div_of_error (hd : 0 < d) (hlow : M ≤ d * c) (herror : a * (d * c - M) < M) :
    a * c / M = a / d := by
  have hle : d * (a / d) ≤ a := Nat.mul_div_le a d
  have hlt : a + 1 ≤ d * (a / d + 1) := Nat.lt_mul_div_succ a hd
  apply Nat.div_eq_of_lt_le
  · calc a / d * M ≤ a / d * (d * c) := Nat.mul_le_mul_left _ hlow
      _ = d * (a / d) * c := by ring
      _ ≤ a * c := Nat.mul_le_mul_right _ hle
  obtain ⟨e, he⟩ := Nat.exists_eq_add_of_le hlow
  rw [he, Nat.add_sub_cancel_left] at herror
  refine Nat.lt_of_mul_lt_mul_left (a := d) ?_
  calc d * (a * c) = a * (d * c) := by ring
    _ = a * M + a * e := by rw [he, Nat.mul_add]
    _ < a * M + M := Nat.add_lt_add_left herror _
    _ = (a + 1) * M := by ring
    _ ≤ d * (a / d + 1) * M := Nat.mul_le_mul_right _ hlt
    _ = d * ((a / d + 1) * M) := by ring

/-- A quotient by the rounded reciprocal, with a precision above the dividend. -/
theorem mul_reciprocal_div (hd : 0 < d) (hdP : d ≤ P) (ha : a < N) :
    a * (N * P / d + 1) / (N * P) = a / d := by
  have hfloor : d * (N * P / d) ≤ N * P := Nat.mul_div_le _ d
  have hceil : N * P < d * (N * P / d + 1) := Nat.lt_mul_div_succ _ hd
  have hadd : a * d < N * P := Nat.mul_lt_mul_of_lt_of_le ha hdP (hd.trans_le hdP)
  refine mul_div_of_error hd hceil.le (lt_of_le_of_lt (Nat.mul_le_mul_left a ?_) hadd)
  rw [Nat.mul_succ]
  omega

theorem reciprocal_split (hd : 0 < d) (hdP : d ≤ P) : N * P / d = N + N * (P - d) / d := by
  have hsum : N * P = N * (P - d) + N * d := by rw [← Nat.mul_add, Nat.sub_add_cancel hdP]
  rw [hsum, Nat.add_mul_div_right _ _ hd, Nat.add_comm]

theorem reciprocal_lt (hdP : P < 2 * d) (hN : d < N) : N * (P - d) / d + 1 < N := by
  have hd : 0 < d := by omega
  have hle : N * (P - d) + N ≤ N * d := by
    rw [← Nat.mul_succ]
    exact Nat.mul_le_mul_left N (by omega)
  have hlt : N * (P - d) / d < N - 1 := by
    rw [Nat.div_lt_iff_lt_mul hd, Nat.sub_mul, Nat.one_mul]
    omega
  omega

theorem mul_div_le_self (a : Nat) (hm : m ≤ N) : a * m / N ≤ a := by
  rw [Nat.mul_comm]
  exact Nat.div_le_of_le_mul (Nat.mul_le_mul_right a hm)

end Multiplier

/-- `fls()`: the number of the highest set bit, from one on. -/
def fls (x : BitVec 32) : Nat :=
  Nat.size x.toNat

structure ReciprocalValue where
  m : BitVec 32
  sh1 : BitVec 8
  sh2 : BitVec 8

def reciprocalValue (d : BitVec 32) : ReciprocalValue :=
  let l := fls (d - 1)
  let m : BitVec 64 := (1#64 <<< 32) * ((1#64 <<< l) - d.setWidth 64)
  let m := m / d.setWidth 64
  let m := m + 1
  { m := m.setWidth 32
    sh1 := .ofNat 8 (min l 1)
    sh2 := .ofNat 8 (max ((l : Int) - 1) 0).toNat }

def reciprocalDivide (a : BitVec 32) (R : ReciprocalValue) : BitVec 32 :=
  let t := ((a.setWidth 64 * R.m.setWidth 64) >>> 32).setWidth 32
  (t + ((a - t) >>> R.sh1)) >>> R.sh2

/-- No step of `reciprocal_value()` overflows, the multiplier has 32 bits, and no shift is by the
width of the word or more. -/
structure Fits (d : BitVec 32) : Prop where
  shift : fls (d - 1) < 64
  difference : d.toNat ≤ 2 ^ fls (d - 1)
  product : 2 ^ 32 * (2 ^ fls (d - 1) - d.toNat) < 2 ^ 64
  quotient : 2 ^ 32 * (2 ^ fls (d - 1) - d.toNat) / d.toNat + 1 < 2 ^ 32
  sh1 : (reciprocalValue d).sh1.toNat < 32
  sh2 : (reciprocalValue d).sh2.toNat < 32

variable {d : BitVec 32}

theorem fls_le (d : BitVec 32) : fls (d - 1) ≤ 32 :=
  Nat.size_le.mpr (d - 1).isLt

theorem toNat_sub_one (hd : 0 < d.toNat) : (d - 1).toNat = d.toNat - 1 := by
  rw [toNat_sub_of_le (by rw [le_def]; exact hd)]
  rfl

theorem le_two_pow_fls (hd : 0 < d.toNat) : d.toNat ≤ 2 ^ fls (d - 1) := by
  have hlt : d.toNat - 1 < 2 ^ fls (d - 1) := by
    rw [← toNat_sub_one hd]
    exact Nat.lt_size_self _
  omega

theorem two_pow_fls_lt (hd : 0 < d.toNat) : 2 ^ fls (d - 1) < 2 * d.toNat := by
  rcases Nat.eq_zero_or_pos (fls (d - 1)) with hl | hl
  · rw [hl]
    omega
  · obtain ⟨l, hl⟩ := Nat.exists_eq_succ_of_ne_zero hl.ne'
    have hle : 2 ^ l ≤ (d - 1).toNat := Nat.lt_size.mp (by rw [← fls, hl]; exact l.lt_succ_self)
    rw [toNat_sub_one hd] at hle
    rw [hl, Nat.pow_succ]
    omega

theorem quotient_lt (hd : 0 < d.toNat) :
    2 ^ 32 * (2 ^ fls (d - 1) - d.toNat) / d.toNat + 1 < 2 ^ 32 :=
  reciprocal_lt (two_pow_fls_lt hd) d.isLt

theorem toNat_one_shiftLeft {l : Nat} (hl : l < 64) : (1#64 <<< l).toNat = 2 ^ l := by
  have hlt : 2 ^ l < 2 ^ 64 := Nat.pow_lt_pow_right (by decide) hl
  rw [toNat_shiftLeft, Nat.shiftLeft_eq, toNat_ofNat, Nat.mod_eq_of_lt (by decide : 1 < 2 ^ 64),
    Nat.one_mul, Nat.mod_eq_of_lt hlt]

theorem toNat_m (hd : 0 < d.toNat) :
    (reciprocalValue d).m.toNat = 2 ^ 32 * (2 ^ fls (d - 1) - d.toNat) / d.toNat + 1 := by
  have hle := le_two_pow_fls hd
  have hpow : 2 ^ fls (d - 1) ≤ 2 ^ 32 := Nat.pow_le_pow_right (by decide) (fls_le d)
  have hshift : (1#64 <<< fls (d - 1)).toNat = 2 ^ fls (d - 1) :=
    toNat_one_shiftLeft (Nat.lt_of_le_of_lt (fls_le d) (by decide))
  have hd64 : (d.setWidth 64).toNat = d.toNat := by
    rw [toNat_setWidth, Nat.mod_eq_of_lt (by omega)]
  have hquot := quotient_lt hd
  simp only [reciprocalValue, toNat_setWidth, toNat_add, toNat_udiv, toNat_mul, hd64]
  rw [toNat_sub_of_le (by rw [le_def, hshift, hd64]; exact hle), hshift, hd64,
    toNat_one_shiftLeft (by decide), Nat.mod_eq_of_lt (by omega : 2 ^ 32 * _ < 2 ^ 64)]
  change (_ + 1) % 2 ^ 64 % 2 ^ 32 = _
  rw [Nat.mod_eq_of_lt (by omega : _ + 1 < 2 ^ 64), Nat.mod_eq_of_lt hquot]

theorem toNat_reciprocalDivide (a : BitVec 32) (R : ReciprocalValue) :
    (reciprocalDivide a R).toNat =
      (a.toNat * R.m.toNat / 2 ^ 32 + (a.toNat - a.toNat * R.m.toNat / 2 ^ 32) / 2 ^ R.sh1.toNat) /
        2 ^ R.sh2.toNat := by
  have ha := a.isLt
  have hm := R.m.isLt
  have hle := mul_div_le_self a.toNat hm.le
  have ht : (((a.setWidth 64 * R.m.setWidth 64) >>> 32).setWidth 32).toNat =
      a.toNat * R.m.toNat / 2 ^ 32 := by
    rw [toNat_setWidth, toNat_ushiftRight, toNat_mul, toNat_setWidth, toNat_setWidth,
      Nat.shiftRight_eq_div_pow, Nat.mod_eq_of_lt (by omega : a.toNat < 2 ^ 64),
      Nat.mod_eq_of_lt (by omega : R.m.toNat < 2 ^ 64), Nat.mod_eq_of_lt (by omega : _ < 2 ^ 64),
      Nat.mod_eq_of_lt (by omega)]
  have hhalf := Nat.div_le_self (a.toNat - a.toNat * R.m.toNat / 2 ^ 32) (2 ^ R.sh1.toNat)
  simp only [reciprocalDivide, ushiftRight_eq', toNat_ushiftRight, toNat_add,
    Nat.shiftRight_eq_div_pow, ht]
  rw [toNat_sub_of_le (by rw [le_def, ht]; exact hle), ht, Nat.mod_eq_of_lt (by omega)]

theorem reciprocal_divide_exact (a d : BitVec 32) (hd : 0 < d.toNat) :
    reciprocalDivide a (reciprocalValue d) = a / d ∧ Fits d := by
  have hle := le_two_pow_fls hd
  have hfls := fls_le d
  have hquot := quotient_lt hd
  have hsh1 : (reciprocalValue d).sh1.toNat = min (fls (d - 1)) 1 := by
    simp only [reciprocalValue, toNat_ofNat]
    omega
  have hsh2 : (reciprocalValue d).sh2.toNat = fls (d - 1) - 1 := by
    simp only [reciprocalValue, toNat_ofNat]
    omega
  have hprod : 2 ^ 32 * (2 ^ fls (d - 1) - d.toNat) < 2 ^ 64 := by
    have hpow : 2 ^ fls (d - 1) ≤ 2 ^ 32 := Nat.pow_le_pow_right (by decide) hfls
    omega
  refine ⟨eq_of_toNat_eq ?_, by omega, hle, hprod, hquot, by omega, by omega⟩
  rw [toNat_reciprocalDivide, toNat_m hd, toNat_udiv, hsh1, hsh2]
  rcases Nat.eq_zero_or_pos (fls (d - 1)) with hl | hl
  · -- the divisor is one
    obtain rfl : d = 1 := eq_of_toNat_eq (by rw [hl] at hle; exact Nat.le_antisymm hle hd)
    have ha := a.isLt
    have hone : (1 : BitVec 32).toNat = 1 := rfl
    rw [hl, hone, Nat.zero_sub, Nat.zero_min, pow_zero, Nat.sub_self, Nat.mul_zero,
      Nat.div_eq_of_lt (by decide : 0 < 1), Nat.mul_one, Nat.div_eq_of_lt ha]
    omega
  obtain ⟨l, hl⟩ := Nat.exists_eq_add_one_of_ne_zero hl.ne'
  have hsum := mul_reciprocal_div hd hle a.isLt
  rw [reciprocal_split hd hle, Nat.add_assoc] at hsum
  rw [hl] at hsum hquot ⊢
  generalize 2 ^ 32 * (2 ^ (l + 1) - d.toNat) / d.toNat + 1 = m at *
  have hq := mul_div_le_self a.toNat hquot.le
  -- the sum of the quotient and the dividend is halved without a 33rd bit
  rw [Nat.mul_add, ← Nat.div_div_eq_div_mul, Nat.add_comm, Nat.add_mul_div_right _ _ (by decide),
    pow_succ' 2 l, ← Nat.div_div_eq_div_mul] at hsum
  rw [Nat.min_eq_right (Nat.le_add_left 1 l), Nat.add_sub_cancel, pow_one, ← hsum]
  congr 1
  omega

theorem reciprocal_divide_exact_seven :
    reciprocalDivide 100 (reciprocalValue 7) = 100 / 7 ∧ Fits 7 :=
  reciprocal_divide_exact 100 7 (by decide)

end LinuxKernel.Arith
