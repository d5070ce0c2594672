import Mathlib.Algebra.Ring.Nat
import Mathlib.Data.List.Sort
import Mathlib.Data.Nat.Size

/-!
# Division on 32 bit machines

`lib/div64.c`, with `do_div()` of such a machine; unsigned words are numbers.  A divisor of more
than 32 bits is cut to its 31 leading bits, and the quotient is taken to be one too large at most.
-/

namespace LinuxKernel.Arith

open BitVec

/-- The first loop of `__div64_32()`. -/
def doubleLoop (rem b d : Nat) : Nat × Nat :=
  if 0 < b ∧ b < 2 ^ 63 ∧ b < rem then doubleLoop rem ((b + b) % 2 ^ 64) ((d + d) % 2 ^ 64)
  else (b, d)
termination_by rem - b

/-- The second one: `res` and `rem` in the end. -/
def restoreLoop (res rem b d : Nat) : Nat × Nat :=
  let r := if rem ≥ b then ((res + d) % 2 ^ 64, rem - b) else (res, rem)
  if d / 2 = 0 then r else restoreLoop r.1 r.2 (b / 2) (d / 2)
termination_by d

/-- `__div64_32()`: the quotient and the remainder. -/
def div6432 (n base : Nat) : Nat × Nat :=
  let high := n / 2 ^ 32
  let r :=
    if high ≥ base then
      (high / base * 2 ^ 32, (n + 2 ^ 64 - high / base * base % 2 ^ 32 * 2 ^ 32) % 2 ^ 64)
    else (0, n)
  let l := doubleLoop r.2 base 1
  restoreLoop r.1 r.2 l.1 l.2

def divU64Rem (dividend divisor : Nat) : Nat × Nat :=
  if dividend / 2 ^ 32 = 0 then (dividend / divisor, dividend % divisor)
  else div6432 dividend divisor

def divS64Rem (dividend : BitVec 64) (divisor : BitVec 32) : BitVec 64 × BitVec 32 :=
  if dividend.toInt < 0 then
    let r := divU64Rem (-dividend).toNat divisor.abs.toNat
    (if divisor.toInt > 0 then -.ofNat 64 r.1 else .ofNat 64 r.1, -.ofNat 32 r.2)
  else
    let r := divU64Rem dividend.toNat divisor.abs.toNat
    (if divisor.toInt < 0 then -.ofNat 64 r.1 else .ofNat 64 r.1, .ofNat 32 r.2)

/-- The quotient of what is left of the two, less one. -/
def cutQuot (dividend divisor : Nat) : Nat :=
  -- `fls()` is the number of bits
  let n := 1 + (divisor / 2 ^ 32).size
  let quot := (divU64Rem (dividend / 2 ^ n) (divisor / 2 ^ n % 2 ^ 32)).1
  if quot ≠ 0 then quot - 1 else quot

def div64U64Rem (dividend divisor : Nat) : Nat × Nat :=
  if divisor / 2 ^ 32 = 0 then divU64Rem dividend divisor
  else
    let quot := cutQuot dividend divisor
    let remainder := (dividend + 2 ^ 64 - quot * divisor % 2 ^ 64) % 2 ^ 64
    if remainder ≥ divisor then (quot + 1, remainder - divisor) else (quot, remainder)

def div64U64 (dividend divisor : Nat) : Nat :=
  if divisor / 2 ^ 32 = 0 then (divU64Rem dividend divisor).1
  else
    let quot := cutQuot dividend divisor
    if (dividend + 2 ^ 64 - quot * divisor % 2 ^ 64) % 2 ^ 64 ≥ divisor then quot + 1 else quot

def div64S64 (dividend divisor : BitVec 64) : BitVec 64 :=
  let quot : BitVec 64 := .ofNat 64 (div64U64 dividend.abs.toNat divisor.abs.toNat)
  let t := (dividend ^^^ divisor).sshiftRight 63
  (quot ^^^ t) - t

section Base

variable {n base res rem k : Nat} (hbase : 0 < base)

include hbase

theorem doubleLoop_spec {b d : Nat} (hb : b = base * 2 ^ k) (hd : d = 2 ^ k) (hlt : b < 2 ^ 64)
    (hrem : rem < 2 ^ 64) :
    ∃ k, doubleLoop rem b d = (base * 2 ^ k, 2 ^ k) ∧ rem < base * 2 ^ k * 2 := by
  have hle : 2 ^ k ≤ base * 2 ^ k := Nat.le_mul_of_pos_left _ hbase
  have hpos := Nat.two_pow_pos k
  fun_induction doubleLoop rem b d generalizing k with
  | case1 b d h ih =>
    rw [Nat.mod_eq_of_lt (by omega), Nat.mod_eq_of_lt (by omega)] at ih ⊢
    refine ih (k := k + 1) ?_ ?_ (by omega) ?_ (Nat.two_pow_pos _)
    all_goals
      rw [Nat.pow_succ]
    · rw [← Nat.mul_assoc, hb, Nat.mul_two]
    · rw [hd, Nat.mul_two]
    · exact Nat.le_mul_of_pos_left _ hbase
  | case2 b d h => exact ⟨k, by rw [hb, hd], by omega⟩

variable (hn : base * res + rem = n) (hlt : n < 2 ^ 64)

include hn hlt

theorem restore_step {d : Nat} (hrem : rem < base * d * 2) {r : Nat × Nat}
    (hr : r = if rem ≥ base * d then ((res + d) % 2 ^ 64, rem - base * d) else (res, rem)) :
    base * r.1 + r.2 = n ∧ r.2 < base * d := by
  subst hr
  split_ifs with hge
  · have hle : res + d ≤ base * (res + d) := Nat.le_mul_of_pos_left _ hbase
    rw [Nat.mul_add] at hle
    rw [Nat.mod_eq_of_lt (by omega), Nat.mul_add]
    omega
  · exact ⟨hn, Nat.lt_of_not_le hge⟩

/-- The loop keeps `base * res + rem`, with `rem` below twice what is tried next. -/
theorem restoreLoop_eq (hrem : rem < base * 2 ^ k * 2) :
    restoreLoop res rem (base * 2 ^ k) (2 ^ k) = (n / base, n % base) := by
  induction k generalizing res rem with
  | zero =>
    obtain ⟨hsum, hless⟩ := restore_step hbase hn hlt hrem rfl
    obtain ⟨hdiv, hmod⟩ := (Nat.div_mod_unique hbase).mpr
      ⟨(Nat.add_comm _ _).trans hsum, hless.trans_eq (Nat.mul_one base)⟩
    rw [restoreLoop, if_pos (by decide)]
    exact Prod.ext hdiv.symm hmod.symm
  | succ k ih =>
    obtain ⟨hsum, hless⟩ := restore_step hbase hn hlt hrem rfl
    have hhalf (m : Nat) : m * 2 ^ (k + 1) / 2 = m * 2 ^ k := by
      rw [Nat.pow_succ, ← Nat.mul_assoc, Nat.mul_div_cancel _ (by decide)]
    have hone : 2 ^ (k + 1) / 2 = 2 ^ k := by simpa using hhalf 1
    rw [restoreLoop, hone, hhalf, if_neg (Nat.two_pow_pos k).ne']
    exact ih hsum (by rwa [Nat.mul_assoc, ← Nat.pow_succ])

omit hn

theorem div6432_eq (hlt' : base < 2 ^ 32) : div6432 n base = (n / base, n % base) := by
  dsimp only [div6432]
  generalize hr : (if n / 2 ^ 32 ≥ base then _ else (0, n)) = r
  have hsum : base * r.1 + r.2 = n := by
    subst hr
    split_ifs
    · have hle : n / 2 ^ 32 / base * base ≤ n / 2 ^ 32 := Nat.div_mul_le_self _ _
      rw [Nat.mod_eq_of_lt (a := _ * base) (by omega), ← Nat.mul_assoc, Nat.mul_comm base]
      omega
    · simp
  obtain ⟨k, hdouble, hrem⟩ := @doubleLoop_spec base r.2 0 hbase _ 1 (Nat.mul_one base).symm rfl
    (by omega) (by omega)
  rw [hdouble]
  exact restoreLoop_eq hbase hsum hlt hrem

theorem divU64Rem_eq (hlt' : base < 2 ^ 32) : divU64Rem n base = (n / base, n % base) := by
  unfold divU64Rem
  split_ifs
  · rfl
  · exact div6432_eq hbase hlt hlt'

end Base

/-- The divisor has at most 32 bits, or what is cut off it does not count for two. -/
def CutFits (N D : Nat) : Prop :=
  D < 2 ^ 32 ∨ N % D + (N / D + 2) * (D % 2 ^ (1 + (D / 2 ^ 32).size)) < 2 * D

section Wide

variable {N D s : Nat}

theorem div_cut_le_iff (hs : 0 < D / s) :
    N / D ≤ N / s / (D / s) ∧
      (N / s / (D / s) ≤ N / D + 1 ↔ N % D + (N / D + 2) * (D % s) < 2 * D) := by
  have hcut := Nat.div_add_mod D s
  have hpos : 0 < s * (D / s) := Nat.mul_pos (Nat.pos_of_ne_zero fun h => by simp [h] at hs) hs
  rw [Nat.div_div_eq_div_mul]
  refine ⟨Nat.div_le_div_left (by omega) hpos, ?_⟩
  rw [← Nat.lt_add_one_iff, Nat.div_lt_iff_lt_mul hpos]
  have hN := Nat.div_add_mod N D
  have hsum : (N / D + 1 + 1) * D =
      (N / D + 1 + 1) * (s * (D / s)) + (N / D + 2) * (D % s) := by
    rw [← Nat.mul_add, hcut]
  rw [Nat.add_mul, Nat.add_mul, Nat.mul_comm (N / D) D] at hsum
  omega

theorem cut_bounds (hD : 2 ^ 32 ≤ D) (hs : s = 1 + (D / 2 ^ 32).size) :
    0 < D / 2 ^ s ∧ D / 2 ^ s < 2 ^ 32 := by
  have hhigh := Nat.lt_size_self (D / 2 ^ 32)
  obtain ⟨f, hf⟩ := Nat.exists_eq_add_one.mpr (Nat.size_pos.mpr (show 0 < D / 2 ^ 32 by omega))
  have hle : 2 ^ f ≤ D / 2 ^ 32 := Nat.lt_size.mp (by omega)
  rw [hf, Nat.pow_succ] at hhigh
  rw [hs, hf, Nat.add_comm, Nat.pow_succ, Nat.pow_succ, Nat.div_lt_iff_lt_mul (by omega)]
  exact ⟨Nat.div_pos (by omega) (by omega), by omega⟩

variable (hN : N < 2 ^ 64) (hD : 0 < D)

include hN

theorem cutQuot_spec (hD : 2 ^ 32 ≤ D) :
    N / D ≤ cutQuot N D + 1 ∧ cutQuot N D ≤ N ∧ (cutQuot N D ≤ N / D ↔ CutFits N D) := by
  obtain ⟨hpos, hlt⟩ := cut_bounds hD rfl
  dsimp only [cutQuot, CutFits]
  generalize 1 + (D / 2 ^ 32).size = n at hpos hlt ⊢
  obtain ⟨hle, hiff⟩ := div_cut_le_iff (N := N) hpos
  rw [Nat.mod_eq_of_lt hlt, divU64Rem_eq hpos ((Nat.div_le_self _ _).trans_lt hN) hlt, ← hiff]
  have hquot : N / 2 ^ n / (D / 2 ^ n) ≤ N := (Nat.div_le_self _ _).trans (Nat.div_le_self _ _)
  have hzero := Nat.zero_le (N / D)
  split_ifs <;> omega

include hD

/-- One more is put back if there is room for it. -/
theorem div64U64Rem_spec :
    (CutFits N D → div64U64Rem N D = (N / D, N % D)) ∧
      ((div64U64Rem N D).1 = N / D → CutFits N D) ∧ (div64U64Rem N D).1 ≤ N + 1 := by
  dsimp only [div64U64Rem]
  by_cases hhigh : D / 2 ^ 32 = 0
  · have hlt : D < 2 ^ 32 := by omega
    rw [if_pos hhigh, divU64Rem_eq hD hN hlt]
    exact ⟨fun _ => rfl, fun _ => .inl hlt, Nat.le_succ_of_le (Nat.div_le_self N D)⟩
  · obtain ⟨hge, hle, hiff⟩ := cutQuot_spec (D := D) hN (by omega)
    rw [if_neg hhigh, ← hiff]
    generalize cutQuot N D = p at *
    refine ⟨fun h => ?_, fun h => ?_, ?_⟩
    · have hsum := Nat.div_add_mod' N D
      have hmod := Nat.mod_lt N hD
      have hrem : p = N / D ∧ p * D + N % D = N ∨ p + 1 = N / D ∧ p * D + D + N % D = N := by
        obtain hp | hp : p = N / D ∨ p + 1 = N / D := by omega
        · exact .inl ⟨hp, by rw [hp, hsum]⟩
        · exact .inr ⟨hp, by rw [← Nat.add_one_mul, hp, hsum]⟩
      rw [Nat.mod_eq_of_lt (a := p * D) (by omega)]
      split_ifs
      all_goals
        rw [Prod.mk.injEq]
        omega
    all_goals
      split_ifs at *
      all_goals
        dsimp only at *
        omega

omit hN hD in
theorem div64U64_eq : div64U64 N D = (div64U64Rem N D).1 := by
  dsimp only [div64U64, div64U64Rem]
  split_ifs <;> rfl

end Wide

section Signed

variable (x y : BitVec 64) {w : Nat} (z : BitVec w)

theorem natCast_abs : (z.abs.toNat : Int) = if z.toInt < 0 then -z.toInt else z.toInt := by
  have hlt := z.isLt
  have hcond := z.toInt_eq_msb_cond
  rw [toNat_abs]
  simp only [msb_eq_toInt, decide_eq_true_eq] at hcond ⊢
  split_ifs at hcond ⊢ <;> omega

/-- The results for the absolute values, with their signs. -/
theorem signed_eq :
    (if x.toInt < 0 ↔ z.toInt < 0 then BitVec.ofNat 64 (x.abs.toNat / z.abs.toNat)
      else -.ofNat 64 (x.abs.toNat / z.abs.toNat)) = .ofInt 64 (x.toInt.tdiv z.toInt) ∧
    (if x.toInt < 0 then -BitVec.ofNat 32 (x.abs.toNat % z.abs.toNat)
      else .ofNat 32 (x.abs.toNat % z.abs.toNat)) = .ofInt 32 (x.toInt.tmod z.toInt) := by
  rw [← ofInt_natCast, ← ofInt_natCast, Int.ofNat_tdiv, Int.ofNat_tmod, natCast_abs, natCast_abs]
  by_cases hx : x.toInt < 0 <;> by_cases hz : z.toInt < 0 <;> simp [hx, hz, ofInt_neg]

theorem toInt_ofInt_tdiv {z : BitVec w} (hw : w ≤ 64) (h : x ≠ intMin 64 ∨ z.toInt ≠ -1) :
    (BitVec.ofInt 64 (x.toInt.tdiv z.toInt)).toInt = x.toInt.tdiv z.toInt := by
  rw [← toInt_signExtend_of_le hw, toInt_ofInt, ← toInt_sdiv]
  refine toInt_sdiv_of_ne_or_ne _ _ (h.imp_right fun h heq => h ?_)
  rw [← toInt_signExtend_of_le hw, heq]
  rfl

theorem toNat_abs_pos {z : BitVec w} (hz : z ≠ 0) : 0 < z.abs.toNat := by
  have hne : z.toInt ≠ 0 := fun h => hz (toInt_inj.mp (h.trans toInt_zero.symm))
  have habs := natCast_abs z
  split at habs <;> omega

theorem divS64Rem_eq {base : BitVec 32} (hbase : base ≠ 0) : divS64Rem x base =
    (.ofInt 64 (x.toInt.tdiv base.toInt), .ofInt 32 (x.toInt.tmod base.toInt)) := by
  have hne : base.toInt ≠ 0 := fun h => hbase (toInt_inj.mp h)
  have habs : x.abs.toNat = if x.toInt < 0 then (-x).toNat else x.toNat := by
    simp only [abs_eq, msb_eq_toInt, decide_eq_true_eq, apply_ite BitVec.toNat]
  rw [← (signed_eq x base).1, ← (signed_eq x base).2]
  dsimp only [divS64Rem]
  split_ifs at habs ⊢
  all_goals first
    | omega
    | rw [← habs, divU64Rem_eq (toNat_abs_pos hbase) x.abs.isLt base.abs.isLt]

theorem sshiftRight_sign : x.sshiftRight 63 = if x.toInt < 0 then allOnes 64 else 0 := by
  have hle := x.le_toInt
  have hlt := x.toInt_lt
  refine eq_of_toInt_eq ?_
  rw [toInt_sshiftRight, Int.shiftRight_eq_div_pow, apply_ite BitVec.toInt]
  change _ = if _ then (-1 : Int) else 0
  split_ifs <;> omega

theorem div64S64_eq : div64S64 x y =
    if x.toInt < 0 ↔ y.toInt < 0 then .ofNat 64 (div64U64 x.abs.toNat y.abs.toNat)
    else -.ofNat 64 (div64U64 x.abs.toNat y.abs.toNat) := by
  have hsign : (if x.toInt < 0 then allOnes 64 else 0) ^^^ (if y.toInt < 0 then allOnes 64 else 0) =
      if x.toInt < 0 ↔ y.toInt < 0 then 0 else allOnes 64 := by
    split_ifs <;> first | omega | rfl
  dsimp only [div64S64]
  rw [sshiftRight_xor_distrib, sshiftRight_sign, sshiftRight_sign, hsign]
  split_ifs
  · simp
  · rw [xor_allOnes, neg_eq_not_add, BitVec.sub_eq_add_neg]
    rfl

end Signed

/-- The first two functions are exact, the others exactly if `CutFits` holds. -/
theorem div64_exact_iff (x y : BitVec 64) (base : BitVec 32) (hbase : base ≠ 0) (hy : y ≠ 0) :
    div6432 x.toNat base.toNat = (x.toNat / base.toNat, x.toNat % base.toNat) ∧
      (x ≠ intMin 64 ∨ base.toInt ≠ -1 →
        (divS64Rem x base).1.toInt = x.toInt.tdiv base.toInt) ∧
      (divS64Rem x base).2.toInt = x.toInt.tmod base.toInt ∧
      (div64U64Rem x.toNat y.toNat = (x.toNat / y.toNat, x.toNat % y.toNat) ↔
        CutFits x.toNat y.toNat) ∧
      (div64U64 x.toNat y.toNat = x.toNat / y.toNat ↔ CutFits x.toNat y.toNat) ∧
      (x ≠ intMin 64 ∨ y.toInt ≠ -1 →
        ((div64S64 x y).toInt = x.toInt.tdiv y.toInt ↔ CutFits x.abs.toNat y.abs.toNat)) := by
  have hpos {w : Nat} {z : BitVec w} (h : z ≠ 0) : 0 < z.toNat :=
    Nat.pos_of_ne_zero fun h' => h (eq_of_toNat_eq h')
  obtain ⟨hexact, hfits, -⟩ := div64U64Rem_spec x.isLt (hpos hy)
  rw [divS64Rem_eq x hbase, div64U64_eq]
  refine ⟨div6432_eq (hpos hbase) x.isLt base.isLt, toInt_ofInt_tdiv x (by decide), ?_,
    ⟨fun h => hfits (by rw [h]), hexact⟩, ⟨hfits, fun h => by rw [hexact h]⟩, fun hmin => ?_⟩
  · have habs := Int.natAbs_tmod x.toInt base.toInt
    have hlt := Nat.mod_lt x.toInt.natAbs (Int.natAbs_pos.mpr fun h => hbase (toInt_inj.mp h))
    have hle := base.le_toInt
    have hge := base.toInt_lt
    exact toInt_ofInt_eq_self (by decide) (by omega) (by omega)
  · obtain ⟨hexact, hfits, hle⟩ := div64U64Rem_spec x.abs.isLt (toNat_abs_pos hy)
    rw [← toInt_ofInt_tdiv x (by decide) hmin, toInt_inj, ← (signed_eq x y).1, div64S64_eq,
      div64U64_eq]
    refine ⟨fun h => hfits ?_, fun h => by rw [hexact h]⟩
    have habs := natCast_abs x
    have hmin := x.le_toInt
    have hmax := x.toInt_lt
    have hinj : BitVec.ofNat 64 (div64U64Rem x.abs.toNat y.abs.toNat).1 =
        .ofNat 64 (x.abs.toNat / y.abs.toNat) := by
      split_ifs at h
      · exact h
      · exact BitVec.neg_inj.mp h
    have hquot := congrArg BitVec.toNat hinj
    rwa [toNat_ofNat, toNat_ofNat, Nat.mod_eq_of_lt (by split at habs <;> omega),
      Nat.mod_eq_of_lt ((Nat.div_le_self _ _).trans_lt x.abs.isLt)] at hquot

theorem div64_exact_iff_wide : div64U64 1099511627776 8589934592 = 128 :=
  (div64_exact_iff 1099511627776 8589934592 7 (by decide) (by decide)).2.2.2.2.1.mpr
    (.inr (by decide +kernel))

theorem div64U64_wrong : div64U64 18446744073709551615 4294967299 = 4294967295 ∧
    18446744073709551615 / 4294967299 = 4294967293 := by
  simp [div64U64, cutQuot, divU64Rem_eq]

end LinuxKernel.Arith
