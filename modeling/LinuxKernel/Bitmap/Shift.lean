import LinuxKernel.Bitmap.Region

/-!
# Shifts of bitmaps

`__bitmap_shift_right()` and `__bitmap_shift_left()` of `lib/bitmap.c`, with longs of 64 bits and
both bitmaps in one memory.  The one goes up through the longs and the other one down, so that a
bitmap can be shifted in place.
-/

namespace LinuxKernel.Bitmap

open Lib BitVec

/-- `BITMAP_LAST_WORD_MASK()`; the number of bits is an `unsigned int`. -/
def bitmapLastWordMask (nbits : Nat) : BitVec (2 ^ 6) :=
  allOnes (2 ^ 6) >>> ((2 ^ 32 - nbits % 2 ^ 32) % 64)

/-- The first `n` passes of a loop that stores a long at each index. -/
def storeUp (dst : Nat) (long : Longs 6 → Nat → BitVec (2 ^ 6)) : Nat → Longs 6 → Longs 6
  | 0, mem => mem
  | n + 1, mem =>
    let mem := storeUp dst long n mem
    Function.update mem (dst + n) (long mem n)

/-- A loop that stores a long at each index from `n - 1` down to 0. -/
def storeDown (dst : Nat) (long : Longs 6 → Nat → BitVec (2 ^ 6)) : Nat → Longs 6 → Longs 6
  | 0, mem => mem
  | n + 1, mem => storeDown dst long n (Function.update mem (dst + n) (long mem n))

/-- `memset()` to zero, under the test for any longs at all. -/
def zeroLongs (first n : Nat) (mem : Longs 6) : Longs 6 :=
  if n ≠ 0 then mapWords (fun _ => 0) first n mem else mem

/-- A long of the source, the last without bits behind the bitmap. -/
def srcLong (nbits src : Nat) (mem : Longs 6) (k : Nat) : BitVec (2 ^ 6) :=
  if k = bitsToLongs 6 nbits - 1 then mem (src + k) &&& bitmapLastWordMask nbits
  else mem (src + k)

/-- The body of the loop of `__bitmap_shift_right()`. -/
def rightLong (nbits src off rem : Nat) (mem : Longs 6) (k : Nat) : BitVec (2 ^ 6) :=
  let upper :=
    if rem = 0 ∨ bitsToLongs 6 nbits ≤ off + k + 1 then 0
    else srcLong nbits src mem (off + k + 1) <<< (64 - rem)
  let lower := srcLong nbits src mem (off + k) >>> rem
  lower ||| upper

def bitmapShiftRight (mem : Longs 6) (dst src shift nbits : Nat) : Longs 6 :=
  let lim := bitsToLongs 6 nbits
  let off := shift / 64
  zeroLongs (dst + (lim - off)) off
    (storeUp dst (rightLong nbits src off (shift % 64)) (lim - off) mem)

/-- The body of the loop of `__bitmap_shift_left()`. -/
def leftLong (src rem : Nat) (mem : Longs 6) (k : Nat) : BitVec (2 ^ 6) :=
  let lower := if rem ≠ 0 ∧ 0 < k then mem (src + (k - 1)) >>> (64 - rem) else 0
  let upper := mem (src + k) <<< rem
  lower ||| upper

def bitmapShiftLeft (mem : Longs 6) (dst src shift nbits : Nat) : Longs 6 :=
  let off := shift / 64
  zeroLongs dst off
    (storeDown (dst + off) (leftLong src (shift % 64)) (bitsToLongs 6 nbits - off) mem)

section Loops

theorem zeroLongs_apply (first n : Nat) (mem : Longs 6) (x : Nat) :
    zeroLongs first n mem x = if first ≤ x ∧ x < first + n then 0 else mem x := by
  unfold zeroLongs
  split
  · exact mapWords_apply _ x
  · exact (if_neg (by omega)).symm

variable (long : Longs 6 → Nat → BitVec (2 ^ 6)) (mem : Longs 6) (dst n x : Nat)

/-- No pass reads what a pass before it has stored. -/
theorem storeUp_apply (hreads : ∀ k < n, ∀ now : Longs 6,
      (∀ x, ¬ (dst ≤ x ∧ x < dst + k) → now x = mem x) → long now k = long mem k) :
    storeUp dst long n mem x = if dst ≤ x ∧ x < dst + n then long mem (x - dst) else mem x := by
  induction n generalizing x with
  | zero => exact (if_neg (by omega)).symm
  | succ n ih =>
    have hn := fun x => ih x fun k hk => hreads k (Nat.lt_succ_of_lt hk)
    have hlong : long (storeUp dst long n mem) n = long mem n :=
      hreads n n.lt_succ_self _ fun x hx => (hn x).trans (if_neg hx)
    rw [storeUp, Function.update_apply, hlong, hn]
    split_ifs with h₁ h₂ h₃ h₄
    any_goals omega
    · rw [h₁, Nat.add_sub_cancel_left]
    · rfl
    · rfl

theorem storeDown_apply {now : Longs 6} {last : Nat} (hn : n ≤ last)
    (hnow : ∀ x, now x = if dst + n ≤ x ∧ x < dst + last then long mem (x - dst) else mem x)
    (hreads : ∀ k < n, ∀ now : Longs 6,
      (∀ x, ¬ (dst + k < x ∧ x < dst + last) → now x = mem x) → long now k = long mem k) :
    storeDown dst long n now x =
      if dst ≤ x ∧ x < dst + last then long mem (x - dst) else mem x := by
  induction n generalizing now with
  | zero => exact hnow x
  | succ n ih =>
    have hlong : long now n = long mem n :=
      hreads n n.lt_succ_self _ fun x hx => (hnow x).trans (if_neg (by omega))
    refine ih (by omega) (fun x => ?_) fun k hk => hreads k (Nat.lt_succ_of_lt hk)
    rw [Function.update_apply, hlong, hnow]
    split_ifs with h₁ h₂ h₃ h₄
    any_goals omega
    · rw [h₁, Nat.add_sub_cancel_left]
    · rfl
    · rfl

end Loops

section Bits

variable {mem : Longs 6} {dst src shift nbits c k q r : Nat}

def bitmapBit (mem : Longs 6) (addr b : Nat) : Bool :=
  bitAt (fun i => mem (addr + i)) b

/-- The bitmaps are the same one, or have no long in common. -/
def Apart (dst src nbits : Nat) : Prop :=
  dst = src ∨ dst + bitsToLongs 6 nbits ≤ src ∨ src + bitsToLongs 6 nbits ≤ dst

theorem bitsToLongs_bounds (nbits : Nat) :
    nbits ≤ 64 * bitsToLongs 6 nbits ∧ 64 * bitsToLongs 6 nbits < nbits + 64 := by
  change nbits ≤ 64 * ((nbits + 64 - 1) / 64) ∧ 64 * ((nbits + 64 - 1) / 64) < nbits + 64
  omega

theorem bitmapBit_long (mem : Longs 6) (addr k : Nat) (hc : c < 64) :
    bitmapBit mem addr (64 * k + c) = (mem (addr + k)).getLsbD c :=
  bitAt_mul_add (fun i => mem (addr + i)) k hc

theorem getLsbD_srcLong (hk : k < bitsToLongs 6 nbits) (hc : c < 64) :
    (srcLong nbits src mem k).getLsbD c =
      (decide (64 * k + c < nbits) && bitmapBit mem src (64 * k + c)) := by
  have hlim := bitsToLongs_bounds nbits
  rw [bitmapBit_long mem src k hc, srcLong, bitmapLastWordMask]
  split
  · have hbit : (2 ^ 32 - nbits % 2 ^ 32) % 64 + c < 2 ^ 6 ↔ 64 * k + c < nbits := by omega
    rw [getLsbD_and, getLsbD_ushiftRight, getLsbD_allOnes, decide_eq_decide.mpr hbit, Bool.and_comm]
  · have hbit : 64 * k + c < nbits := by omega
    rw [decide_eq_true hbit, Bool.true_and]

theorem getLsbD_rightLong (hq : shift / 64 + q < bitsToLongs 6 nbits) (hr : r < 64) :
    (rightLong nbits src (shift / 64) (shift % 64) mem q).getLsbD r =
      (decide (64 * q + r + shift < nbits) && bitmapBit mem src (64 * q + r + shift)) := by
  rw [rightLong, getLsbD_or, getLsbD_ushiftRight]
  by_cases hin : shift % 64 + r < 64
  · -- the bit comes from the long itself
    have hplace : 64 * (shift / 64 + q) + (shift % 64 + r) = 64 * q + r + shift := by omega
    rw [getLsbD_srcLong hq hin, hplace, Bool.or_eq_left_iff_imp]
    split
    · simp
    · simp [show r < 64 - shift % 64 by omega]
  -- the bit comes from the long above
  rw [getLsbD_of_ge _ _ (Nat.le_of_not_lt hin), Bool.false_or]
  split
  · next hend =>
    have hlim := bitsToLongs_bounds nbits
    have hout : ¬ 64 * q + r + shift < nbits := by omega
    simp [hout]
  · next hend =>
    have hplace : 64 * (shift / 64 + q + 1) + (r - (64 - shift % 64)) = 64 * q + r + shift := by
      omega
    rw [getLsbD_shiftLeft, getLsbD_srcLong (by omega) (by omega), hplace]
    simp [hr, show ¬ r < 64 - shift % 64 by omega]

theorem getLsbD_leftLong (hr : r < 64) :
    (leftLong src (shift % 64) mem q).getLsbD r =
      (decide (shift % 64 ≤ 64 * q + r) && bitmapBit mem src (64 * q + r - shift % 64)) := by
  rw [leftLong, getLsbD_or, getLsbD_shiftLeft]
  by_cases hin : shift % 64 ≤ r
  · have hplace : 64 * q + r - shift % 64 = 64 * q + (r - shift % 64) := by omega
    have hfrom : shift % 64 ≤ 64 * q + r := by omega
    have hlower : (if shift % 64 ≠ 0 ∧ 0 < q then mem (src + (q - 1)) >>> (64 - shift % 64)
        else 0).getLsbD r = false := by
      split
      · rw [getLsbD_ushiftRight, getLsbD_of_ge _ _ (by omega)]
      · simp
    rw [hlower, hplace, bitmapBit_long mem src q (by omega)]
    simp [hr, hfrom, Nat.not_lt_of_le hin]
  have hlow : r < shift % 64 := Nat.lt_of_not_le hin
  split
  · have hplace : 64 * q + r - shift % 64 = 64 * (q - 1) + (64 - shift % 64 + r) := by omega
    have hfrom : shift % 64 ≤ 64 * q + r := by omega
    rw [hplace, bitmapBit_long mem src (q - 1) (by omega)]
    simp [hlow, hfrom]
  · have hfrom : ¬ shift % 64 ≤ 64 * q + r := by omega
    simp [hlow, hfrom]

theorem bitmapShiftRight_apply (hshift : shift ≤ nbits) (hd : Apart dst src nbits) (x : Nat) :
    bitmapShiftRight mem dst src shift nbits x =
      if dst ≤ x ∧ x < dst + (bitsToLongs 6 nbits - shift / 64) then
        rightLong nbits src (shift / 64) (shift % 64) mem (x - dst)
      else if dst ≤ x ∧ x < dst + bitsToLongs 6 nbits then 0 else mem x := by
  have hlim := bitsToLongs_bounds nbits
  have hloop := storeUp_apply (rightLong nbits src (shift / 64) (shift % 64)) mem dst
    (bitsToLongs 6 nbits - shift / 64) x (fun k hk now hnow => by
      unfold Apart at hd
      unfold rightLong srcLong
      rw [hnow (src + (shift / 64 + k)) (by omega)]
      split
      · rfl
      · rw [hnow (src + (shift / 64 + k + 1)) (by omega)])
  rw [bitmapShiftRight, zeroLongs_apply, hloop]
  split_ifs
  all_goals first | rfl | omega

theorem bitmapShiftLeft_apply (hshift : shift ≤ nbits) (hd : Apart dst src nbits) (x : Nat) :
    bitmapShiftLeft mem dst src shift nbits x =
      if dst + shift / 64 ≤ x ∧ x < dst + bitsToLongs 6 nbits then
        leftLong src (shift % 64) mem (x - (dst + shift / 64))
      else if dst ≤ x ∧ x < dst + bitsToLongs 6 nbits then 0 else mem x := by
  have hlim := bitsToLongs_bounds nbits
  have hloop := storeDown_apply (leftLong src (shift % 64)) mem (dst + shift / 64)
    (bitsToLongs 6 nbits - shift / 64) x le_rfl (fun x => (if_neg (by omega)).symm)
    (fun k hk now hnow => by
      unfold Apart at hd
      unfold leftLong
      rw [hnow (src + k) (by omega)]
      split
      · rw [hnow (src + (k - 1)) (by omega)]
      · rfl)
  rw [bitmapShiftLeft, zeroLongs_apply, hloop]
  split_ifs
  all_goals first | rfl | omega

/-- Both shifts move the bits, feed in zeros and store only the longs of the destination. -/
theorem bitmap_shift_bits (mem : Longs 6) (dst src shift nbits : Nat) (hshift : shift ≤ nbits)
    (hd : Apart dst src nbits) :
    (∀ i < nbits, bitmapBit (bitmapShiftRight mem dst src shift nbits) dst i =
      if i + shift < nbits then bitmapBit mem src (i + shift) else false) ∧
    (∀ i < nbits, bitmapBit (bitmapShiftLeft mem dst src shift nbits) dst i =
      if shift ≤ i then bitmapBit mem src (i - shift) else false) ∧
    ∀ x, ¬ (dst ≤ x ∧ x < dst + bitsToLongs 6 nbits) →
      bitmapShiftRight mem dst src shift nbits x = mem x ∧
        bitmapShiftLeft mem dst src shift nbits x = mem x := by
  have hlim := bitsToLongs_bounds nbits
  have hsplit : ∀ i, ∃ q r, r < 64 ∧ i = 64 * q + r := fun i =>
    ⟨i / 64, i % 64, Nat.mod_lt i (by decide), (Nat.div_add_mod i 64).symm⟩
  refine ⟨fun i hi => ?_, fun i hi => ?_, fun x hx => ?_⟩
  · obtain ⟨q, r, hr, rfl⟩ := hsplit i
    rw [bitmapBit_long _ _ _ hr, bitmapShiftRight_apply hshift hd]
    split
    · rw [Nat.add_sub_cancel_left, getLsbD_rightLong (by omega) hr]
      split <;> simp_all
    · rw [if_pos (by omega), if_neg (by omega), ofNat_eq_ofNat, getLsbD_zero]
  · obtain ⟨q, r, hr, rfl⟩ := hsplit i
    rw [bitmapBit_long _ _ _ hr, bitmapShiftLeft_apply hshift hd]
    split
    · have hfrom : decide (shift % 64 ≤ 64 * (q - shift / 64) + r) = decide (shift ≤ 64 * q + r) :=
        decide_eq_decide.mpr (by omega)
      have hplace : 64 * (q - shift / 64) + r - shift % 64 = 64 * q + r - shift := by omega
      rw [Nat.add_sub_add_left, getLsbD_leftLong hr, hplace, hfrom]
      split <;> simp_all
    · rw [if_pos (by omega), if_neg (by omega), ofNat_eq_ofNat, getLsbD_zero]
  · rw [bitmapShiftRight_apply hshift hd, bitmapShiftLeft_apply hshift hd, if_neg (by omega),
      if_neg hx, if_neg (by omega)]
    exact ⟨rfl, rfl⟩

theorem bitmap_shift_bits_in_place :
    Apart 5 5 100 ∧
      (∀ i < 100, bitmapBit (bitmapShiftRight (fun _ => 7) 5 5 70 100) 5 i =
        if i + 70 < 100 then bitmapBit (fun _ => 7) 5 (i + 70) else false) ∧
      (∀ i < 100, bitmapBit (bitmapShiftLeft (fun _ => 7) 5 5 70 100) 5 i =
        if 70 ≤ i then bitmapBit (fun _ => 7) 5 (i - 70) else false) ∧
      ∀ x, ¬ (5 ≤ x ∧ x < 5 + bitsToLongs 6 100) →
        bitmapShiftRight (fun _ => 7) 5 5 70 100 x = 7 ∧
          bitmapShiftLeft (fun _ => 7) 5 5 70 100 x = 7 :=
  ⟨.inl rfl, bitmap_shift_bits (fun _ => 7) 5 5 70 100 (by decide) (.inl rfl)⟩

end Bits

end LinuxKernel.Bitmap
