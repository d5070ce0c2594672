import LinuxKernel.Bitmap.Region
import LinuxKernel.Lib.AlignUp
import Mathlib.Algebra.Order.Ring.Int

/-!
# The search for a zero area of a bitmap

`bitmap_find_next_zero_area_off()` over `_find_next_bit()` of `lib/find_bit.c`.  An area is
tried at the first zero bit, rounded up; behind a set bit in it the search starts again.
-/

namespace LinuxKernel.Bitmap

open Lib

variable {k w j : Nat}

theorem bitsPerLong_pos (k : Nat) : 0 < bitsPerLong k :=
  Nat.two_pow_pos k

/-- `__ffs()`: the lowest set bit. -/
def ffs {w : Nat} (x : BitVec w) : Nat :=
  ((List.range w).find? x.getLsbD).getD 0

/-- The loop of `_find_next_bit()`. -/
def findNextLoop (addr : Longs k) (nbits : Nat) (invert : BitVec (2 ^ k)) (start : Nat)
    (tmp : BitVec (2 ^ k)) : Nat :=
  if tmp = 0 then
    if nbits ≤ start + bitsPerLong k then nbits
    else
      findNextLoop addr nbits invert (start + bitsPerLong k)
        (addr ((start + bitsPerLong k) / bitsPerLong k) ^^^ invert)
  else min (start + ffs tmp) nbits
termination_by nbits - start
decreasing_by
  have := bitsPerLong_pos k
  omega

/-- `_find_next_bit()`.  No bitmap has the last long of the address space, so `start` does not
wrap. -/
def findNextBitXor (addr : Longs k) (nbits start : Nat) (invert : BitVec (2 ^ k)) : Nat :=
  if nbits = 0 ∨ nbits ≤ start then nbits
  else
    findNextLoop addr nbits invert (start / bitsPerLong k * bitsPerLong k)
      ((addr (start / bitsPerLong k) ^^^ invert) &&&
        (BitVec.allOnes (2 ^ k) <<< (start % bitsPerLong k)))

def findNextBit (addr : Longs k) (size offset : Nat) : Nat :=
  findNextBitXor addr size offset 0

def findNextZeroBit (addr : Longs k) (size offset : Nat) : Nat :=
  findNextBitXor addr size offset (.allOnes (2 ^ k))

/-- The passes from the label `again` on, in words of `unsigned long`. -/
def findAreaLoop (map : Longs k) (size nr alignMask alignOffset : Nat) : Nat → Nat → Option Nat
  | 0, _ => none
  | fuel + 1, start =>
    let index := findNextZeroBit map size start
    let index := (alignUp (2 ^ k) ((index + alignOffset) % 2 ^ 2 ^ k) (alignMask + 1) +
      (2 ^ 2 ^ k - alignOffset)) % 2 ^ 2 ^ k
    let stop := (index + nr) % 2 ^ 2 ^ k
    if size < stop then some stop
    else
      let i := findNextBit map stop index
      if i < stop then findAreaLoop map size nr alignMask alignOffset fuel (i + 1)
      else some index

def bitmapFindNextZeroAreaOff (map : Longs k) (size start nr alignMask alignOffset fuel : Nat) :
    Option Nat :=
  findAreaLoop map size nr alignMask alignOffset fuel start

section NextBit

/-- The first place from `start` on with the property, or the end if there is none. -/
structure IsNext (p : Nat → Prop) (nbits start place : Nat) : Prop where
  le : place ≤ nbits
  here : place < nbits → start ≤ place ∧ p place
  first : ∀ b, start ≤ b → b < nbits → p b → place ≤ b

theorem ffs_spec {x : BitVec w} (hx : x ≠ 0) :
    x.getLsbD (ffs x) = true ∧ ∀ j, x.getLsbD j = true → ffs x ≤ j := by
  cases hfind : (List.range w).find? x.getLsbD with
  | none =>
    rw [List.find?_eq_none] at hfind
    refine absurd (BitVec.eq_of_getLsbD_eq fun j hj => ?_) hx
    simpa using hfind j (List.mem_range.mpr hj)
  | some i =>
    obtain ⟨hi, -, hmin⟩ := List.find?_range_eq_some.mp hfind
    rw [ffs, hfind, Option.getD_some]
    refine ⟨hi, fun j hj => Nat.le_of_not_lt fun hlt => ?_⟩
    simpa [hj] using hmin j hlt

theorem bitAt_word (words : Longs k) (n : Nat) (hj : j < bitsPerLong k) :
    bitAt words (bitsPerLong k * n + j) = (words n).getLsbD j :=
  bitAt_mul_add words n hj

/-- The search for a set bit from `first` on is at the long `start`: no earlier bit is set, and
`tmp` has its bits that are not before `first`. -/
structure Scanned (words : Longs k) (first start : Nat) (tmp : BitVec (2 ^ k)) : Prop where
  aligned : bitsPerLong k ∣ start
  reached : first < start + bitsPerLong k
  clear : ∀ b, first ≤ b → b < start → bitAt words b = false
  long : ∀ j < bitsPerLong k,
    tmp.getLsbD j = (decide (first ≤ start + j) && bitAt words (start + j))

variable {words addr : Longs k} {tmp invert : BitVec (2 ^ k)} {nbits start first b : Nat}

theorem Scanned.exists_bit (h : Scanned words first start tmp) (hb : first ≤ b)
    (hlt : b < start + bitsPerLong k) (hset : bitAt words b = true) :
    ∃ j, b = start + j ∧ tmp.getLsbD j = true := by
  have hge : start ≤ b := by
    by_contra hlow
    rw [h.clear b hb (Nat.lt_of_not_le hlow)] at hset
    cases hset
  obtain ⟨j, rfl⟩ := Nat.exists_eq_add_of_le hge
  exact ⟨j, rfl, by rw [h.long j (by omega), hset, decide_eq_true hb, Bool.and_self]⟩

theorem Scanned.next (h : Scanned words first start 0) :
    Scanned words first (start + bitsPerLong k)
      (words ((start + bitsPerLong k) / bitsPerLong k)) where
  aligned := Nat.dvd_add h.aligned (dvd_refl _)
  reached := h.reached.trans (Nat.lt_add_of_pos_right (bitsPerLong_pos k))
  clear := by
    intro b hb hlt
    by_contra hset
    obtain ⟨j, -, hj⟩ := h.exists_bit hb hlt (Bool.eq_true_of_not_eq_false hset)
    simp at hj
  long := by
    intro j hj
    obtain ⟨n, hn⟩ := Nat.dvd_add h.aligned (dvd_refl (bitsPerLong k))
    have hfrom : first ≤ start + bitsPerLong k + j := by
      have := h.reached
      omega
    rw [decide_eq_true hfrom, Bool.true_and, hn, bitAt_word words n hj,
      Nat.mul_div_cancel_left n (bitsPerLong_pos k)]

theorem findNextLoop_isNext (hlt : start < nbits)
    (h : Scanned (fun i => addr i ^^^ invert) first start tmp) :
    IsNext (fun b => bitAt (fun i => addr i ^^^ invert) b = true) nbits first
      (findNextLoop addr nbits invert start tmp) := by
  fun_induction findNextLoop addr nbits invert start tmp with
  | case1 start hend =>
    refine ⟨le_rfl, fun hlt => absurd hlt (lt_irrefl _), fun b hb hbn hset => ?_⟩
    obtain ⟨j, -, hj⟩ := h.exists_bit hb (hbn.trans_le hend) hset
    simp at hj
  | case2 start hend ih => exact ih (Nat.lt_of_not_le hend) h.next
  | case3 start tmp hne =>
    obtain ⟨hset, hmin⟩ := ffs_spec hne
    have hin : ffs tmp < bitsPerLong k := BitVec.lt_of_getLsbD hset
    rw [h.long _ hin, Bool.and_eq_true, decide_eq_true_iff] at hset
    refine ⟨min_le_right _ _, fun hend => ?_, fun b hb hbn hset => ?_⟩
    · rw [min_eq_left (by omega)]
      exact hset
    · rcases Nat.lt_or_ge b (start + bitsPerLong k) with hlt | hge
      · obtain ⟨j, rfl, hj⟩ := h.exists_bit hb hlt hset
        exact (min_le_left _ _).trans (Nat.add_le_add_left (hmin j hj) _)
      · omega

theorem findNextBitXor_isNext (addr : Longs k) (nbits start : Nat) (invert : BitVec (2 ^ k)) :
    IsNext (fun b => bitAt (fun i => addr i ^^^ invert) b = true) nbits start
      (findNextBitXor addr nbits start invert) := by
  unfold findNextBitXor
  split
  · exact ⟨le_rfl, fun hlt => absurd hlt (lt_irrefl _), fun b hb hbn _ => by omega⟩
  next hin =>
  have hpos := bitsPerLong_pos k
  have hdiv := Nat.div_add_mod' start (bitsPerLong k)
  have hmod := Nat.mod_lt start hpos
  refine findNextLoop_isNext (by omega)
    ⟨dvd_mul_left _ _, by omega, fun b hb hlt => by omega, fun j hj => ?_⟩
  have hfrom : decide (start ≤ start / bitsPerLong k * bitsPerLong k + j) =
      !decide (j < start % bitsPerLong k) := by
    rw [← decide_not, decide_eq_decide]
    omega
  have hj' : j < 2 ^ k := hj
  rw [hfrom, Nat.mul_comm, bitAt_word _ _ hj]
  simp [hj', Bool.and_comm]

theorem findNextBit_isNext (addr : Longs k) (size offset : Nat) :
    IsNext (fun b => bitAt addr b = true) size offset (findNextBit addr size offset) := by
  have h := findNextBitXor_isNext addr size offset 0#(2 ^ k)
  simp only [BitVec.xor_zero] at h
  exact h

theorem findNextZeroBit_isNext (addr : Longs k) (size offset : Nat) :
    IsNext (fun b => bitAt addr b = false) size offset (findNextZeroBit addr size offset) := by
  have h := findNextBitXor_isNext addr size offset (.allOnes (2 ^ k))
  have hflip : ∀ b, bitAt (fun i => addr i ^^^ .allOnes (2 ^ k)) b = !bitAt addr b := by
    intro b
    have hlt : b % 2 ^ k < 2 ^ k := Nat.mod_lt _ (Nat.two_pow_pos k)
    simp [bitAt, hlt]
  simp only [hflip, Bool.not_eq_true'] at h
  exact h

end NextBit

section Area

/-- An area of `nr` zero bits that starts at `index`. -/
structure IsArea (map : Longs k) (size start nr alignMask alignOffset index : Nat) : Prop where
  from_start : start ≤ index
  aligned : (index + alignOffset) &&& alignMask = 0
  zero : ∀ b, index ≤ b → b < index + nr → bitAt map b = false
  fits : index + nr ≤ size

/-- None of the sums of the search is larger than a word. -/
structure NoOverflow (k size nr alignMask alignOffset : Nat) : Prop where
  align : size + alignOffset + alignMask < 2 ^ 2 ^ k
  stop : size + alignMask + nr < 2 ^ 2 ^ k

variable {map : Longs k} {size start nr alignOffset order index : Nat}

theorem and_mask_eq_zero_iff (x order : Nat) : x &&& (2 ^ order - 1) = 0 ↔ 2 ^ order ∣ x := by
  rw [Nat.and_two_pow_sub_one_eq_mod, Nat.dvd_iff_mod_eq_zero]

/-- The rounded index is the least aligned one from the zero bit. -/
theorem aligned_index (hno : NoOverflow k size nr (2 ^ order - 1) alignOffset)
    (hindex : index ≤ size) :
    ∃ place, (alignUp (2 ^ k) ((index + alignOffset) % 2 ^ 2 ^ k) (2 ^ order - 1 + 1) +
        (2 ^ 2 ^ k - alignOffset)) % 2 ^ 2 ^ k = place ∧
      index ≤ place ∧ place + nr < 2 ^ 2 ^ k ∧ 2 ^ order ∣ place + alignOffset ∧
      ∀ c, index ≤ c → 2 ^ order ∣ c + alignOffset → place ≤ c := by
  have halign := hno.align
  have hstop := hno.stop
  rw [Nat.sub_add_cancel (Nat.two_pow_pos order),
    Nat.mod_eq_of_lt (a := index + alignOffset) (by omega)]
  have hdvd := dvd_alignUp (2 ^ k) (index + alignOffset) order
  have hle := alignUp_le_add (2 ^ k) (index + alignOffset) order
  obtain ⟨hge, hmin⟩ :=
    alignUp_of_lt (w := 2 ^ k) (x := index + alignOffset) (k := order) (by omega)
  generalize alignUp (2 ^ k) (index + alignOffset) (2 ^ order) = aligned at *
  refine ⟨aligned - alignOffset, ?_, by omega, by omega, ?_, fun c hc hcd => ?_⟩
  · have hsum : aligned + (2 ^ 2 ^ k - alignOffset) = aligned - alignOffset + 2 ^ 2 ^ k := by omega
    rw [hsum, Nat.add_mod_right, Nat.mod_eq_of_lt (by omega)]
  · rwa [Nat.sub_add_cancel (by omega)]
  · have := hmin (c + alignOffset) (by omega) hcd
    omega

variable (map size start nr alignOffset order) in
/-- The result: an index behind the bitmap, or the least area. -/
def IsResult (r : Nat) : Prop :=
  (size < r ∧ ∀ c, ¬ IsArea map size start nr (2 ^ order - 1) alignOffset c) ∨
    IsLeast {c | IsArea map size start nr (2 ^ order - 1) alignOffset c} r

variable (map) in
/-- No area starts before what the search has passed. -/
theorem findAreaLoop_returns (hnr : 0 < nr)
    (hno : NoOverflow k size nr (2 ^ order - 1) alignOffset) (pos : Nat) (hpos : start ≤ pos)
    (hpassed : ∀ c, IsArea map size start nr (2 ^ order - 1) alignOffset c → pos ≤ c) :
    ∃ r, Returns (fun fuel => findAreaLoop map size nr (2 ^ order - 1) alignOffset fuel pos) r ∧
      IsResult map size start nr alignOffset order r := by
  induction hleft : size - pos using Nat.strong_induction_on generalizing pos with
  | _ left ih =>
  have hzero := findNextZeroBit_isNext map size pos
  obtain ⟨place, hplace, hge, hlt, hdvd, hmin⟩ := aligned_index hno hzero.le
  have hbound : ∀ c, IsArea map size start nr (2 ^ order - 1) alignOffset c → place ≤ c := by
    intro c hc
    have hbit := hc.zero c le_rfl (Nat.lt_add_of_pos_right hnr)
    have hin : c < size := (Nat.lt_add_of_pos_right hnr).trans_le hc.fits
    exact hmin c (hzero.first c (hpassed c hc) hin hbit) ((and_mask_eq_zero_iff _ _).mp hc.aligned)
  have hpass : ∀ fuel, findAreaLoop map size nr (2 ^ order - 1) alignOffset (fuel + 1) pos =
      if size < place + nr then some (place + nr)
      else if findNextBit map (place + nr) place < place + nr then
        findAreaLoop map size nr (2 ^ order - 1) alignOffset fuel
          (findNextBit map (place + nr) place + 1)
      else some place := by
    intro fuel
    rw [findAreaLoop]
    simp only [hplace, Nat.mod_eq_of_lt hlt]
  by_cases hout : size < place + nr
  · simp only [if_pos hout] at hpass
    refine ⟨_, .of_end hpass, .inl ⟨hout, fun c hc => ?_⟩⟩
    have := hbound c hc
    have := hc.fits
    omega
  have hfrom : pos ≤ place := ((hzero.here (by omega)).1).trans hge
  simp only [if_neg hout] at hpass
  have hnext := findNextBit_isNext map (place + nr) place
  generalize findNextBit map (place + nr) place = i at hpass hnext
  by_cases hset : i < place + nr
  · -- every area from the place on has the set bit or starts behind it
    obtain ⟨hple, hbit⟩ := hnext.here hset
    simp only [if_pos hset] at hpass
    obtain ⟨r, hr, hres⟩ := ih (size - (i + 1)) (by omega) (i + 1) (by omega) (fun c hc => by
      have hplace := hbound c hc
      by_contra hle
      rw [hc.zero i (by omega) (by omega)] at hbit
      cases hbit) rfl
    exact ⟨r, hr.of_pass hpass, hres⟩
  simp only [if_neg hset] at hpass
  refine ⟨place, .of_end hpass, .inr ⟨⟨hpos.trans hfrom, ?_, fun b hb hblt => ?_, ?_⟩, hbound⟩⟩
  · exact (and_mask_eq_zero_iff _ _).mpr hdvd
  · by_contra hone
    have := hnext.first b hb hblt (Bool.eq_true_of_not_eq_false hone)
    omega
  · exact Nat.le_of_not_lt hout

/-- The search ends with the least area from `start` on, or behind the end of the bitmap exactly
when there is none. -/
theorem find_next_zero_area_least (map : Longs k) (size start nr order alignOffset : Nat)
    (hnr : 0 < nr) (hno : NoOverflow k size nr (2 ^ order - 1) alignOffset) :
    ∃ r, Returns (bitmapFindNextZeroAreaOff map size start nr (2 ^ order - 1) alignOffset) r ∧
      (size < r ↔ ∀ c, ¬ IsArea map size start nr (2 ^ order - 1) alignOffset c) ∧
      (r ≤ size → IsLeast {c | IsArea map size start nr (2 ^ order - 1) alignOffset c} r) := by
  obtain ⟨r, hr, hres⟩ := findAreaLoop_returns map hnr hno start le_rfl (fun c hc => hc.from_start)
  refine ⟨r, hr, ?_⟩
  rcases hres with ⟨hlt, hnone⟩ | hleast
  · exact ⟨iff_of_true hlt hnone, fun hle => absurd hlt (Nat.not_lt_of_le hle)⟩
  · have hle : r ≤ size := (Nat.le_add_right r nr).trans hleast.1.fits
    exact ⟨iff_of_false (Nat.not_lt_of_le hle) fun hnone => hnone r hleast.1, fun _ => hleast⟩

theorem find_next_zero_area_least_hundred :
    NoOverflow 6 100 3 (2 ^ 2 - 1) 1 ∧
      ∃ r, Returns (bitmapFindNextZeroAreaOff (fun _ => 0x11#(2 ^ 6)) 100 5 3 (2 ^ 2 - 1) 1) r ∧
        (100 < r ↔ ∀ c, ¬ IsArea (fun _ => 0x11#(2 ^ 6)) 100 5 3 (2 ^ 2 - 1) 1 c) ∧
        (r ≤ 100 → IsLeast {c | IsArea (fun _ => 0x11#(2 ^ 6)) 100 5 3 (2 ^ 2 - 1) 1 c} r) :=
  have hno : NoOverflow 6 100 3 (2 ^ 2 - 1) 1 := ⟨by decide, by decide⟩
  ⟨hno, find_next_zero_area_least _ 100 5 3 2 1 (by decide) hno⟩

end Area

end LinuxKernel.Bitmap
