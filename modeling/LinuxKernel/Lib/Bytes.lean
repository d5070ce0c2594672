import Mathlib.Data.List.Sort

/-!
# Words in byte memory

A block of memory is a function from offsets to bytes.  Words of up to eight bytes are read and
written little-endian, and words of up to four bytes are read big-endian.  The bits of a loaded word
are those of its bytes, which gives the round trip and the frame rule.
-/

namespace LinuxKernel.Lib

open BitVec

/-- Byte `k` of a 64-bit word, from the least significant on. -/
def byteAt (v : BitVec 64) (k : Nat) : BitVec 8 :=
  (v >>> (8 * k)).setWidth 8

/-- Read `n` bytes from offset `i` on as an unsigned little-endian word. -/
def loadLE (f : Nat → BitVec 8) (i : Nat) : Nat → BitVec 64
  | 0 => 0
  | n + 1 => (loadLE f (i + 1) n <<< 8) ||| (f i).setWidth 64

/-- Read `n` bytes from offset `i` on as an unsigned big-endian word. -/
def loadBE (f : Nat → BitVec 8) (i : Nat) : Nat → BitVec 32
  | 0 => 0
  | n + 1 => (loadBE f i n <<< 8) ||| (f (i + n)).setWidth 32

/-- Write the low `n` bytes of `v` from offset `i` on. -/
def storeLE (f : Nat → BitVec 8) (i n : Nat) (v : BitVec 64) : Nat → BitVec 8 :=
  fun j => if i ≤ j ∧ j < i + n then byteAt v (j - i) else f j

variable {f : Nat → BitVec 8} {n : Nat} {v : BitVec 64} {i j k : Nat} {g : Nat → BitVec 8}

theorem storeLE_inside (h : i ≤ j ∧ j < i + n) : storeLE f i n v j = byteAt v (j - i) := by
  simp only [storeLE, if_pos h]

theorem storeLE_outside (h : ¬ (i ≤ j ∧ j < i + n)) : storeLE f i n v j = f j := by
  simp only [storeLE, if_neg h]

theorem loadLE_congr (h : ∀ j, i ≤ j → j < i + n → f j = g j) : loadLE f i n = loadLE g i n := by
  induction n generalizing i with
  | zero => rfl
  | succ n ih =>
    have htail : loadLE f (i + 1) n = loadLE g (i + 1) n :=
      ih (fun j h1 h2 => h j (by omega) (by omega))
    simp only [loadLE, htail, h i (le_refl i) (by omega)]

theorem loadBE_congr (h : ∀ k < n, f (i + k) = g (j + k)) : loadBE f i n = loadBE g j n := by
  induction n with
  | zero => rfl
  | succ n ih =>
    have hinit : loadBE f i n = loadBE g j n := ih (fun k hk => h k (Nat.lt_succ_of_lt hk))
    simp only [loadBE, hinit, h n (Nat.lt_succ_self n)]

theorem getLsbD_loadLE (i n b : Nat) (hn : n ≤ 8) :
    (loadLE f i n).getLsbD b = (decide (b < 8 * n) && (f (i + b / 8)).getLsbD (b % 8)) := by
  induction n generalizing i b with
  | zero => simp [loadLE]
  | succ n ih =>
    rw [loadLE, getLsbD_or, getLsbD_shiftLeft, getLsbD_setWidth]
    by_cases hb : b < 8
    · have hdiv : b / 8 = 0 := by omega
      have hmod : b % 8 = b := by omega
      have h64 : b < 64 := by omega
      have hlt : b < 8 * (n + 1) := by omega
      simp [hb, hdiv, hmod, h64, hlt]
    have hhigh : (f i).getLsbD b = false := getLsbD_of_ge _ _ (by omega)
    have hdiv : i + 1 + (b - 8) / 8 = i + b / 8 := by omega
    have hmod : (b - 8) % 8 = b % 8 := by omega
    rw [ih (i + 1) (b - 8) (by omega), hdiv, hmod, hhigh]
    by_cases hlt : b < 8 * (n + 1)
    · have h64 : b < 64 := by omega
      have hlt' : b - 8 < 8 * n := by omega
      simp [hb, hlt, h64, hlt']
    · have hlt' : ¬ b - 8 < 8 * n := by omega
      simp [hlt, hlt']

theorem loadLE_storeLE (hn : n ≤ 8) :
    loadLE (storeLE f i n v) i n = (v.setWidth (8 * n)).setWidth 64 := by
  apply eq_of_getLsbD_eq
  intro b hb
  rw [getLsbD_loadLE _ _ _ hn, getLsbD_setWidth, getLsbD_setWidth]
  by_cases hlt : b < 8 * n
  · have hin : i ≤ i + b / 8 ∧ i + b / 8 < i + n := by omega
    have hbit : 8 * (b / 8) + b % 8 = b := by omega
    have hmod : b % 8 < 8 := by omega
    rw [storeLE_inside hin, byteAt, getLsbD_setWidth, getLsbD_ushiftRight]
    simp [hlt, hb, hbit, hmod]
  · simp [hlt]

theorem loadLE_storeLE_disjoint (h : i + n ≤ j ∨ j + k ≤ i) :
    loadLE (storeLE f i n v) j k = loadLE f j k :=
  loadLE_congr (fun _ _ _ => storeLE_outside (by omega))

end LinuxKernel.Lib
