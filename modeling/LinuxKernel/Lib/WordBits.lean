import Mathlib.Algebra.Order.Ring.Int
import Mathlib.Data.List.Sort

/-!
# Sequences of bits in words

A sequence of words of one width holds a sequence of bits.  A loop that changes a run of
whole words by a mask changes the bits that the mask selects in them.
-/

namespace LinuxKernel.Lib

open BitVec

variable {w j : Nat}

/-- The bit of a sequence of words. -/
def bitAt (words : Nat → BitVec w) (b : Nat) : Bool :=
  (words (b / w)).getLsbD (b % w)

theorem bitAt_mul_add (words : Nat → BitVec w) (i : Nat) (hj : j < w) :
    bitAt words (w * i + j) = (words i).getLsbD j := by
  rw [bitAt, Nat.mul_add_div (Nat.zero_lt_of_lt hj), Nat.div_eq_of_lt hj, Nat.add_zero,
    Nat.mul_add_mod, Nat.mod_eq_of_lt hj]

/-- A mask with `n` ones from `offset` on, without a shift by the whole width. -/
def onesMask (w n offset : Nat) : BitVec w :=
  let mask := 1#w <<< (n - 1)
  (mask + (mask - 1)) <<< offset

theorem getLsbD_onesMask {n offset i : Nat} (hn : 0 < n) (hi : i < w) :
    (onesMask w n offset).getLsbD i = decide (offset ≤ i ∧ i < offset + n) := by
  have hlow : (1#w <<< (n - 1)) + ((1#w <<< (n - 1)) - 1) = .ofNat w (2 ^ n - 1) := by
    have hpow : 2 ^ n = 2 ^ (n - 1) + 2 ^ (n - 1) := by
      rw [← Nat.two_mul, ← Nat.pow_succ', Nat.succ_eq_add_one, Nat.sub_add_cancel hn]
    have hpos : 0 < 2 ^ (n - 1) := Nat.two_pow_pos _
    have hone : 1 < 2 ^ w := Nat.one_lt_two_pow (by omega)
    have hshift : 1#w <<< (n - 1) = .ofNat w (2 ^ (n - 1)) := by
      apply eq_of_toNat_eq
      rw [toNat_shiftLeft, toNat_ofNat, toNat_ofNat, Nat.shiftLeft_eq,
        Nat.mod_eq_of_lt hone, Nat.one_mul]
    rw [hshift, ofNat_eq_ofNat, ofNat_sub_ofNat_of_le _ _ hone hpos, ← ofNat_add]
    congr 1
    omega
  rw [onesMask, hlow, getLsbD_shiftLeft, getLsbD_ofNat, Nat.testBit_two_pow_sub_one]
  by_cases hoff : i < offset
  · have hnot : ¬ (offset ≤ i ∧ i < offset + n) := by omega
    simp [hoff, hnot]
  · have hsub : i - offset < w := by omega
    have hiff : i - offset < n ↔ offset ≤ i ∧ i < offset + n := by omega
    simp [hi, hoff, hsub, hiff]

variable {mask : BitVec w} {words : Nat → BitVec w} {first n : Nat}

def noneMasked (mask : BitVec w) (words : Nat → BitVec w) : Nat → Nat → Bool
  | _, 0 => true
  | first, n + 1 =>
    if words first &&& mask ≠ 0 then
      false
    else
      noneMasked mask words (first + 1) n

def mapWords (f : BitVec w → BitVec w) : Nat → Nat → (Nat → BitVec w) → Nat → BitVec w
  | _, 0, words => words
  | first, n + 1, words =>
    mapWords f (first + 1) n (Function.update words first (f (words first)))

theorem noneMasked_iff :
    noneMasked mask words first n = true ↔
      ∀ i, first ≤ i → i < first + n → words i &&& mask = 0 := by
  induction n generalizing first with
  | zero =>
    refine iff_of_true rfl fun i hi hlt => ?_
    omega
  | succ n ih =>
    rw [noneMasked]
    split
    · next hne =>
        refine iff_of_false Bool.false_ne_true fun hall => hne ?_
        exact hall first (le_refl first) (by omega)
    next hzero =>
      rw [ih]
      constructor
      · intro hall i hi hlt
        by_cases heq : i = first
        · exact heq ▸ not_not.mp hzero
        · exact hall i (by omega) (by omega)
      · exact fun hall i hi hlt => hall i (by omega) (by omega)

theorem mapWords_apply (f : BitVec w → BitVec w) (i : Nat) :
    mapWords f first n words i = if first ≤ i ∧ i < first + n then f (words i) else words i := by
  induction n generalizing first words with
  | zero =>
    rw [if_neg (by omega)]
    rfl
  | succ n ih =>
    rw [mapWords, ih]
    by_cases heq : i = first
    · subst heq
      rw [if_neg (by omega), if_pos (by omega), Function.update_self]
    · rw [Function.update_of_ne heq]
      have hiff : first + 1 ≤ i ∧ i < first + 1 + n ↔ first ≤ i ∧ i < first + (n + 1) := by omega
      simp only [hiff]

variable {b : Nat} {sel : Nat → Prop}

/-- The mask in a run of words selects these bits. -/
def Selects (mask : BitVec w) (first n : Nat) (sel : Nat → Prop) : Prop :=
  ∀ b, (first ≤ b / w ∧ b / w < first + n ∧ mask.getLsbD (b % w) = true) ↔ sel b

theorem Selects.noneMasked_iff (hw : 0 < w) (h : Selects mask first n sel) :
    noneMasked mask words first n = true ↔ ∀ b, sel b → bitAt words b = false := by
  rw [Lib.noneMasked_iff]
  constructor
  · intro hall b hb
    obtain ⟨hfirst, hlast, hmask⟩ := (h b).mpr hb
    have hzero := congrArg (fun v => v.getLsbD (b % w)) (hall (b / w) hfirst hlast)
    simpa [bitAt, hmask] using hzero
  intro hall i hfirst hlast
  refine eq_of_getLsbD_eq fun j hj => ?_
  rw [getLsbD_and]
  by_cases hmask : mask.getLsbD j = true
  · have hdiv : (w * i + j) / w = i := by
      rw [Nat.mul_add_div hw, Nat.div_eq_of_lt hj, Nat.add_zero]
    have hmod : (w * i + j) % w = j := by rw [Nat.mul_add_mod, Nat.mod_eq_of_lt hj]
    have hbit := hall (w * i + j) ((h _).mp (by rw [hdiv, hmod]; exact ⟨hfirst, hlast, hmask⟩))
    rw [bitAt, hdiv, hmod] at hbit
    simp [hbit]
  · simp [hmask]

theorem Selects.bitAt_set (h : Selects mask first n sel) :
    bitAt (mapWords (· ||| mask) first n words) b = true ↔ sel b ∨ bitAt words b = true := by
  rw [bitAt, mapWords_apply, ← h b]
  by_cases hin : first ≤ b / w ∧ b / w < first + n
  · rw [if_pos hin, getLsbD_or, Bool.or_eq_true, bitAt]
    constructor
    · rintro (hbit | hmask)
      · exact .inr hbit
      · exact .inl ⟨hin.1, hin.2, hmask⟩
    · rintro (⟨-, -, hmask⟩ | hbit)
      · exact .inr hmask
      · exact .inl hbit
  · rw [if_neg hin]
    refine ⟨Or.inr, ?_⟩
    rintro (⟨hfirst, hlast, -⟩ | hbit)
    · exact absurd ⟨hfirst, hlast⟩ hin
    · exact hbit

theorem Selects.bitAt_clear (hw : 0 < w) (h : Selects mask first n sel) :
    bitAt (mapWords (· &&& ~~~mask) first n words) b = true ↔ ¬ sel b ∧ bitAt words b = true := by
  have hb : b % w < w := Nat.mod_lt b hw
  rw [bitAt, mapWords_apply, ← h b]
  by_cases hin : first ≤ b / w ∧ b / w < first + n
  · rw [if_pos hin, getLsbD_and, getLsbD_not, Bool.and_eq_true, bitAt]
    simp only [hb, decide_true, Bool.true_and, Bool.not_eq_true', hin.1, hin.2, true_and,
      Bool.not_eq_true]
    exact and_comm
  · rw [if_neg hin]
    refine ⟨fun hbit => ⟨fun hsel => hin ⟨hsel.1, hsel.2.1⟩, hbit⟩, fun hbit => hbit.2⟩

end LinuxKernel.Lib
