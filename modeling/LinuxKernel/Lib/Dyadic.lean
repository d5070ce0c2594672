import Mathlib.Data.Nat.Bitwise
import Mathlib.Tactic.Ring

/-!
# Dyadic blocks

Blocks of `2 ^ o` points that start at a multiple of their size.  A block and its buddy are the
halves of a block of the next order.  A set of free blocks is a map from their first points to
their orders.  In a merged set no block could be joined with its buddy.
-/

namespace LinuxKernel.Lib

open Function

section Blocks

/-- A point of the block of order `o` that starts at `p`. -/
def InBlock (p o q : Nat) : Prop :=
  p ≤ q ∧ q < p + 2 ^ o

/-- The other half of the next larger block. -/
def buddyOf (p o : Nat) : Nat :=
  p ^^^ 1 <<< o

variable {p o q : Nat}

theorem and_xor_one (k : Nat) : k &&& (k ^^^ 1) = 2 * (k / 2) := by
  refine Nat.eq_of_testBit_eq (fun i => ?_)
  rw [Nat.testBit_and, Nat.testBit_xor]
  cases i with
  | zero => simp
  | succ i =>
    have hone : Nat.testBit 1 (i + 1) = false := by
      rw [Nat.testBit_succ]
      exact Nat.zero_testBit i
    rw [hone, Bool.xor_false, Bool.and_self, Nat.testBit_succ, Nat.testBit_succ,
      Nat.mul_div_cancel_left _ Nat.two_pos]

/-- The buddy is behind or in front of a block, and the first of both starts the next larger block.
-/
theorem buddyOf_cases (h : 2 ^ o ∣ p) :
    (2 ^ (o + 1) ∣ p ∧ buddyOf p o = p + 2 ^ o ∧ p &&& buddyOf p o = p) ∨
      (2 ^ o ≤ p ∧ 2 ^ (o + 1) ∣ p - 2 ^ o ∧ buddyOf p o = p - 2 ^ o ∧
        p &&& buddyOf p o = p - 2 ^ o) := by
  obtain ⟨k, rfl⟩ := h
  have hshift : 2 ^ o * k = k <<< o := by
    rw [Nat.shiftLeft_eq, mul_comm]
  have hbuddy : buddyOf (2 ^ o * k) o = (k ^^^ 1) * 2 ^ o := by
    rw [buddyOf, hshift, ← Nat.shiftLeft_xor_distrib, Nat.shiftLeft_eq]
  have hand : 2 ^ o * k &&& buddyOf (2 ^ o * k) o = 2 * (k / 2) * 2 ^ o := by
    rw [hbuddy, ← Nat.shiftLeft_eq, hshift, ← Nat.shiftLeft_and_distrib,
      and_xor_one, Nat.shiftLeft_eq]
  rw [hand, hbuddy, pow_succ]
  rcases Nat.even_or_odd' k with ⟨j, rfl | rfl⟩
  · refine .inl ⟨⟨j, by ring⟩, ?_, ?_⟩
    · rw [Nat.xor_one_of_even (even_two_mul j)]
      ring
    · rw [Nat.mul_div_cancel_left _ Nat.two_pos]
      ring
  have hsub : 2 ^ o * (2 * j + 1) - 2 ^ o = 2 ^ o * 2 * j := by
    rw [mul_add, mul_one, Nat.add_sub_cancel]
    ring
  refine .inr ⟨?_, ?_, ?_, ?_⟩
  · exact Nat.le_mul_of_pos_right _ (Nat.succ_pos _)
  · rw [hsub]
    exact dvd_mul_right _ _
  · rw [hsub, Nat.xor_one_of_odd (odd_two_mul_add_one j), Nat.add_sub_cancel]
    ring
  · rw [hsub, show (2 * j + 1) / 2 = j by omega]
    ring

theorem buddyOf_dvd (h : 2 ^ o ∣ p) : 2 ^ o ∣ buddyOf p o := by
  rcases buddyOf_cases h with ⟨-, hb, -⟩ | ⟨-, -, hb, -⟩
  · rw [hb]
    exact Nat.dvd_add h (dvd_refl _)
  · rw [hb]
    exact Nat.dvd_sub h (dvd_refl _)

theorem parent_dvd (h : 2 ^ o ∣ p) : 2 ^ (o + 1) ∣ p &&& buddyOf p o := by
  rcases buddyOf_cases h with ⟨hdvd, -, hp⟩ | ⟨-, hdvd, -, hp⟩
  all_goals
    rw [hp]
    exact hdvd

theorem buddyOf_buddyOf (p o : Nat) : buddyOf (buddyOf p o) o = p := by
  unfold buddyOf
  rw [Nat.xor_assoc, Nat.xor_self, Nat.xor_zero]

theorem inBlock_parent (h : 2 ^ o ∣ p) (q : Nat) :
    InBlock (p &&& buddyOf p o) (o + 1) q ↔ InBlock p o q ∨ InBlock (buddyOf p o) o q := by
  have hpow : 2 ^ (o + 1) = 2 ^ o + 2 ^ o := by
    rw [pow_succ, Nat.mul_two]
  unfold InBlock
  rcases buddyOf_cases h with ⟨-, hb, hp⟩ | ⟨hle, -, hb, hp⟩
  · rw [hp, hb, hpow]
    omega
  · rw [hp, hb, hpow]
    omega

theorem not_inBlock_buddy (h : 2 ^ o ∣ p) (hq : InBlock p o q) : ¬ InBlock (buddyOf p o) o q := by
  unfold InBlock at *
  rcases buddyOf_cases h with ⟨-, hb, -⟩ | ⟨hle, -, hb, -⟩ <;> rw [hb] <;> omega

theorem inBlock_self (p o : Nat) : InBlock p o p :=
  ⟨le_refl p, Nat.lt_add_of_pos_right (Nat.two_pow_pos o)⟩

/-- The buddy and the next larger block, from the place in a block of order `m`. -/
theorem buddyOf_mod (p : Nat) {m : Nat} (ho : o < m) :
    p + buddyOf (p % 2 ^ m) o - p % 2 ^ m = buddyOf p o ∧
      p + (buddyOf (p % 2 ^ m) o &&& p % 2 ^ m) - p % 2 ^ m = p &&& buddyOf p o ∧
      buddyOf (p % 2 ^ m) o &&& p % 2 ^ m = (p &&& buddyOf p o) % 2 ^ m := by
  have hlow : 1 <<< o < 2 ^ m := by
    rw [Nat.one_shiftLeft]
    exact Nat.pow_lt_pow_right Nat.one_lt_two ho
  have hdiv : buddyOf p o / 2 ^ m = p / 2 ^ m := by
    rw [buddyOf, Nat.xor_div_two_pow, Nat.div_eq_of_lt hlow, Nat.xor_zero]
  have hmod : buddyOf p o % 2 ^ m = buddyOf (p % 2 ^ m) o := by
    rw [buddyOf, Nat.xor_mod_two_pow, Nat.mod_eq_of_lt hlow, buddyOf]
  have hparent : (p &&& buddyOf p o) % 2 ^ m = buddyOf (p % 2 ^ m) o &&& p % 2 ^ m := by
    rw [Nat.and_mod_two_pow, hmod, Nat.and_comm]
  have hp := Nat.div_add_mod p (2 ^ m)
  have hb := Nat.div_add_mod (buddyOf p o) (2 ^ m)
  have ha := Nat.div_add_mod (p &&& buddyOf p o) (2 ^ m)
  rw [hdiv, hmod] at hb
  rw [Nat.and_div_two_pow, hdiv, Nat.and_self, hparent] at ha
  exact ⟨by omega, by omega, hparent.symm⟩

end Blocks

/-- The blocks of a map from first points to orders: of orders below `m`, aligned, disjoint, and
none to be joined with its buddy. -/
structure BlocksOk (m : Nat) (F : Nat → Option Nat) : Prop where
  lt : ∀ {p o}, F p = some o → o < m
  aligned : ∀ {p o}, F p = some o → 2 ^ o ∣ p
  disjoint :
    ∀ {p o p' o' q}, F p = some o → F p' = some o' → InBlock p o q → InBlock p' o' q → p = p'
  noBuddy : ∀ {p o}, F p = some o → o + 1 < m → F (buddyOf p o) ≠ some o

def InBlocks (F : Nat → Option Nat) (q : Nat) : Prop :=
  ∃ p o, F p = some o ∧ InBlock p o q

variable {m : Nat} {F : Nat → Option Nat} {p o p' o' : Nat}

theorem InBlocks.self (h : F p = some o) : InBlocks F p :=
  ⟨p, o, h, inBlock_self p o⟩

theorem eq_some_of_remove (h : update F p none p' = some o') : p' ≠ p ∧ F p' = some o' := by
  by_cases hp : p' = p
  · rw [hp, update_self] at h
    cases h
  · exact ⟨hp, by rwa [update_of_ne hp] at h⟩

theorem eq_some_of_insert (h : update F p (some o) p' = some o') :
    p' = p ∧ o' = o ∨ p' ≠ p ∧ F p' = some o' := by
  by_cases hp : p' = p
  · rw [hp, update_self] at h
    exact .inl ⟨hp, (Option.some.inj h).symm⟩
  · exact .inr ⟨hp, by rwa [update_of_ne hp] at h⟩

theorem BlocksOk.remove (h : BlocksOk m F) (p : Nat) : BlocksOk m (update F p none) := by
  constructor
  · intro p' o' h'
    exact h.lt (eq_some_of_remove h').2
  · intro p' o' h'
    exact h.aligned (eq_some_of_remove h').2
  · intro p₁ o₁ p₂ o₂ q h1 h2
    exact h.disjoint (eq_some_of_remove h1).2 (eq_some_of_remove h2).2
  · intro p' o' h' ho hbuddy
    exact h.noBuddy (eq_some_of_remove h').2 ho (eq_some_of_remove hbuddy).2

theorem inBlocks_remove (hp : F p = some o) (q : Nat) :
    InBlocks F q ↔ InBlocks (update F p none) q ∨ InBlock p o q := by
  constructor
  · rintro ⟨p', o', h', hq⟩
    by_cases hne : p' = p
    · subst hne
      cases hp.symm.trans h'
      exact .inr hq
    · exact .inl ⟨p', o', by rwa [update_of_ne hne], hq⟩
  · rintro (⟨p', o', h', hq⟩ | hq)
    · exact ⟨p', o', (eq_some_of_remove h').2, hq⟩
    · exact ⟨p, o, hp, hq⟩

theorem inBlocks_insert (hp : F p = none) (q : Nat) :
    InBlocks (update F p (some o)) q ↔ InBlocks F q ∨ InBlock p o q := by
  rw [inBlocks_remove (update_self p (some o) F), update_idem, ← hp, update_eq_self]

/-- A block whose buddy is not free joins the free blocks. -/
theorem BlocksOk.insert (h : BlocksOk m F) (ho : o < m) (hp : 2 ^ o ∣ p)
    (hfree : ∀ q, InBlock p o q → ¬ InBlocks F q) (hbuddy : o + 1 < m → F (buddyOf p o) ≠ some o) :
    BlocksOk m (update F p (some o)) := by
  constructor
  · intro p' o' h'
    rcases eq_some_of_insert h' with ⟨rfl, rfl⟩ | ⟨-, h'⟩
    · exact ho
    · exact h.lt h'
  · intro p' o' h'
    rcases eq_some_of_insert h' with ⟨rfl, rfl⟩ | ⟨-, h'⟩
    · exact hp
    · exact h.aligned h'
  · intro p₁ o₁ p₂ o₂ q h1 h2 hq1 hq2
    rcases eq_some_of_insert h1 with ⟨rfl, rfl⟩ | ⟨-, hold1⟩ <;>
      rcases eq_some_of_insert h2 with ⟨rfl, rfl⟩ | ⟨-, hold2⟩
    · rfl
    · exact absurd ⟨p₂, o₂, hold2, hq2⟩ (hfree q hq1)
    · exact absurd ⟨p₁, o₁, hold1, hq1⟩ (hfree q hq2)
    · exact h.disjoint hold1 hold2 hq1 hq2
  intro p' o' h' ho' hb
  rcases eq_some_of_insert h' with ⟨rfl, rfl⟩ | ⟨-, hold⟩
  · rcases eq_some_of_insert hb with ⟨hbp, -⟩ | ⟨-, hold⟩
    · have hin := inBlock_self p' o'
      exact not_inBlock_buddy hp hin (hbp.symm ▸ hin)
    · exact hbuddy ho' hold
  · rcases eq_some_of_insert hb with ⟨hbp, rfl⟩ | ⟨-, holdb⟩
    · -- The old block is the buddy of the new one.
      apply hbuddy ho'
      rwa [← hbp, buddyOf_buddyOf]
    · exact h.noBuddy hold ho' holdb

/-- A block whose points all lie in blocks lies in one of them. -/
theorem BlocksOk.covers (h : BlocksOk m F) (ho : o < m) (hp : 2 ^ o ∣ p)
    (hin : ∀ q, InBlock p o q → InBlocks F q) :
    ∃ p' o', F p' = some o' ∧ o ≤ o' ∧ InBlock p' o' p := by
  induction o generalizing p with
  | zero =>
    obtain ⟨p', o', hF, hp'⟩ := hin p (inBlock_self p 0)
    exact ⟨p', o', hF, Nat.zero_le o', hp'⟩
  | succ o ih =>
    have hpow : 2 ^ (o + 1) = 2 ^ o + 2 ^ o := by
      rw [pow_succ, Nat.mul_two]
    have hpos := Nat.two_pow_pos o
    have hdvd : 2 ^ o ∣ p := (pow_dvd_pow 2 (Nat.le_succ o)).trans hp
    have hbuddy : buddyOf p o = p + 2 ^ o := by
      rcases buddyOf_cases hdvd with ⟨-, hb, -⟩ | ⟨hle, hsub, -, -⟩
      · exact hb
      · have := Nat.le_of_lt_add_of_dvd (a := p) (b := p - 2 ^ o) (by omega) hp hsub
        omega
    obtain ⟨a, i, ha, hi, hain⟩ := ih (p := p) (Nat.lt_of_succ_lt ho) hdvd
      fun q hq => hin q (by unfold InBlock at *; omega)
    obtain ⟨b, j, hb, hj, hbin⟩ := ih (p := p + 2 ^ o) (Nat.lt_of_succ_lt ho)
      (Nat.dvd_add hdvd (dvd_refl _)) fun q hq => hin q (by unfold InBlock at *; omega)
    unfold InBlock at *
    rcases Nat.lt_or_ge o i with hlt | hge
    · exact ⟨a, i, ha, hlt, hain⟩
    rcases Nat.lt_or_ge o j with hlt | hge'
    · -- the second half lies in a larger block, which then holds the first half too
      have hle := Nat.le_of_lt_add_of_dvd (a := b) (b := p) (n := 2 ^ (o + 1)) (by omega)
        ((pow_dvd_pow 2 hlt).trans (h.aligned hb)) hp
      exact ⟨b, j, hb, hlt, hle, by omega⟩
    obtain rfl := Nat.le_antisymm hi hge
    obtain rfl := Nat.le_antisymm hj hge'
    have hap := Nat.le_of_lt_add_of_dvd hain.2 hdvd (h.aligned ha)
    have hbp := Nat.le_of_lt_add_of_dvd hbin.2 (Nat.dvd_add hdvd (dvd_refl _)) (h.aligned hb)
    obtain rfl : a = p := by omega
    obtain rfl : b = buddyOf a o := by omega
    exact absurd hb (h.noBuddy ha ho)

end LinuxKernel.Lib
