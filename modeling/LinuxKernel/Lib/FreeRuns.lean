import Mathlib.Tactic.Ring

/-!
# Runs of free slots

An array of slots in segments of a fixed size, where each free slot counts how many free slots
follow up to the end of its run or of its segment.  The count depends on the next slot only.  A
circular search over the multiples of a stride visits all of them.
-/

namespace LinuxKernel.Lib

section Counts

variable {busy busy' : Nat → Prop} {f g : Nat → Nat} {seg i : Nat}

/-- The count of a slot is right for the count of the next one. -/
structure CountsAt (seg : Nat) (busy : Nat → Prop) (f : Nat → Nat) (i : Nat) : Prop where
  zero : busy i → f i = 0
  last : ¬ busy i → (i + 1) % seg = 0 → f i = 1
  next : ¬ busy i → (i + 1) % seg ≠ 0 → f i = f (i + 1) + 1

theorem CountsAt.zero_iff (h : CountsAt seg busy f i) : f i = 0 ↔ busy i := by
  constructor
  · intro hzero
    by_contra hfree
    by_cases hlast : (i + 1) % seg = 0
    · rw [h.last hfree hlast] at hzero
      cases hzero
    · rw [h.next hfree hlast] at hzero
      cases hzero
  · exact h.zero

theorem CountsAt.le_one (h : CountsAt seg busy f i) (hlast : (i + 1) % seg = 0) : f i ≤ 1 := by
  by_cases hb : busy i
  · rw [h.zero hb]
    exact Nat.zero_le 1
  · rw [h.last hb hlast]

theorem CountsAt.congr (h : CountsAt seg busy f i) (hbusy : busy' i ↔ busy i) (hf : g i = f i)
    (hnext : (i + 1) % seg ≠ 0 → g (i + 1) = f (i + 1)) : CountsAt seg busy' g i := by
  constructor
  · intro hb
    rw [hf, h.zero (hbusy.mp hb)]
  · intro hb hlast
    rw [hf, h.last (mt hbusy.mpr hb) hlast]
  · intro hb hmid
    rw [hf, hnext hmid, h.next (mt hbusy.mpr hb) hmid]

variable [DecidablePred busy] {n k : Nat}

/-- The number of free slots from `i` on before a busy one, up to `n`. -/
def freeRun (busy : Nat → Prop) [DecidablePred busy] : Nat → Nat → Nat
  | 0, _ => 0
  | n + 1, i => if busy i then 0 else freeRun busy n (i + 1) + 1

theorem freeRun_le (n i : Nat) : freeRun busy n i ≤ n := by
  induction n generalizing i with
  | zero => exact le_refl 0
  | succ n ih =>
    rw [freeRun]
    split
    · exact Nat.zero_le _
    · exact Nat.succ_le_succ (ih (i + 1))

theorem free_of_freeRun (h : k < freeRun busy n i) : ¬ busy (i + k) := by
  induction n generalizing i k with
  | zero => exact absurd h (Nat.not_lt_zero k)
  | succ n ih =>
    rw [freeRun] at h
    split at h
    · exact absurd h (Nat.not_lt_zero k)
    next hfree =>
    cases k with
    | zero => exact hfree
    | succ k =>
      have hrest := ih (Nat.lt_of_succ_lt_succ h)
      rwa [add_right_comm] at hrest

theorem mod_succ (hseg : 0 < seg) (i : Nat) :
    (i + 1) % seg = 0 ∧ i % seg = seg - 1 ∨ (i + 1) % seg = i % seg + 1 := by
  have hlt := Nat.mod_lt i hseg
  rw [← Nat.mod_add_mod]
  rcases Nat.eq_or_lt_of_le (show i % seg + 1 ≤ seg from hlt) with hlast | hmid
  · exact .inl ⟨by rw [hlast, Nat.mod_self], by omega⟩
  · exact .inr (Nat.mod_eq_of_lt hmid)

/-- The counts are the lengths of the free runs. -/
theorem eq_freeRun (hseg : 0 < seg) (hdvd : seg ∣ n) (h : ∀ i < n, CountsAt seg busy f i)
    (hi : i < n) : f i = freeRun busy (seg - i % seg) i := by
  induction hk : seg - i % seg generalizing i with
  | zero =>
    have hlt := Nat.mod_lt i hseg
    omega
  | succ k ih =>
    have hcount := h i hi
    rw [freeRun]
    split
    · next hb => exact hcount.zero hb
    next hb =>
    have hlt := Nat.mod_lt i hseg
    rcases mod_succ hseg i with ⟨hlast, hmod⟩ | hmid
    · have hk0 : k = 0 := by omega
      rw [hcount.last hb hlast, hk0, freeRun]
    have hne : (i + 1) % seg ≠ 0 := by omega
    have hin : i + 1 < n := by
      rcases lt_or_ge (i + 1) n with hlt' | hge
      · exact hlt'
      · have heq : i + 1 = n := by omega
        rw [heq, Nat.mod_eq_zero_of_dvd hdvd] at hne
        exact absurd rfl hne
    rw [hcount.next hb hne, ih hin (by omega)]

end Counts

variable {m q q₀ j : Nat}

theorem exists_around (q₀ : Nat) (hq : q < m) : ∃ i < m, (q₀ + i) % m = q := by
  have hm : 0 < m := lt_of_le_of_lt (Nat.zero_le q) hq
  have hlt := Nat.mod_lt q₀ hm
  refine ⟨(q + (m - q₀ % m)) % m, Nat.mod_lt _ hm, ?_⟩
  have hsum : q₀ % m + (q + (m - q₀ % m)) = q + m := by omega
  rw [Nat.add_mod_mod, ← Nat.mod_add_mod, hsum, Nat.add_mod_right, Nat.mod_eq_of_lt hq]

theorem around_ne (hq : q₀ < m) (hj : 0 < j) (hjm : j < m) : (q₀ + j) % m ≠ q₀ := by
  rcases lt_or_ge (q₀ + j) m with hlt | hge
  · rw [Nat.mod_eq_of_lt hlt]
    omega
  · rw [Nat.mod_eq_sub_mod hge, Nat.mod_eq_of_lt (by omega)]
    omega

theorem around_succ (q₀ j : Nat) (hm : 0 < m) :
    (if (q₀ + j) % m + 1 ≥ m then 0 else (q₀ + j) % m + 1) = (q₀ + (j + 1)) % m := by
  rcases mod_succ hm (q₀ + j) with ⟨hlast, hmod⟩ | hmid
  · rw [if_pos (by omega), ← add_assoc, hlast]
  · have hlt := Nat.mod_lt (q₀ + j + 1) hm
    rw [if_neg (by omega), ← add_assoc, hmid]

end LinuxKernel.Lib
