/-!
# Masks of bits

A mask is contained in another one when no bit is left after clearing the bits of the
other one, and two masks overlap when they have a common bit.
-/

namespace LinuxKernel.Lib

open BitVec

variable {w : Nat} {a b c d : BitVec w}

theorem and_not_eq_zero_iff : a &&& ~~~b = 0#w ↔ ∀ i, a.getLsbD i = true → b.getLsbD i = true := by
  constructor
  · intro h i hi
    have hbit := congrArg (fun x : BitVec w => x.getLsbD i) h
    simp only [getLsbD_and, getLsbD_not, getLsbD_zero, hi, Bool.true_and,
      decide_eq_true (lt_of_getLsbD hi), Bool.not_eq_false'] at hbit
    exact hbit
  intro h
  refine eq_of_getLsbD_eq fun i hlt => ?_
  rw [getLsbD_and, getLsbD_not, getLsbD_zero, decide_eq_true hlt, Bool.true_and]
  cases hi : a.getLsbD i with
  | false => rfl
  | true =>
    rw [h i hi]
    rfl

theorem and_ne_zero_iff : a &&& b ≠ 0#w ↔ ∃ i, a.getLsbD i = true ∧ b.getLsbD i = true := by
  constructor
  · intro h
    refine Classical.byContradiction fun hnone => h (eq_of_getLsbD_eq fun i _ => ?_)
    rw [getLsbD_and, getLsbD_zero, Bool.and_eq_false_imp]
    intro ha
    exact Bool.eq_false_iff.mpr fun hb => hnone ⟨i, ha, hb⟩
  · rintro ⟨i, ha, hb⟩ h
    have hbit := congrArg (fun x : BitVec w => x.getLsbD i) h
    simp only [getLsbD_and, getLsbD_zero, ha, hb] at hbit
    cases hbit

theorem and_eq_right_iff : a &&& b = b ↔ ∀ i, b.getLsbD i = true → a.getLsbD i = true := by
  constructor
  · intro h i hi
    rw [← h, getLsbD_and, Bool.and_eq_true] at hi
    exact hi.1
  intro h
  refine eq_of_getLsbD_eq fun i _ => ?_
  rw [getLsbD_and]
  cases hi : b.getLsbD i with
  | false => exact Bool.and_false _
  | true => rw [h i hi, Bool.true_and]

theorem and_and_eq_right_iff : a &&& b &&& c = c ↔ a &&& c = c ∧ b &&& c = c := by
  rw [and_eq_right_iff, and_eq_right_iff, and_eq_right_iff, ← forall_and]
  refine forall_congr' fun i => ?_
  rw [getLsbD_and, Bool.and_eq_true, imp_and]

theorem mask_trans (hab : a &&& ~~~b = 0#w) (hbc : b &&& ~~~c = 0#w) : a &&& ~~~c = 0#w := by
  rw [and_not_eq_zero_iff] at hab hbc ⊢
  exact fun i hi => hbc i (hab i hi)

theorem mask_refl (a : BitVec w) : a &&& ~~~a = 0#w :=
  and_not_eq_zero_iff.mpr fun _ hi => hi

theorem ne_zero_of_mask (h : a &&& ~~~b = 0#w) (ha : a ≠ 0#w) : b ≠ 0#w := by
  rintro rfl
  exact ha (by simpa using h)

theorem mask_or_left (h : a &&& ~~~b = 0#w) (c : BitVec w) : a &&& ~~~(b ||| c) = 0#w := by
  rw [and_not_eq_zero_iff] at h ⊢
  intro i hi
  rw [getLsbD_or, h i hi, Bool.true_or]

theorem mask_or_right (a c : BitVec w) : c &&& ~~~(a ||| c) = 0#w := by
  rw [and_not_eq_zero_iff]
  intro i hi
  rw [getLsbD_or, hi, Bool.or_true]

theorem or_mask_or (h : a &&& ~~~b = 0#w) (c : BitVec w) : (a ||| c) &&& ~~~(b ||| c) = 0#w := by
  rw [and_not_eq_zero_iff] at h ⊢
  intro i hi
  rw [getLsbD_or, Bool.or_eq_true] at hi ⊢
  exact hi.imp_left (h i)

theorem and_not_mask (h : a &&& ~~~b = 0#w) (c : BitVec w) : (a &&& ~~~c) &&& ~~~b = 0#w := by
  rw [and_not_eq_zero_iff] at h ⊢
  intro i hi
  rw [getLsbD_and, Bool.and_eq_true] at hi
  exact h i hi.1

theorem mask_and_not (h : a &&& ~~~b = 0#w) (hc : c &&& a = 0#w) : a &&& ~~~(b &&& ~~~c) = 0#w := by
  rw [and_not_eq_zero_iff] at h ⊢
  intro i hi
  have hnot : c.getLsbD i = false := by
    refine Bool.eq_false_iff.mpr fun hci => ?_
    exact and_ne_zero_iff.mpr ⟨i, hci, hi⟩ hc
  rw [getLsbD_and, h i hi, getLsbD_not, hnot, Bool.true_and, decide_eq_true (lt_of_getLsbD hi)]
  rfl

theorem overlap_mono (h : a &&& ~~~b = 0#w) (hc : a &&& c ≠ 0#w) : b &&& c ≠ 0#w := by
  rw [and_not_eq_zero_iff] at h
  rw [and_ne_zero_iff] at hc ⊢
  obtain ⟨i, ha, hci⟩ := hc
  exact ⟨i, h i ha, hci⟩

end LinuxKernel.Lib
