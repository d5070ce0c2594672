import Mathlib.Data.List.Perm.Basic

/-!
# Reading a list again and again

Steps that take the elements of a list one after the other, and begin again at its head when
nothing is left, have taken each element as often as the list holds it after as many steps as
the list is long, wherever they start.
-/

namespace LinuxKernel.Lib

variable {σ α : Type} {step : σ → α → σ → Prop} {rem : σ → List α} {full xs ys done : List α}
  {inv : σ → Prop} {s s' s'' : σ}

/-- Steps one after the other, with what they take. -/
inductive Steps (step : σ → α → σ → Prop) : σ → List α → σ → Prop
  | nil (s : σ) : Steps step s [] s
  | cons {s s' s'' : σ} {x : α} {xs : List α} (h : step s x s') (hs : Steps step s' xs s'') :
      Steps step s (x :: xs) s''

theorem Steps.append (h : Steps step s xs s') (h' : Steps step s' ys s'') :
    Steps step s (xs ++ ys) s'' := by
  induction h with
  | nil s => exact h'
  | cons hstep _ ih => exact .cons hstep (ih h')

/-- A step takes the first of what is left, or of the list when nothing is left. -/
def Takes (rem : σ → List α) (full : List α) (s : σ) (x : α) (s' : σ) : Prop :=
  rem s = x :: rem s' ∨ rem s = [] ∧ full = x :: rem s'

/-- Every state that meets the invariant makes such a step. -/
def Reader (step : σ → α → σ → Prop) (rem : σ → List α) (full : List α) (inv : σ → Prop) : Prop :=
  ∀ s, inv s → ∃ x s', step s x s' ∧ inv s' ∧ Takes rem full s x s'

theorem Reader.take (h : Reader step rem full inv) (hs : inv s) (hrem : rem s = xs ++ ys) :
    ∃ s', Steps step s xs s' ∧ inv s' ∧ rem s' = ys := by
  induction xs generalizing s with
  | nil => exact ⟨s, .nil s, hs, hrem⟩
  | cons x xs ih =>
    obtain ⟨x', s', hstep, hs', htake⟩ := h s hs
    obtain htake | ⟨hnil, -⟩ := htake
    · rw [hrem] at htake
      obtain ⟨rfl, hrest⟩ := List.cons.inj htake
      obtain ⟨s'', hsteps, hs'', hys⟩ := ih hs' hrest.symm
      exact ⟨s'', .cons hstep hsteps, hs'', hys⟩
    · rw [hrem] at hnil
      cases hnil

/-- A whole round reads each item once. -/
theorem Reader.round (h : Reader step rem full inv) (hs : inv s) (hfull : full = done ++ rem s) :
    ∃ xs s', Steps step s xs s' ∧ inv s' ∧ xs.Perm full := by
  obtain ⟨s₁, hsteps1, hs1, hrem1⟩ := h.take hs (List.append_nil (rem s)).symm
  cases done with
  | nil => exact ⟨rem s, s₁, hsteps1, hs1, List.Perm.of_eq hfull.symm⟩
  | cons x done =>
    obtain ⟨x', s₂, hstep, hs2, htake⟩ := h s₁ hs1
    obtain htake | ⟨-, htake⟩ := htake
    · rw [hrem1] at htake
      cases htake
    rw [hfull] at htake
    obtain ⟨rfl, hrest⟩ := List.cons.inj htake
    obtain ⟨s₃, hsteps3, hs3, -⟩ := h.take hs2 hrest.symm
    refine ⟨rem s ++ x :: done, s₃, hsteps1.append (.cons hstep hsteps3), hs3, ?_⟩
    rw [hfull]
    exact List.perm_append_comm

end LinuxKernel.Lib
