import Mathlib.Data.List.Count

/-!
# Counting references

Nodes hold lists of references to one another.  The references to a node from the nodes of a
list are counted, and what is reachable from some roots is closed under references.
-/

namespace LinuxKernel.Lib

section RefsFrom

variable {σ : Type} [DecidableEq σ] {refs : σ → List σ} {xs ys : List σ} {x y : σ}

/-- The number of references to `y` from the nodes of a list. -/
def refsFrom (refs : σ → List σ) (xs : List σ) (y : σ) : Nat :=
  (xs.flatMap refs).count y

variable (refs) (y) in
theorem refsFrom_nil : refsFrom refs [] y = 0 :=
  rfl

theorem refsFrom_append : refsFrom refs (xs ++ ys) y = refsFrom refs xs y + refsFrom refs ys y := by
  unfold refsFrom
  rw [List.flatMap_append, List.count_append]

theorem refsFrom_singleton : refsFrom refs [x] y = (refs x).count y := by
  unfold refsFrom
  rw [List.flatMap_singleton]

theorem refsFrom_cons : refsFrom refs (x :: xs) y = (refs x).count y + refsFrom refs xs y := by
  unfold refsFrom
  rw [List.flatMap_cons, List.count_append]

/-- References that are split between two places are counted in both. -/
theorem refsFrom_add {a b : σ → List σ}
    (h : ∀ x ∈ xs, (refs x).count y = (a x).count y + (b x).count y) :
    refsFrom refs xs y = refsFrom a xs y + refsFrom b xs y := by
  induction xs with
  | nil => rfl
  | cons x xs ih =>
    obtain ⟨hx, hxs⟩ := List.forall_mem_cons.mp h
    rw [refsFrom_cons, refsFrom_cons, refsFrom_cons, hx, ih hxs]
    omega

theorem refsFrom_perm (h : xs.Perm ys) (refs : σ → List σ) (y : σ) :
    refsFrom refs xs y = refsFrom refs ys y :=
  (h.flatMap_right refs).count_eq y

theorem refsFrom_pos : 0 < refsFrom refs xs y ↔ ∃ x ∈ xs, y ∈ refs x := by
  unfold refsFrom
  rw [List.count_pos_iff, List.mem_flatMap]

theorem refsFrom_eq_zero : refsFrom refs xs y = 0 ↔ ∀ x ∈ xs, y ∉ refs x := by
  unfold refsFrom
  rw [List.count_eq_zero, List.mem_flatMap]
  push Not
  rfl

end RefsFrom

variable {σ : Type} {refs : σ → List σ} {root P : σ → Prop} {x y : σ}

/-- What is reachable from the roots by references. -/
inductive ReachableFrom (refs : σ → List σ) (root : σ → Prop) : σ → Prop
  | root {x : σ} (h : root x) : ReachableFrom refs root x
  | step {x y : σ} (h : ReachableFrom refs root x) (hy : y ∈ refs x) : ReachableFrom refs root y

/-- A set with the roots, closed under references, holds all that is reachable. -/
theorem ReachableFrom.of_closed (h : ReachableFrom refs root x) (hroot : ∀ x, root x → P x)
    (hclosed : ∀ x y, P x → y ∈ refs x → P y) : P x := by
  induction h with
  | root h => exact hroot _ h
  | step _ hy ih => exact hclosed _ _ ih hy

end LinuxKernel.Lib
