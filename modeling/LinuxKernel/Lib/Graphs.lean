import Mathlib.Data.List.Sort

/-!
# Searches and trails in a graph

A search with pruning drops a state that one looked at before covers.  When nothing waits any more,
the states looked at are closed under successors up to covering.  In a depth first search each
vertex of the stack leads to those above it, and a vertex is done with after all its successors,
so none of these is on a cycle.  In a graph without short cycles, a new edge closes one only if
there was a short trail back from its end to its start.
-/

namespace LinuxKernel.Lib

universe u

section Explore

variable {S : Type u}

/-- Some state of the list covers `s`. -/
def Covered (covers : S → S → Prop) (seen : List S) (s : S) : Prop :=
  ∃ t ∈ seen, covers t s

/-- Successors of seen states are covered or waiting. -/
def Frontier (succ covers : S → S → Prop) (seen todo : List S) : Prop :=
  ∀ s ∈ seen, ∀ t, succ s t → Covered covers seen t ∨ t ∈ todo

variable {succ covers : S → S → Prop} {seen todo new : List S} {s t : S}

theorem Frontier.nil : Frontier succ covers [] todo := by
  intro s hs
  cases hs

theorem Covered.cons (h : Covered covers seen s) (t : S) : Covered covers (t :: seen) s := by
  obtain ⟨u, hu, hc⟩ := h
  exact ⟨u, List.mem_cons_of_mem t hu, hc⟩

theorem Frontier.skip (h : Frontier succ covers seen (s :: todo)) (hs : Covered covers seen s) :
    Frontier succ covers seen todo := by
  intro a ha t hat
  rcases h a ha t hat with hcov | hmem
  · exact .inl hcov
  · rcases List.mem_cons.mp hmem with rfl | hmem
    · exact .inl hs
    · exact .inr hmem

theorem Frontier.expand (h : Frontier succ covers seen (s :: todo)) (hrefl : covers s s)
    (hnew : ∀ t, succ s t → t ∈ new ++ todo) : Frontier succ covers (s :: seen) (new ++ todo) := by
  intro a ha t hat
  rcases List.mem_cons.mp ha with rfl | ha
  · exact .inr (hnew t hat)
  · rcases h a ha t hat with hcov | hmem
    · exact .inl (hcov.cons s)
    · rcases List.mem_cons.mp hmem with rfl | hmem
      · exact .inl ⟨_, List.mem_cons_self, hrefl⟩
      · exact .inr (List.mem_append_right new hmem)

theorem Frontier.closed (h : Frontier succ covers seen []) (hs : s ∈ seen) (hst : succ s t) :
    Covered covers seen t := by
  rcases h s hs t hst with hcov | hmem
  · exact hcov
  · cases hmem

end Explore

section DepthFirst

open Relation List

variable {α : Type} {R : α → α → Prop} {root a t w : α} {stack done : List α}

/-- A depth first search from `root`. -/
structure Explores (R : α → α → Prop) (root : α) (stack done : List α) : Prop where
  nodup : (stack ++ done).Nodup
  start : root ∈ stack ++ done
  reached : ∀ a ∈ stack ++ done, ReflTransGen R root a
  path : stack.Pairwise fun a b => ReflTransGen R b a
  closed : ∀ a ∈ done, ∀ b, R a b → b ∈ done
  ends : ∀ a ∈ done, Acc (fun b a => R a b) a

theorem Explores.init (R : α → α → Prop) (root : α) : Explores R root [root] [] := by
  refine ⟨nodup_singleton root, mem_cons_self, fun a ha => ?_,
    pairwise_singleton _ root, nofun, nofun⟩
  rw [mem_singleton.mp ha]

section Top

variable (h : Explores R root (t :: stack) done)

include h

theorem Explores.notMem : t ∉ stack ∧ t ∉ done := by
  have hnodup := h.nodup
  rw [cons_append, nodup_cons, mem_append, not_or] at hnodup
  exact hnodup.1

theorem Explores.reach_top (hw : w ∈ t :: stack) : ReflTransGen R w t := by
  rcases mem_cons.mp hw with rfl | hw
  · exact .refl
  · exact (pairwise_cons.mp h.path).1 w hw

/-- A new node goes on the stack. -/
theorem Explores.push (hedge : R t w) (hnew : w ∉ (t :: stack) ++ done) :
    Explores R root (w :: t :: stack) done where
  nodup := nodup_cons.mpr ⟨hnew, h.nodup⟩
  start := mem_cons_of_mem w h.start
  reached := forall_mem_cons.mpr ⟨(h.reached t mem_cons_self).tail hedge, h.reached⟩
  path := pairwise_cons.mpr ⟨fun _ hb => (h.reach_top hb).tail hedge, h.path⟩
  closed := h.closed
  ends := h.ends

/-- A node whose successors are all done leaves the stack. -/
theorem Explores.pop (hdone : ∀ w, R t w → w ∈ done) : Explores R root stack (t :: done) := by
  have hperm : (stack ++ t :: done).Perm ((t :: stack) ++ done) := perm_middle
  exact {
    nodup := hperm.nodup_iff.mpr h.nodup
    start := hperm.mem_iff.mpr h.start
    reached := fun a ha => h.reached a (hperm.mem_iff.mp ha)
    path := (pairwise_cons.mp h.path).2
    closed := forall_mem_cons.mpr ⟨fun w hw => mem_cons_of_mem t (hdone w hw),
      fun a ha b hab => mem_cons_of_mem t (h.closed a ha b hab)⟩
    ends := forall_mem_cons.mpr ⟨.intro t fun w hw => h.ends w (hdone w hw), h.ends⟩ }

theorem Explores.cycle (hedge : R t w) (hw : w ∈ t :: stack) : TransGen R w w :=
  .tail' (h.reach_top hw) hedge

end Top

theorem Explores.mem_done (h : Explores R root [] done) (ha : ReflTransGen R root a) :
    a ∈ done := by
  induction ha with
  | refl => exact h.start
  | tail _ hab ih => exact h.closed _ ih _ hab

theorem Explores.not_cycle (h : Explores R root stack done) (ha : a ∈ done) : ¬ TransGen R a a := by
  induction h.ends a ha with
  | intro a _ ih =>
    intro hcycle
    obtain ⟨b, hab, hba⟩ := TransGen.head'_iff.mp hcycle
    exact ih b hab (h.closed a ha b hab) (.tail' hba hab)

end DepthFirst

variable {α : Type u}

/-- There is a trail of this length. -/
inductive Trail (R : α → α → Prop) : Nat → α → α → Prop
  | nil (a : α) : Trail R 0 a a
  | cons {n : Nat} {a b c : α} (hab : R a b) (hbc : Trail R n b c) : Trail R (n + 1) a c

/-- There is no closed trail of at most `n` steps. -/
def NoCycle (R : α → α → Prop) (n : Nat) : Prop :=
  ∀ k a, k < n → ¬ Trail R (k + 1) a a

variable {R S : α → α → Prop} {a b x y z : α} {n m : Nat}

theorem Trail.eq_of_zero (h : Trail R 0 x y) : x = y := by
  cases h with
  | nil => rfl

theorem Trail.append (hxy : Trail R n x y) (hyz : Trail R m y z) : Trail R (n + m) x z := by
  induction hxy with
  | nil x =>
    rw [Nat.zero_add]
    exact hyz
  | cons hab _ ih =>
    rw [Nat.add_right_comm]
    exact .cons hab (ih hyz)

theorem Trail.mono (hle : ∀ x y, R x y → S x y) (h : Trail R n x y) : Trail S n x y := by
  induction h with
  | nil x => exact .nil x
  | cons hab _ ih => exact .cons (hle _ _ hab) ih

theorem NoCycle.mono (h : NoCycle S n) (hle : ∀ x y, R x y → S x y) : NoCycle R n :=
  fun k x hk htrail => h k x hk (htrail.mono hle)

theorem Trail.closed {P : α → Prop} (hclosed : ∀ x, P x → ∀ y, R x y → P y) (h : Trail R n x y)
    (hx : P x) : P y := by
  induction h with
  | nil x => exact hx
  | cons hab _ ih => exact ih (hclosed _ hx _ hab)

variable (hle : ∀ x y, S x y → R x y ∨ (x = a ∧ y = b))

include hle

theorem Trail.cases_edge (h : Trail S n x y) :
    Trail R n x y ∨ ∃ i j, i + j + 1 = n ∧ Trail S i x a ∧ Trail S j b y := by
  induction h with
  | nil x => exact .inl (.nil x)
  | @cons n x c y hxc hcy ih =>
    rcases hle x c hxc with hR | ⟨rfl, rfl⟩
    · rcases ih with ih | ⟨i, j, hij, hi, hj⟩
      · exact .inl (.cons hR ih)
      · exact .inr ⟨i + 1, j, by omega, .cons hxc hi, hj⟩
    · exact .inr ⟨0, n, by omega, .nil x, hcy⟩

/-- Up to the first visit of the start of a new edge, a trail does not use it. -/
theorem Trail.first_visit (h : Trail S n x a) : ∃ k ≤ n, Trail R k x a := by
  generalize hy : a = y at h
  induction h with
  | nil x => exact ⟨0, Nat.le_refl 0, .nil x⟩
  | @cons n x c y hxc hcy ih =>
    by_cases hxa : x = y
    · subst hxa
      exact ⟨0, Nat.zero_le _, .nil x⟩
    · obtain ⟨k, hk, htrail⟩ := ih hy
      rcases hle x c hxc with hR | ⟨rfl, -⟩
      · exact ⟨k + 1, Nat.succ_le_succ hk, .cons hR htrail⟩
      · exact absurd hy hxa

theorem NoCycle.closed_by (h : NoCycle R n) (hm : m < n) (hcycle : Trail S (m + 1) x x) :
    ∃ k ≤ m, Trail R k b a := by
  rcases hcycle.cases_edge hle with htrail | ⟨i, j, hij, hi, hj⟩
  · exact absurd htrail (h m x hm)
  · obtain ⟨k, hk, htrail⟩ := (hj.append hi).first_visit hle
    exact ⟨k, by omega, htrail⟩

end LinuxKernel.Lib
