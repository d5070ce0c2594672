import Mathlib.Data.List.Induction
import Mathlib.Data.List.Sort

/-!
# Walks over the descendants of a node

The nodes of a tree are listed with each parent in front of its children.  A walk over the
descendants of a node in this order changes the value of each by the value that its parent
has got.
-/

namespace LinuxKernel.Lib

open List

section Walk

variable {parent : Nat → Option Nat} {seen xs ys : List Nat} {x p root : Nat}

/-- The nodes of the list whose parent has been seen. -/
def walkFrom (parent : Nat → Option Nat) : List Nat → List Nat → List Nat
  | _, [] => []
  | seen, x :: xs =>
    if ∃ p ∈ parent x, p ∈ seen then x :: walkFrom parent (x :: seen) xs
    else walkFrom parent seen xs

/-- The descendants of a node, without the node itself. -/
def descendants (parent : Nat → Option Nat) (root : Nat) (nodes : List Nat) : List Nat :=
  walkFrom parent [root] nodes

/-- Each parent stands before its children, or was seen before the list. -/
def ParentsFirst (parent : Nat → Option Nat) (before : Nat → Prop) (nodes : List Nat) : Prop :=
  ∀ pre x post, nodes = pre ++ x :: post → ∀ p ∈ parent x, before p ∨ p ∈ pre

theorem ParentsFirst.idxOf_lt (h : ParentsFirst parent (fun _ => False) xs) (hx : x ∈ xs)
    (hp : p ∈ parent x) : xs.idxOf p < xs.idxOf x := by
  obtain ⟨pre, post, rfl, hnot⟩ := eq_append_cons_of_mem hx
  have hpre := (h pre x post rfl p hp).resolve_left id
  rw [idxOf_append_of_mem hpre, idxOf_append_of_notMem hnot]
  exact lt_of_lt_of_le (idxOf_lt_length_of_mem hpre) (Nat.le_add_right _ _)

theorem walkFrom_sublist (parent : Nat → Option Nat) (seen xs : List Nat) :
    (walkFrom parent seen xs).Sublist xs := by
  induction xs generalizing seen with
  | nil => exact .refl _
  | cons x xs ih =>
    unfold walkFrom
    split_ifs
    · exact (ih (x :: seen)).cons_cons x
    · exact (ih seen).cons x

/-- In the walk a parent was seen or stands before its child. -/
theorem parentsFirst_walkFrom (parent : Nat → Option Nat) (seen xs : List Nat) :
    ∀ pre x post, walkFrom parent seen xs = pre ++ x :: post →
      ∃ p ∈ parent x, p ∈ seen ∨ p ∈ pre := by
  induction xs generalizing seen with
  | nil =>
    intro pre x post heq
    have hnil : pre ++ x :: post = [] := heq.symm
    simp at hnil
  | cons y xs ih =>
    intro pre x post heq
    unfold walkFrom at heq
    split_ifs at heq with hy
    · cases pre with
      | nil =>
        obtain ⟨rfl, -⟩ := List.cons.inj heq
        obtain ⟨p, hp, hseen⟩ := hy
        exact ⟨p, hp, Or.inl hseen⟩
      | cons z pre =>
        obtain ⟨rfl, hrest⟩ := List.cons.inj heq
        obtain ⟨p, hp, hp'⟩ := ih (y :: seen) pre x post hrest
        refine ⟨p, hp, ?_⟩
        rw [mem_cons] at hp' ⊢
        obtain (rfl | hseen) | hpre := hp'
        · exact .inr (.inl rfl)
        · exact .inl hseen
        · exact .inr (.inr hpre)
    · exact ih seen pre x post heq

theorem walkFrom_append : walkFrom parent seen (xs ++ ys) = walkFrom parent seen xs ++
      walkFrom parent ((walkFrom parent seen xs).reverse ++ seen) ys := by
  induction xs generalizing seen with
  | nil => rfl
  | cons x xs ih =>
    rw [cons_append, walkFrom, walkFrom]
    split_ifs
    · rw [ih, reverse_cons, append_assoc]
      rfl
    · exact ih

theorem mem_walkFrom (hfirst : ParentsFirst parent (fun _ => False) xs) (hnodup : xs.Nodup)
    (hx : x ∈ xs) (hp : p ∈ parent x) (hwalk : p ∈ seen ∨ p ∈ walkFrom parent seen xs) :
    x ∈ walkFrom parent seen xs := by
  obtain ⟨pre, post, rfl⟩ := append_of_mem hx
  rw [walkFrom_append, mem_append] at hwalk
  have hseen : p ∈ (walkFrom parent seen pre).reverse ++ seen := by
    rw [mem_append, mem_reverse]
    obtain hseen | hmem | hmem := hwalk
    · exact .inr hseen
    · exact .inl hmem
    -- The parent stands in front of the node, and nowhere else.
    · have hpre := (hfirst pre x post rfl p hp).resolve_left id
      have hpost := (walkFrom_sublist parent _ _).subset hmem
      exact absurd rfl ((nodup_append.mp hnodup).2.2 p hpre p hpost)
  rw [walkFrom_append, walkFrom, if_pos ⟨p, hp, hseen⟩]
  exact mem_append_right _ mem_cons_self

/-- The parent of each node of the walk is the root or stands before it. -/
def Follows (parent : Nat → Option Nat) (root : Nat) (xs : List Nat) : Prop :=
  ∀ pre x post, xs = pre ++ x :: post → ∃ p ∈ parent x, p = root ∨ p ∈ pre

theorem walk_induction {P : Nat → Prop} (hfollows : Follows parent root xs)
    (hstep : ∀ x ∈ xs, ∀ p ∈ parent x, (p = root ∨ p ∈ xs ∧ P p) → P x) : ∀ x ∈ xs, P x := by
  have hpre : ∀ pre post, xs = pre ++ post → ∀ x ∈ pre, P x := by
    intro pre
    induction pre using List.reverseRecOn with
    | nil => nofun
    | append_singleton pre y ih =>
      intro post heq x hx
      have hsplit : xs = pre ++ y :: post := by
        rw [heq, append_assoc]
        rfl
      obtain hx | hx := mem_append.mp hx
      · exact ih (y :: post) hsplit x hx
      rw [mem_singleton.mp hx]
      obtain ⟨p, hp, hbefore⟩ := hfollows pre y post hsplit
      refine hstep y (hsplit ▸ mem_append_right _ mem_cons_self) p hp ?_
      refine hbefore.imp_right fun hmem => ⟨?_, ih (y :: post) hsplit p hmem⟩
      rw [hsplit]
      exact mem_append_left _ hmem
  exact hpre xs [] (append_nil xs).symm

theorem follows_descendants (parent : Nat → Option Nat) (root : Nat) (nodes : List Nat) :
    Follows parent root (descendants parent root nodes) := by
  intro pre x post heq
  obtain ⟨p, hp, hseen⟩ := parentsFirst_walkFrom parent [root] nodes pre x post heq
  exact ⟨p, hp, hseen.imp_left mem_singleton.mp⟩

theorem root_notMem_descendants {nodes : List Nat}
    (hfirst : ParentsFirst parent (fun _ => False) nodes) :
    root ∉ descendants parent root nodes := by
  have hafter : ∀ x ∈ descendants parent root nodes, nodes.idxOf root < nodes.idxOf x := by
    refine walk_induction (follows_descendants parent root nodes) fun x hx p hp hbefore => ?_
    have hlt := hfirst.idxOf_lt ((walkFrom_sublist parent _ nodes).subset hx) hp
    obtain rfl | ⟨-, hroot⟩ := hbefore
    · exact hlt
    · exact hroot.trans hlt
  exact fun hmem => lt_irrefl _ (hafter root hmem)

end Walk

variable {S : Type} {parent : Nat → Option Nat} {visit : S → S → S} {root : Nat}

/-- One node gets the value from its parent's value and its own. -/
def visitOne (parent : Nat → Option Nat) (visit : S → S → S) (f : Nat → S) (x : Nat) : Nat → S :=
  match parent x with
  | none => f
  | some p => Function.update f x (visit (f p) (f x))

/-- The nodes of a walk get their values one after the other. -/
def visitAll (parent : Nat → Option Nat) (visit : S → S → S) (xs : List Nat) (f : Nat → S) :
    Nat → S :=
  xs.foldl (visitOne parent visit) f

/-- Each node of the walk has the value of the visit with its parent's new value. -/
theorem visitAll_eq {xs : List Nat} (hfollows : Follows parent root xs) (hnodup : xs.Nodup)
    (hroot : root ∉ xs) (f : Nat → S) :
    (∀ y, y ∉ xs → visitAll parent visit xs f y = f y) ∧
      ∀ x ∈ xs, ∀ p ∈ parent x,
        visitAll parent visit xs f x = visit (visitAll parent visit xs f p) (f x) := by
  induction xs using List.reverseRecOn with
  | nil => exact ⟨fun _ _ => rfl, nofun⟩
  | append_singleton xs x ih =>
    have hsplit := nodup_append.mp hnodup
    have hxs : x ∉ xs := fun hmem => hsplit.2.2 x hmem x mem_cons_self rfl
    have hroot' : root ∉ xs := fun hmem => hroot (mem_append_left _ hmem)
    have hxroot : x ≠ root := by
      rintro rfl
      exact hroot (mem_append_right _ mem_cons_self)
    have hfollows' : Follows parent root xs := by
      intro pre y post heq
      refine hfollows pre y (post ++ [x]) ?_
      rw [heq, append_assoc]
      rfl
    obtain ⟨hother, hsame⟩ := ih hfollows' hsplit.1 hroot'
    obtain ⟨p, hp, hpx⟩ := hfollows xs x [] rfl
    have hstep : visitAll parent visit (xs ++ [x]) f =
        Function.update (visitAll parent visit xs f) x
          (visit (visitAll parent visit xs f p) (visitAll parent visit xs f x)) := by
      unfold visitAll
      rw [foldl_append, foldl_cons, foldl_nil, visitOne, Option.mem_def.mp hp]
    have hkeep : ∀ y, y ≠ x →
        visitAll parent visit (xs ++ [x]) f y = visitAll parent visit xs f y := by
      intro y hy
      rw [hstep]
      exact Function.update_of_ne hy _ _
    refine ⟨fun y hy => ?_, fun y hy q hq => ?_⟩
    · rw [mem_append, not_or] at hy
      rw [hkeep y fun heq => hy.2 (heq ▸ mem_cons_self), hother y hy.1]
    obtain hy | hy := mem_append.mp hy
    · have hqx : q ≠ x := by
        obtain ⟨pre, post, heq⟩ := append_of_mem hy
        obtain ⟨q', hq', hbefore⟩ := hfollows' pre y post heq
        rw [Option.mem_def.mp hq'] at hq
        cases hq
        obtain rfl | hpre := hbefore
        · exact hxroot.symm
        · rintro rfl
          exact hxs (heq ▸ mem_append_left _ hpre)
      have hyx : y ≠ x := fun heq => hxs (heq ▸ hy)
      rw [hkeep y hyx, hkeep q hqx, hsame y hy q hq]
    obtain rfl := mem_singleton.mp hy
    rw [Option.mem_def.mp hp] at hq
    cases hq
    have hpy : p ≠ y := by
      obtain rfl | hpre := hpx
      · exact hxroot.symm
      · exact fun heq => hxs (heq ▸ hpre)
    rw [hkeep p hpy, hstep, Function.update_self, hother y hxs]

end LinuxKernel.Lib
