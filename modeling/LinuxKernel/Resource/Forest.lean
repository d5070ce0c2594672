import LinuxKernel.Lib.LinkedChain
import LinuxKernel.Resource.ResourceTree

/-!
# Resources form a forest

The children of each resource are listed by a function `kids`.  The pointers agree with
it, the ranges are sorted, disjoint and inside their parents, and there are no cycles.
Each change of the tree is a change of two of these lists.
-/

namespace LinuxKernel.Resources

open Lib List

variable {mem mem' : Mem} {kids : Nat → List Nat} {a root new : Nat} {pre mid post : List Nat}

section Links

variable {b c : Nat}

/-- The pointers agree with the lists of children. -/
structure Links (mem : Mem) (kids : Nat → List Nat) : Prop where
  linked : ∀ a, LinkedTo mem.sibling none (mem.child a) (kids a)
  parent : ∀ a, ∀ c ∈ kids a, mem.parent c = some a
  nodup : ∀ a, (kids a).Nodup

theorem Links.parent_unique (h : Links mem kids) (ha : c ∈ kids a) (hb : c ∈ kids b) : a = b := by
  have heq := (h.parent a c ha).symm.trans (h.parent b c hb)
  exact Option.some.inj heq

/-- The place behind the first children of a resource. -/
def slotAfter (root : Nat) (pre : List Nat) : Slot :=
  match pre.getLast? with
  | none => .child root
  | some x => .sibling x

theorem slotAfter_concat (root x : Nat) (pre : List Nat) :
    slotAfter root (pre ++ [x]) = .sibling x := by
  unfold slotAfter
  rw [getLast?_concat]

theorem read_slotAfter (h : LinkedTo mem.sibling none (mem.child root) (pre ++ post)) :
    mem.read (slotAfter root pre) = post.head? := by
  obtain rfl | ⟨l, x, rfl⟩ := pre.eq_nil_or_concat'
  · exact h.eq_head?
  · rw [slotAfter_concat]
    obtain ⟨m, hl, hpost⟩ := linkedTo_append.mp h
    obtain ⟨m', -, -, rfl⟩ := linkedTo_append.mp hl
    exact hpost.eq_head?

theorem linkedTo_slotAfter {q q' : Option Nat} (h : LinkedTo mem.sibling q (mem.child root) pre)
    (hnodup : pre.Nodup) (hchild : pre ≠ [] → mem'.child root = mem.child root)
    (hsibling : ∀ x ∈ pre, .sibling x ≠ slotAfter root pre → mem'.sibling x = mem.sibling x)
    (hwrite : mem'.read (slotAfter root pre) = q') :
    LinkedTo mem'.sibling q' (mem'.child root) pre := by
  obtain rfl | ⟨l, x, rfl⟩ := pre.eq_nil_or_concat'
  · exact hwrite
  rw [slotAfter_concat] at hsibling hwrite
  rw [hchild (by simp)]
  obtain ⟨m, hl, hm, -⟩ := linkedTo_append.mp h
  refine linkedTo_append.mpr ⟨m, hl.congr fun y hy => ?_, hm, hwrite⟩
  refine hsibling y (mem_append_left _ hy) fun heq => ?_
  cases heq
  exact (nodup_append.mp hnodup).2.2 x hy x mem_cons_self rfl

end Links

variable {kids' : Nat → List Nat}

section Ranges

/-- One resource ends before the other starts. -/
def Mem.Before (mem : Mem) (c d : Nat) : Prop :=
  mem.stop c < mem.start d

def Mem.Within (mem : Mem) (c a : Nat) : Prop :=
  mem.start a ≤ mem.start c ∧ mem.stop c ≤ mem.stop a

/-- The children of each resource are proper ranges in it, sorted and disjoint. -/
structure Ranges (mem : Mem) (kids : Nat → List Nat) : Prop where
  proper : ∀ a, ∀ c ∈ kids a, mem.start c ≤ mem.stop c
  inside : ∀ a, ∀ c ∈ kids a, mem.Within c a
  sorted : ∀ a, (kids a).Pairwise mem.Before

def setKids (kids : Nat → List Nat) (a : Nat) (l : List Nat) : Nat → List Nat :=
  Function.update kids a l

theorem setKids_self (a : Nat) (l : List Nat) : setKids kids a l a = l :=
  Function.update_self _ _ _

variable {l : List Nat}

theorem setKids_of_ne {b : Nat} (h : b ≠ a) (kids : Nat → List Nat) (l : List Nat) :
    setKids kids a l b = kids b :=
  Function.update_of_ne h _ _

theorem Ranges.set (h : Ranges mem kids) (hproper : ∀ c ∈ l, mem.start c ≤ mem.stop c)
    (hinside : ∀ c ∈ l, mem.Within c a) (hsorted : l.Pairwise mem.Before) :
    Ranges mem (setKids kids a l) := by
  have hcases : ∀ P : Nat → List Nat → Prop, P a l → (∀ b, P b (kids b)) →
      ∀ b, P b (setKids kids a l b) := by
    intro P hself hother b
    by_cases hb : b = a
    · rw [hb, setKids_self]
      exact hself
    · rw [setKids_of_ne hb]
      exact hother b
  exact ⟨hcases (fun _ l => ∀ c ∈ l, mem.start c ≤ mem.stop c) hproper h.proper,
    hcases (fun a l => ∀ c ∈ l, mem.Within c a) hinside h.inside,
    hcases (fun _ l => l.Pairwise mem.Before) hsorted h.sorted⟩

theorem Ranges.insert (h : Ranges mem kids) (hroot : kids root = pre ++ post)
    (hproper : mem.start new ≤ mem.stop new) (hinside : mem.Within new root)
    (hpre : ∀ c ∈ pre, mem.Before c new) (hpost : ∀ c ∈ post, mem.Before new c) :
    Ranges mem (setKids kids root (pre ++ new :: post)) := by
  have hmem : ∀ c, c ∈ pre ++ new :: post → c = new ∨ c ∈ kids root := by
    intro c hc
    rw [hroot, mem_append]
    obtain hc | hc := mem_append.mp hc
    · exact .inr (.inl hc)
    · exact (mem_cons.mp hc).imp_right Or.inr
  refine h.set (fun c hc => ?_) (fun c hc => ?_) ?_
  · obtain rfl | hc := hmem c hc
    · exact hproper
    · exact h.proper root c hc
  · obtain rfl | hc := hmem c hc
    · exact hinside
    · exact h.inside root c hc
  have hsorted := h.sorted root
  rw [hroot, pairwise_append] at hsorted
  obtain ⟨hp, hq, hacross⟩ := hsorted
  refine pairwise_append.mpr ⟨hp, pairwise_cons.mpr ⟨hpost, hq⟩, fun c hc d hd => ?_⟩
  obtain rfl | hd := mem_cons.mp hd
  · exact hpre c hc
  · exact hacross c hc d hd

theorem Ranges.sublist (h : Ranges mem kids) (hsub : l.Sublist (kids a)) :
    Ranges mem (setKids kids a l) :=
  h.set (fun c hc => h.proper a c (hsub.subset hc)) (fun c hc => h.inside a c (hsub.subset hc))
    ((h.sorted a).sublist hsub)

end Ranges

/-- No resource lies below itself. -/
def Acyclic (kids : Nat → List Nat) : Prop :=
  WellFounded fun c a => c ∈ kids a

/-- A resource lies in the tree of another one. -/
inductive Under (kids : Nat → List Nat) (top : Nat) : Nat → Prop
  | top : Under kids top top
  | kid {a c : Nat} (h : Under kids top a) (hc : c ∈ kids a) : Under kids top c

theorem Acyclic.mono (h : Acyclic kids) (hsub : ∀ a, ∀ c ∈ kids' a, c ∈ kids a) : Acyclic kids' :=
  Subrelation.wf (fun {c a} hc => hsub a c hc) h

/-- An unlinked resource becomes a child of one that is not below it. -/
theorem Acyclic.insert (h : Acyclic kids) (hroot : kids root = pre ++ post)
    (hbelow : ¬ Under kids new root) : Acyclic (setKids kids root (pre ++ new :: post)) := by
  -- What lies below `new` has the children that it had.
  have hnew : ∀ x, Under kids new x →
      Acc (fun c a => c ∈ setKids kids root (pre ++ new :: post) a) x := by
    intro x
    refine h.induction (C := fun x => Under kids new x →
      Acc (fun c a => c ∈ setKids kids root (pre ++ new :: post) a) x) x fun x ih hx => ?_
    refine .intro x fun c hc => ?_
    have hne : x ≠ root := fun heq => hbelow (heq ▸ hx)
    rw [setKids_of_ne hne] at hc
    exact ih c hc (.kid hx hc)
  refine ⟨fun x => h.induction (C := Acc _) x fun x ih => .intro x fun c hc => ?_⟩
  by_cases hx : x = root
  · subst hx
    rw [setKids_self] at hc
    obtain hc | hc := mem_append.mp hc
    · exact ih c (hroot ▸ mem_append_left _ hc)
    · obtain rfl | hc := mem_cons.mp hc
      · exact hnew c .top
      · exact ih c (hroot ▸ mem_append_right _ hc)
  · rw [setKids_of_ne hx] at hc
    exact ih c hc

/-- An unlinked resource comes between another one and some of its children. -/
theorem Acyclic.between (h : Acyclic kids) (hroot : kids root = pre ++ mid ++ post)
    (hunlinked : ∀ a, new ∉ kids a) (hne : new ≠ root) :
    Acyclic (setKids (setKids kids new mid) root (pre ++ new :: post)) := by
  have hstep : ∀ x, x ≠ new →
      Acc (fun c a => c ∈ setKids (setKids kids new mid) root (pre ++ new :: post) a) x := by
    intro x
    refine h.induction (C := fun x => x ≠ new → Acc (fun c a =>
      c ∈ setKids (setKids kids new mid) root (pre ++ new :: post) a) x) x fun x ih hx => ?_
    have hkid : ∀ c ∈ kids x,
        Acc (fun c a => c ∈ setKids (setKids kids new mid) root (pre ++ new :: post) a) c :=
      fun c hc => ih c hc fun heq => hunlinked x (heq ▸ hc)
    refine .intro x fun c hc => ?_
    by_cases hxr : x = root
    · subst hxr
      rw [hroot] at hkid
      rw [setKids_self] at hc
      obtain hc | hc := mem_append.mp hc
      · exact hkid c (mem_append_left _ (mem_append_left _ hc))
      · obtain rfl | hc := mem_cons.mp hc
        · refine .intro c fun d hd => ?_
          rw [setKids_of_ne hne, setKids_self] at hd
          exact hkid d (mem_append_left _ (mem_append_right _ hd))
        · exact hkid c (mem_append_right _ hc)
    · rw [setKids_of_ne hxr, setKids_of_ne hx] at hc
      exact hkid c hc
  refine ⟨fun x => ?_⟩
  by_cases hx : x = new
  · subst hx
    refine .intro x fun d hd => hstep d ?_
    rw [setKids_of_ne hne, setKids_self] at hd
    rintro rfl
    exact hunlinked root (hroot ▸ mem_append_left _ (mem_append_right _ hd))
  · exact hstep x hx

end LinuxKernel.Resources
