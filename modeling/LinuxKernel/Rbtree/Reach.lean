import LinuxKernel.Rbtree.EraseRun

/-!
# Red-black trees over whole runs

Nodes are linked at a `NULL` link and rebalanced by `rb_insert_color()`, and taken out by
`rb_erase()`.  After any such run from the empty root the memory holds a red-black tree, with its
nodes in the order of the places where they were linked.
-/

namespace LinuxKernel.Rbtree

open Lib List ColorTree

/-- The sequence with `x` right before or right after `p`. -/
def insertBeside (d : Dir) (p x : Nat) : List Nat → List Nat
  | [] => []
  | y :: ys =>
    if y = p then
      match d with
      | .left => x :: y :: ys
      | .right => y :: x :: ys
    else
      y :: insertBeside d p x ys

/-- The sequence with `x` at the place of a link. -/
def insertAt (x : Nat) : RbLink → List Nat → List Nat
  | .root, _ => [x]
  | .child p d, nodes => insertBeside d p x nodes

/-- The node that a link belongs to. -/
def RbLink.Owner (nodes : List Nat) (parent : Nat) : RbLink → Prop
  | .root => parent = 0
  | .child p _ => parent = p ∧ p ∈ nodes

/-- A tree in memory with the sequence of its nodes. -/
structure RbState where
  mem : RbMem Unit
  nodes : List Nat

namespace RbState

/-- An empty root, whatever the memory of the nodes. -/
def Init (st : RbState) : Prop :=
  st.mem.rootNode = 0 ∧ st.nodes = []

/-- A node can be linked: it is not in the tree and the link is `NULL`. -/
structure CanLink (st : RbState) (x parent : Nat) (rbLink : RbLink) : Prop where
  ne_zero : x ≠ 0
  fresh : x ∉ st.nodes
  owner : rbLink.Owner st.nodes parent
  null : st.mem.readLink rbLink = 0

inductive Step : RbState → RbState → Prop where
  | insert {st : RbState} {x parent : Nat} {rbLink : RbLink} {mem' : RbMem Unit}
      (hlink : st.CanLink x parent rbLink)
      (hrun : Returns (fun fuel => rbInsertColor fuel (rbLinkNode st.mem x parent rbLink) x) mem') :
      Step st ⟨mem', insertAt x rbLink st.nodes⟩
  | erase {st : RbState} {x : Nat} {mem' : RbMem Unit} (hx : x ∈ st.nodes)
      (hrun : Returns (fun fuel => rbErase fuel st.mem x) mem') :
      Step st ⟨mem', st.nodes.erase x⟩

inductive Reachable : RbState → Prop where
  | init {st : RbState} (h : st.Init) : Reachable st
  | step {st st' : RbState} (h : Reachable st) (hstep : Step st st') : Reachable st'

end RbState

theorem insertBeside_middle (d : Dir) {p x : Nat} {pre post : List Nat} (h : p ∉ pre) :
    insertBeside d p x (pre ++ p :: post) = pre ++ insertBeside d p x (p :: post) := by
  induction pre with
  | nil => rfl
  | cons y pre ih =>
    rw [mem_cons, not_or] at h
    have hstep : insertBeside d p x (y :: (pre ++ p :: post)) =
        y :: insertBeside d p x (pre ++ p :: post) := if_neg (Ne.symm h.1)
    rw [cons_append, hstep, ih h.2, cons_append]

theorem toList_linkAt {up : Ctx Nat} {x : Nat} (h : (up.fill .nil).toList.Nodup) :
    (up.fill (.node .red .nil x .nil)).toList = insertAt x (linkAt up) (up.fill .nil).toList := by
  cases up with
  | nil => rfl
  | cons f up =>
    obtain ⟨d, c, p, s⟩ := f
    rw [Ctx.fill, Ctx.toList_fill_eq] at h ⊢
    rw [Ctx.fill, Ctx.toList_fill_eq, linkAt, insertAt]
    cases d with
    | left =>
      have hp : p ∉ Ctx.before up :=
        fun hmem => ((nodup_append_iff _ _).mp h).2.2 p hmem mem_cons_self
      refine Eq.trans ?_ (insertBeside_middle .left hp).symm
      simp [Frame.fill, mk, toList, insertBeside]
    | right =>
      simp only [Frame.fill, mk, toList, nil_append, append_assoc, cons_append] at h ⊢
      rw [← append_assoc] at h
      rw [← append_assoc, ← append_assoc]
      have hp : p ∉ Ctx.before up ++ s.toList :=
        fun hmem => ((nodup_append_iff _ _).mp h).2.2 p hmem mem_cons_self
      rw [insertBeside_middle .right hp]
      simp [insertBeside]

variable {st st' : RbState} {t : ColorTree Nat} {x parent : Nat} {rbLink : RbLink}

theorem Zip.storedUnit {mem : RbMem Unit} {up : Ctx Nat} (h : Zip mem t up) :
    Stored (fun _ _ _ => ()) mem t up :=
  ⟨h, unit_augTree mem t, unit_augCtx mem up _⟩

theorem RbState.CanLink.exists_hole (h : st.CanLink x parent rbLink) (ht : Zip st.mem t [])
    (hlist : t.toList = st.nodes) :
    ∃ up : Ctx Nat, t = up.fill .nil ∧ linkAt up = rbLink ∧ top up = parent := by
  obtain ⟨-, -, howner, hnull⟩ := h
  cases rbLink with
  | root =>
    have h0 := (nodup_cons.mp ht.nodup).1
    rw [mem_append, not_or] at h0
    have hptr : ptr t = 0 := ht.ctx.symm.trans hnull
    cases eq_nil_of_ptr hptr h0.1
    exact ⟨[], rfl, rfl, howner.symm⟩
  | child p d =>
    obtain ⟨rfl, hp⟩ := howner
    rw [← hlist] at hp
    obtain ⟨up, c, l, r, rfl⟩ := Ctx.exists_fill hp
    obtain ⟨a, b, hmk⟩ := exists_mk d c l parent r
    rw [hmk] at ht
    have hzip := zip_fill.mpr ht
    obtain ⟨-, hlink, -⟩ := repr_mk.mp hzip.tree
    have ha0 := (nodup_cons.mp hzip.nodup).1
    rw [mem_append, (toList_mk_perm d c a parent b).mem_iff, mem_cons,
      mem_append, not_or, not_or, not_or] at ha0
    cases eq_nil_of_ptr (hlink.symm.trans hnull) ha0.1.2.1
    refine ⟨⟨d, c, parent, b⟩ :: up, ?_, rfl, rfl⟩
    rw [hmk]
    rfl

theorem RbState.CanLink.insert (h : st.CanLink x parent rbLink)
    (ht : RbTree (fun _ _ _ => ()) st.mem t) (hlist : t.toList = st.nodes) :
    ∃ mem' t', Returns (fun fuel => rbInsertColor fuel (rbLinkNode st.mem x parent rbLink) x) mem' ∧
      RbTree (fun _ _ _ => ()) mem' t' ∧ t'.toList = insertAt x rbLink st.nodes := by
  obtain ⟨up, rfl, rfl, rfl⟩ := h.exists_hole ht.stored.zip hlist
  obtain ⟨n, hn⟩ := ht.balanced
  have hzip := zip_fill.mpr ht.stored.zip
  have hx : x ∉ 0 :: up.keys := by
    rw [mem_cons, not_or]
    refine ⟨h.ne_zero, fun hmem => h.fresh ?_⟩
    rw [← hlist, (Ctx.keys_fill up .nil).mem_iff]
    exact mem_append_right _ hmem
  obtain ⟨mem', t', hrun, htree, hlist'⟩ :=
    rbInsert_rbTree dummyCallbacks_lawful hn (hzip.linkNode hx).storedUnit
  refine ⟨mem', t', hrun, htree, ?_⟩
  rw [hlist', toList_linkAt (stored_fill.mpr ht.stored).fill_nodup, hlist]

theorem RbState.Step.rbTree (hstep : RbState.Step st st') (ht : RbTree (fun _ _ _ => ()) st.mem t)
    (hlist : t.toList = st.nodes) :
    ∃ t', RbTree (fun _ _ _ => ()) st'.mem t' ∧ t'.toList = st'.nodes := by
  cases hstep with
  | insert hlink hrun =>
    obtain ⟨mem₁, t', hrun', htree, hlist'⟩ := hlink.insert ht hlist
    cases hrun.unique hrun'
    exact ⟨t', htree, hlist'⟩
  | erase hx hrun =>
    rw [← hlist] at hx
    obtain ⟨mem₁, t', hrun', htree, hlist'⟩ := rbEraseWith_rbTree dummyCallbacks_lawful ht hx
    cases hrun.unique hrun'
    exact ⟨t', htree, hlist ▸ hlist'⟩

theorem RbState.Reachable.rbTree (h : st.Reachable) :
    ∃ t, RbTree (fun _ _ _ => ()) st.mem t ∧ t.toList = st.nodes := by
  induction h with
  | init h =>
    obtain ⟨hroot, hnodes⟩ := h
    refine ⟨.nil, ⟨Zip.storedUnit ⟨trivial, hroot, ?_⟩, 0, .nil⟩, hnodes.symm⟩
    simp [toList, Ctx.keys]
  | step _ hstep ih =>
    obtain ⟨t, ht, hlist⟩ := ih
    exact hstep.rbTree ht hlist

/-- After any run the memory holds a red-black tree, its nodes are in the order of their places of
insertion, and the next insertion or removal ends. -/
theorem rb_reachable (h : st.Reachable) :
    (∃ t, Zip st.mem t [] ∧ t.RedBlack ∧ t.toList = st.nodes) ∧
      (∀ x parent rbLink, st.CanLink x parent rbLink → ∃ mem', Returns
          (fun fuel => rbInsertColor fuel (rbLinkNode st.mem x parent rbLink) x) mem') ∧
      ∀ x ∈ st.nodes, ∃ mem', Returns (fun fuel => rbErase fuel st.mem x) mem' := by
  obtain ⟨t, ht, hlist⟩ := h.rbTree
  obtain ⟨n, hn⟩ := ht.balanced
  refine ⟨⟨t, ht.stored.zip, hn.redBlack, hlist⟩, fun x parent rbLink hlink => ?_, fun x hx => ?_⟩
  · obtain ⟨mem', t', hrun, -⟩ := hlink.insert ht hlist
    exact ⟨mem', hrun⟩
  · rw [← hlist] at hx
    obtain ⟨mem', t', hrun, -⟩ := rbEraseWith_rbTree dummyCallbacks_lawful ht hx
    exact ⟨mem', hrun⟩

/-- Three nodes linked in ascending order, the root erased. -/
theorem rb_reachable_rotate :
    ∃ st : RbState, st.Reachable ∧ st.nodes = [1, 3] ∧
      ∃ t, Zip st.mem t [] ∧ t.RedBlack ∧ t.toList = [1, 3] := by
  have h₀ : RbState.Reachable ⟨⟨fun _ => 0, fun _ _ => 0, 0, fun _ => ()⟩, []⟩ := .init ⟨rfl, rfl⟩
  have h₁ := h₀.step (@RbState.Step.insert _ 1 0 .root _
    ⟨by decide, by decide, rfl, rfl⟩ (.of_end fun _ => rfl))
  have h₂ := h₁.step (@RbState.Step.insert _ 2 1 (.child 1 .right) _
    ⟨by decide, by decide, ⟨rfl, by decide⟩, rfl⟩ (.of_end fun _ => rfl))
  have h₃ := h₂.step (@RbState.Step.insert _ 3 2 (.child 2 .right) _
    ⟨by decide, by decide, ⟨rfl, by decide⟩, rfl⟩ (.of_end fun _ => rfl))
  have h₄ := h₃.step (.erase (x := 2) (by decide) (.of_end fun _ => rfl))
  exact ⟨_, h₄, rfl, (rb_reachable h₄).1⟩

end LinuxKernel.Rbtree
