import Mathlib.Order.Bounds.Basic
import LinuxKernel.Rbtree.Reach

/-!
# Interval trees

`include/linux/interval_tree_generic.h`: augmented red-black trees whose nodes are intervals,
ordered by their start, with the largest end of each subtree in its root.  The endpoints are of any
linearly ordered type; `ITSTART` and `ITLAST` are functions of the node, and `ITSUBTREE` is the
augmented value.
-/

namespace LinuxKernel.Rbtree

open Lib List Function

section Model

variable {α : Type} [LinearOrder α] (itStart itLast : Nat → α)

/-- `max = subtree_last` when there is a child with a larger one. -/
def raiseMax (m : α) : Option α → α
  | none => m
  | some subtreeLast => if m < subtreeLast then subtreeLast else m

/-- `_compute_subtree_last()`, from the values of the children. -/
def computeSubtreeLast (node : Nat) (left right : Option α) : α :=
  raiseMax (raiseMax (itLast node) left) right

def itAugment : Callbacks α :=
  declareCallbacks (computeSubtreeLast itLast)

/-- The loop of `_insert()`: it returns `link` and `rb_parent`. -/
def itDescend (start last : α) : Nat → RbMem α → RbLink → Nat → Option (RbMem α × RbLink × Nat)
  | 0, _, _, _ => none
  | fuel + 1, mem, link, rbParent =>
    let parent := mem.readLink link
    if parent = 0 then
      some (mem, link, rbParent)
    else
      let mem := if mem.augmented parent < last then mem.setAugmented parent last else mem
      if start < itStart parent then
        itDescend start last fuel mem (.child parent .left) parent
      else
        itDescend start last fuel mem (.child parent .right) parent

def itInsert (fuel : Nat) (mem : RbMem α) (node : Nat) : Option (RbMem α) := do
  let (mem, link, rbParent) ← itDescend itStart (itStart node) (itLast node) fuel mem .root 0
  let mem := mem.setAugmented node (itLast node)
  rbInsert (itAugment itLast) fuel (rbLinkNode mem node rbParent link) node

def itRemove (fuel : Nat) (mem : RbMem α) (node : Nat) : Option (RbMem α) :=
  rbEraseWith (itAugment itLast) fuel mem node

section Search

variable (mem : RbMem α) (start last : α)

def subtreeSearch : Nat → Nat → Option Nat
  | 0, _ => none
  | fuel + 1, node =>
    let left := mem.link .left node
    if left ≠ 0 ∧ start ≤ mem.augmented left then
      subtreeSearch fuel left
    else if itStart node ≤ last then
      if start ≤ itLast node then
        some node
      else
        let right := mem.link .right node
        if right ≠ 0 ∧ start ≤ mem.augmented right then
          subtreeSearch fuel right
        else
          some 0
    else
      some 0

def iterFirst (fuel : Nat) : Option Nat :=
  if mem.rootNode = 0 then
    some 0
  else if mem.augmented mem.rootNode < start then
    some 0
  else
    subtreeSearch itStart itLast mem start last fuel mem.rootNode

/-- The `do` loop of `_iter_next()`: up until it comes from a left child. -/
def climb : Nat → Nat → Option Nat
  | 0, _ => none
  | fuel + 1, node =>
    let rb := mem.rbParent node
    if rb = 0 then
      some 0
    else if node = mem.link .right rb then
      climb fuel rb
    else
      some rb

def iterNext : Nat → Nat → Option Nat
  | 0, _ => none
  | fuel + 1, node => do
      let rb := mem.link .right node
      if rb ≠ 0 ∧ start ≤ mem.augmented rb then
        subtreeSearch itStart itLast mem start last fuel rb
      else
        let node ← climb mem fuel node
        if node = 0 then
          return 0
        else if last < itStart node then
          return 0
        else if start ≤ itLast node then
          return node
        else
          iterNext fuel node

/-- The nodes that `_iter_next()` returns, from a node on. -/
def iterFrom : Nat → Nat → Option (List Nat)
  | 0, _ => none
  | fuel + 1, node =>
    if node = 0 then
      some []
    else do
      let next ← iterNext itStart itLast mem start last fuel node
      let found ← iterFrom fuel next
      return node :: found

/-- `_iter_first()` followed by `_iter_next()` up to `NULL`. -/
def iterAll (fuel : Nat) : Option (List Nat) := do
  let node ← iterFirst itStart itLast mem start last fuel
  iterFrom itStart itLast mem start last fuel node

end Search

end Model

variable {α : Type} [LinearOrder α] {itStart itLast : Nat → α}

theorem raiseMax_none (m : α) : raiseMax m none = m :=
  rfl

theorem raiseMax_some (m s : α) : raiseMax m (some s) = max m s :=
  (max_def_lt m s).symm

theorem itAugment_lawful : (itAugment itLast).Lawful (computeSubtreeLast itLast) := by
  refine declareCallbacks_lawful (fun x y u v w => ?_)
  cases u <;> cases v <;> cases w <;>
    simp only [computeSubtreeLast, raiseMax_some, raiseMax_none] <;> ac_rfl

theorem computeSubtreeLast_raise (d : Dir) (p : Nat) (last : α) (u w : Option α) :
    combineAt (computeSubtreeLast itLast) d p (some (raiseMax last u)) w =
      raiseMax last (some (combineAt (computeSubtreeLast itLast) d p u w)) := by
  cases d <;> cases u <;> cases w <;>
    simp only [combineAt, computeSubtreeLast, raiseMax_some, raiseMax_none] <;> ac_rfl

variable {m v : α} {t : ColorTree Nat}

theorem le_raiseMax {o : Option α} : v ≤ raiseMax m o ↔ v ≤ m ∨ ∃ s, o = some s ∧ v ≤ s := by
  cases o with
  | none => simp [raiseMax]
  | some s => simp [raiseMax_some]

theorem le_treeValue :
    (∃ m, treeValue (computeSubtreeLast itLast) t = some m ∧ v ≤ m) ↔
      ∃ y ∈ t.toList, v ≤ itLast y := by
  induction t with
  | nil => simp [treeValue, ColorTree.toList]
  | node c l x r ihl ihr =>
    have hvalue : (∃ m, treeValue (computeSubtreeLast itLast) (.node c l x r) = some m ∧
        v ≤ m) ↔ (v ≤ itLast x ∨
          (∃ m, treeValue (computeSubtreeLast itLast) l = some m ∧ v ≤ m)) ∨
          ∃ m, treeValue (computeSubtreeLast itLast) r = some m ∧ v ≤ m := by
      rw [treeValue, computeSubtreeLast]
      simp only [Option.some.injEq, exists_eq_left', le_raiseMax]
    rw [hvalue, ihl, ihr]
    simp only [ColorTree.toList, mem_append, mem_cons]
    constructor
    · rintro ((hx | ⟨y, hy, hle⟩) | ⟨y, hy, hle⟩)
      · exact ⟨x, .inr (.inl rfl), hx⟩
      · exact ⟨y, .inl hy, hle⟩
      · exact ⟨y, .inr (.inr hy), hle⟩
    · rintro ⟨y, hy | rfl | hy, hle⟩
      · exact .inl (.inr ⟨y, hy, hle⟩)
      · exact .inl (.inl hle)
      · exact .inr ⟨y, hy, hle⟩

theorem isGreatest_treeValue (h : treeValue (computeSubtreeLast itLast) t = some m) :
    IsGreatest {v | ∃ y ∈ t.toList, itLast y = v} m := by
  have hle : ∀ v, v ≤ m ↔ ∃ y ∈ t.toList, v ≤ itLast y := by
    intro v
    rw [← le_treeValue, h]
    simp
  have hub : ∀ y ∈ t.toList, itLast y ≤ m := fun y hy => (hle _).mpr ⟨y, hy, le_rfl⟩
  obtain ⟨y, hy, hmy⟩ := (hle m).mp le_rfl
  constructor
  · exact ⟨y, hy, le_antisymm (hub y hy) hmy⟩
  · rintro v ⟨z, hz, rfl⟩
    exact hub z hz

variable {mem : RbMem α} {start last : α} {a b : ColorTree Nat} {up : Ctx Nat} {d : Dir} {c : Color}
  {p : Nat}

/-- The loop of `_insert()` is at the root of `t`: the nodes above count the new end, and the new
start belongs into `t`. -/
structure Descent (itStart itLast : Nat → α) (start last : α) (mem : RbMem α)
    (t : ColorTree Nat) (up : Ctx Nat) : Prop where
  zip : Zip mem t up
  tree : AugTree (computeSubtreeLast itLast) mem t
  ctx : AugCtx (computeSubtreeLast itLast) mem up
    (some (raiseMax last (treeValue (computeSubtreeLast itLast) t)))
  sorted : (up.fill t).toList.Pairwise (itStart · ≤ itStart ·)
  before : ∀ y ∈ up.before, itStart y ≤ start
  after : ∀ y ∈ up.after, start ≤ itStart y

theorem sorted_side
    (h : (up.fill (.mk d c a p b)).toList.Pairwise (itStart · ≤ itStart ·)) :
    (d = .left → ∀ y ∈ b.toList, itStart p ≤ itStart y) ∧
      (d = .right → ∀ y ∈ b.toList, itStart y ≤ itStart p) := by
  rw [Ctx.toList_fill_eq] at h
  have hmk := (pairwise_append.mp (pairwise_append.mp h).2.1).1
  cases d with
  | left =>
    have hpb := (pairwise_append.mp hmk).2.1
    exact ⟨fun _ => (pairwise_cons.mp hpb).1, nofun⟩
  | right =>
    have hpb := (pairwise_append.mp hmk).2.2
    exact ⟨nofun, fun _ y hy => hpb y hy p mem_cons_self⟩

theorem Descent.step (h : Descent itStart itLast start last mem (.mk d c a p b) up)
    (hleft : d = .left → start ≤ itStart p) (hright : d = .right → itStart p ≤ start) :
    Descent itStart itLast start last
      (mem.setAugmented p (raiseMax last (some (mem.augmented p)))) a
      (⟨d, c, p, b⟩ :: up) := by
  obtain ⟨hzip, htree, hctx, hsorted, hbefore, hafter⟩ := h
  have hnodup := hzip.nodup
  rw [nodup_mk] at hnodup
  simp only [nodup_cons, mem_cons, mem_append, not_or] at hnodup
  obtain ⟨hp, ha, hb⟩ := augTree_mk.mp htree
  rw [treeValue_mk] at hctx
  have hside := sorted_side hsorted
  have hother : ∀ z, z ≠ p → (mem.setAugmented p
      (raiseMax last (some (mem.augmented p)))).augmented z = mem.augmented z :=
    fun z hz => update_of_ne hz _ _
  have hvalue : (mem.setAugmented p (raiseMax last (some (mem.augmented p)))).augmented p =
        raiseMax last (some (mem.augmented p)) := update_self _ _ _
  refine ⟨zip_cons.mpr (hzip.of_augmented _), ha.congr ?_, ⟨?_, hb.congr ?_, ?_⟩, ?_, ?_, ?_⟩
  · intro z hz
    exact hother z (by grind)
  · rw [hvalue, hp, computeSubtreeLast_raise]
  · intro z hz
    exact hother z (by grind)
  · rw [computeSubtreeLast_raise]
    exact hctx.congr (fun z hz => hother z (by grind))
  · exact hsorted
  · cases d with
    | left => exact hbefore
    | right =>
      refine forall_mem_append.mpr ⟨hbefore, forall_mem_append.mpr
        ⟨fun y hy => (hside.2 rfl y hy).trans (hright rfl), ?_⟩⟩
      exact forall_mem_singleton.mpr (hright rfl)
  · cases d with
    | left =>
      refine forall_mem_cons.mpr ⟨hleft rfl, forall_mem_append.mpr ⟨?_, hafter⟩⟩
      exact fun y hy => (hleft rfl).trans (hside.1 rfl y hy)
    | right => exact hafter

theorem setAugmented_raise (mem : RbMem α) (p : Nat) (last : α) :
    (if mem.augmented p < last then mem.setAugmented p last else mem) =
      mem.setAugmented p (raiseMax last (some (mem.augmented p))) := by
  rw [raiseMax_some]
  split
  · next h => rw [max_eq_left h.le]
  · next h =>
      rw [max_eq_right (not_lt.mp h)]
      exact congrArg (fun values => { mem with augmented := values })
        (update_eq_self p mem.augmented).symm

theorem itDescend_succ {rbLink : RbLink} (hread : mem.readLink rbLink = p) (hp : p ≠ 0)
    (fuel parent : Nat) :
    itDescend itStart start last (fuel + 1) mem rbLink parent = itDescend itStart start last fuel
        (mem.setAugmented p (raiseMax last (some (mem.augmented p))))
        (.child p (if start < itStart p then .left else .right)) p := by
  subst hread
  rw [itDescend, ← setAugmented_raise]
  refine (if_neg hp).trans ?_
  by_cases h : start < itStart (mem.readLink rbLink)
  · exact (if_pos h).trans (by rw [if_pos h])
  · exact (if_neg h).trans (by rw [if_neg h])

/-- The loop of `_insert()` ends at a `NULL` link. -/
theorem itDescend_descent (h : Descent itStart itLast start last mem t up) :
    ∃ mem' up', Returns
        (fun fuel => itDescend itStart start last fuel mem (linkAt up) (top up))
        (mem', linkAt up', top up') ∧
      Descent itStart itLast start last mem' .nil up' ∧ up'.fill .nil = up.fill t := by
  have hread : ∀ {mem : RbMem α} {t : ColorTree Nat} {up : Ctx Nat}, Zip mem t up →
      mem.readLink (linkAt up) = ptr t := by
    intro mem t up hzip
    cases up with
    | nil => exact hzip.ctx
    | cons f up => exact hzip.ctx.2.1
  induction t generalizing mem up with
  | nil =>
    exact ⟨mem, up, .of_end fun fuel => if_pos (hread h.zip), h, rfl⟩
  | node c l p r ihl ihr =>
    have hp0 : p ≠ 0 := by
      rintro rfl
      exact (nodup_cons.mp h.zip.nodup).1 (by simp [ColorTree.toList])
    rcases lt_or_ge start (itStart p) with hlt | hge
    · have hstep := Descent.step (d := .left) h (fun _ => hlt.le) (by rintro ⟨⟩)
      obtain ⟨mem', up', hrun, hend, hfill⟩ := ihl hstep
      refine ⟨mem', up', hrun.of_pass fun fuel => ?_, hend, hfill⟩
      rw [itDescend_succ (hread h.zip) hp0, ptr, if_pos hlt]
      rfl
    · have hstep := Descent.step (d := .right) h (by rintro ⟨⟩) (fun _ => hge)
      obtain ⟨mem', up', hrun, hend, hfill⟩ := ihr hstep
      refine ⟨mem', up', hrun.of_pass fun fuel => ?_, hend, hfill⟩
      rw [itDescend_succ (hread h.zip) hp0, ptr, if_neg (not_lt.mpr hge)]
      rfl

variable {x : Nat}

theorem Descent.link (h : Descent itStart itLast (itStart x) (itLast x) mem .nil up)
    (hx : x ∉ 0 :: up.keys) :
    Stored (computeSubtreeLast itLast)
      (rbLinkNode (mem.setAugmented x (itLast x)) x (top up) (linkAt up))
      (.node .red .nil x .nil) up := by
  refine ⟨(h.zip.of_augmented _).linkNode hx, ⟨?_, trivial, trivial⟩, ?_⟩
  · rw [augmented_rbLinkNode]
    exact update_self _ _ _
  · refine h.ctx.congr (fun z hz => ?_)
    rw [augmented_rbLinkNode]
    refine update_of_ne (fun heq => hx ?_) _ _
    exact mem_cons_of_mem _ (heq ▸ hz)

theorem Descent.sorted_link (h : Descent itStart itLast (itStart x) (itLast x) mem .nil up) :
    (up.fill (.node .red .nil x .nil)).toList.Pairwise (itStart · ≤ itStart ·) := by
  have hsorted := h.sorted
  rw [Ctx.toList_fill_eq, ColorTree.toList, nil_append, pairwise_append] at hsorted
  obtain ⟨hbefore, hafter, hcross⟩ := hsorted
  rw [Ctx.toList_fill_eq, pairwise_append]
  exact ⟨hbefore, pairwise_cons.mpr ⟨h.after, hafter⟩,
    fun y hy => forall_mem_cons.mpr ⟨h.before y hy, hcross y hy⟩⟩

theorem itInsert_rbTree (h : RbTree (computeSubtreeLast itLast) mem t)
    (hsorted : t.toList.Pairwise (itStart · ≤ itStart ·)) (hx0 : x ≠ 0)
    (hx : x ∉ t.toList) :
    ∃ mem' t', Returns (fun fuel => itInsert itStart itLast fuel mem x) mem' ∧
      RbTree (computeSubtreeLast itLast) mem' t' ∧
      t'.toList.Pairwise (itStart · ≤ itStart ·) ∧
      t'.toList.Perm (x :: t.toList) := by
  have hstart : Descent itStart itLast (itStart x) (itLast x) mem t [] :=
    ⟨h.stored.zip, h.stored.aug.tree, trivial, hsorted, nofun, nofun⟩
  obtain ⟨mem₁, up, hrun1, hend, hfill⟩ := itDescend_descent hstart
  rw [Ctx.fill] at hfill
  have hkeys : up.keys.Perm t.toList := by
    rw [← hfill]
    exact (Ctx.keys_fill up .nil).symm
  have hfresh : x ∉ 0 :: up.keys := by
    rw [mem_cons, not_or, hkeys.mem_iff]
    exact ⟨hx0, hx⟩
  obtain ⟨n, hn⟩ := h.balanced
  rw [← hfill] at hn
  obtain ⟨mem', t', hrun, htree, hlist⟩ := rbInsert_rbTree itAugment_lawful hn (hend.link hfresh)
  refine ⟨mem', t', hrun1.bind hrun, htree, hlist ▸ hend.sorted_link, ?_⟩
  rw [hlist]
  exact (Ctx.keys_fill up _).trans (hkeys.cons x)

end LinuxKernel.Rbtree
