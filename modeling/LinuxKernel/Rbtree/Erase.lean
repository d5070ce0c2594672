import LinuxKernel.Rbtree.EraseColor

/-!
# Unlinking a node

`__rb_erase_augmented()` on the tree that is stored in memory: a node with at most one
child is replaced by it, a node with two children by its successor.
-/

namespace LinuxKernel.Rbtree

open Lib List RbMem ColorTree Ctx

variable {α : Type} {mem : RbMem α} {up : Ctx Nat} {c : Color} {e : Dir}
  {l r s : ColorTree Nat} {x y : Nat}

theorem try_writeTop (q tmp p : Nat) (c : Color) : (writeTop mem up q).trySetParentColor tmp p c =
      writeTop (mem.trySetParentColor tmp p c) up q := by
  unfold trySetParentColor
  cases up <;> split <;> rfl

variable {q : Nat} {mem' pre : RbMem α} {t : ColorTree Nat} {child2 parent z : Nat} {path : Ctx Nat}
  {cs : Color}

theorem Repr.of_paint (h : Repr mem q (s.paint s.color)) : Repr mem q s := by
  rwa [paint_color] at h

theorem Zip.replaceByChild (h : Zip mem (.mk e c s x .nil) up) (c' : Color) :
    Zip ((mem.rbChangeChild x (ptr s) (top up)).trySetParentColor (ptr s) (top up) c')
      (s.paint c') up := by
  obtain ⟨-, -, -, hs, -⟩ := repr_mk.mp h.tree
  have hctx := h.ctx
  rw [ptr_mk] at hctx
  have hnodup := h.nodup
  rw [nodup_mk, toList, nil_append] at hnodup
  simp only [nodup_cons, nodup_append_iff, mem_cons, mem_append, not_or] at hnodup
  have hsame : ∀ z, (ptr s ≠ 0 → z ≠ ptr s) →
      Same mem (mem.trySetParentColor (ptr s) (top up) c') z := by
    intro z hz
    refine ⟨?_, fun d => by rw [link_try]⟩
    rw [parentColor_try, if_neg (fun h => hz h.1 h.2)]
  have hout : ∀ z, z ≠ top up → Same (mem.trySetParentColor (ptr s) (top up) c')
        (writeTop (mem.trySetParentColor (ptr s) (top up) c') up (ptr s)) z :=
    fun z hz => same_writeTop _ hz
  rw [rbChangeChild_eq hctx (by grind), try_writeTop]
  refine ⟨hs.move ?_ ?_ ?_, ?_, ?_⟩
  · intro z hz hzs
    exact (hsame z (fun _ => hzs)).trans (hout z (by grind))
  · intro hs0
    have hst : ptr s ≠ top up := by grind
    constructor
    · rw [(hout _ hst).1, parentColor_try, if_pos ⟨hs0, rfl⟩]
    · intro d
      rw [(hout _ hst).2, link_try]
  · grind
  · rw [ptr_paint]
    refine hctx.writeTop (by grind) (rootNode_try ..) (fun z hz => hsame z ?_)
    grind
  · rw [toList_paint]
    grind

/-- The writes that put the node `y` to the place of `x`. -/
def replaceNode (mem : RbMem α) (x y : Nat) (l r : ColorTree Nat) (up : Ctx Nat) : RbMem α :=
  let mem' := (mem.setLink .left y (ptr l)).setLink .right y (ptr r)
  let mem' := (mem'.trySetParentColor (ptr l) y l.color).trySetParentColor (ptr r) y r.color
  writeTop (mem'.setParentColor y (mem.parentColor x)) up y

theorem Zip.replaceNode (h : Zip mem (.node c l x r) up)
    (hy : y ∉ 0 :: ((node c l x r).toList ++ up.keys)) :
    Zip (Rbtree.replaceNode mem x y l r up) (.node c l y r) up := by
  obtain ⟨hpc, -, -, hl, hr⟩ := h.tree
  have hnodup := h.nodup
  simp only [toList, nodup_cons, nodup_append_iff, mem_cons, mem_append, not_or] at hnodup hy
  let mem₁ := ((((mem.setLink .left y (ptr l)).setLink .right y
    (ptr r)).trySetParentColor (ptr l) y l.color).trySetParentColor
    (ptr r) y r.color).setParentColor y (mem.parentColor x)
  have hpc1 : ∀ z, mem₁.parentColor z = if z = y then mem.parentColor x
      else if ptr r ≠ 0 ∧ z = ptr r then pack y r.color
      else if ptr l ≠ 0 ∧ z = ptr l then pack y l.color else mem.parentColor z := by
    intro z
    simp only [mem₁, parentColor_setParentColor, parentColor_try]
    rfl
  have hlink1 : ∀ d z, z ≠ y → mem₁.link d z = mem.link d z := by
    intro d z hz
    simp [mem₁, setParentColor, hz]
  have hroot : mem₁.rootNode = mem.rootNode := by
    simp [mem₁, setParentColor, setLink]
  have hout : ∀ z, z ≠ top up → Same mem₁ (Rbtree.replaceNode mem x y l r up) z :=
    fun z hz => same_writeTop _ hz
  have hsame : ∀ z, z ≠ y → (ptr l ≠ 0 → z ≠ ptr l) → (ptr r ≠ 0 → z ≠ ptr r) →
      Same mem mem₁ z := by
    intro z hzy hzl hzr
    refine ⟨?_, fun d => hlink1 d z hzy⟩
    rw [hpc1, if_neg hzy, if_neg (fun h => hzr h.1 h.2), if_neg (fun h => hzl h.1 h.2)]
  have hyt : y ≠ top up := by grind
  refine ⟨⟨?_, ?_, ?_, ?_, ?_⟩, ?_, ?_⟩
  · rw [(hout y hyt).1, hpc1, if_pos rfl, hpc]
  · rw [(hout y hyt).2]
    simp [mem₁, setParentColor]
  · rw [(hout y hyt).2]
    simp [mem₁, setParentColor]
  · refine .of_paint (hl.move ?_ ?_ (by grind))
    · intro z hz hzl
      refine (hsame z ?_ (fun _ => hzl) ?_).trans (hout z ?_) <;> grind
    intro hl0
    have hlt : ptr l ≠ top up := by grind
    have hly : ptr l ≠ y := by grind
    have hlr : ¬ (ptr r ≠ 0 ∧ ptr l = ptr r) := by grind
    constructor
    · rw [(hout _ hlt).1, hpc1, if_neg hly, if_neg hlr, if_pos ⟨hl0, rfl⟩]
    · intro d
      rw [(hout _ hlt).2, hlink1 d _ hly]
  · refine .of_paint (hr.move ?_ ?_ (by grind))
    · intro z hz hzr
      refine (hsame z ?_ ?_ (fun _ => hzr)).trans (hout z ?_) <;> grind
    intro hr0
    have hrt : ptr r ≠ top up := by grind
    have hry : ptr r ≠ y := by grind
    constructor
    · rw [(hout _ hrt).1, hpc1, if_neg hry, if_pos ⟨hr0, rfl⟩]
    · intro d
      rw [(hout _ hrt).2, hlink1 d _ hry]
  · refine h.ctx.writeTop (by grind) hroot (fun z hz => hsame z ?_ ?_ ?_) <;> grind
  · simp only [toList, nodup_cons, nodup_append_iff, mem_cons, mem_append, not_or]
    grind

theorem Same.writeTop (h : Same mem mem' z) (up : Ctx Nat) (q : Nat) :
    Same (Rbtree.writeTop mem up q) (Rbtree.writeTop mem' up q) z := by
  cases up with
  | nil => exact h
  | cons f up =>
    refine ⟨h.1, fun d => ?_⟩
    simp only [Rbtree.writeTop, link_setLink, h.2]

theorem Zip.congr (h : Zip mem t up) (hroot : mem'.rootNode = mem.rootNode)
    (hsame : ∀ z ∈ t.toList ++ up.keys, Same mem mem' z) : Zip mem' t up :=
  ⟨h.tree.congr (fun z hz => hsame z (mem_append_left _ hz)),
    h.ctx.congr hroot (fun z hz => hsame z (mem_append_right _ hz)), h.nodup⟩

/-- The end of the splice: the writes to the nodes, and last the link to the successor at its new
place. -/
theorem eraseSplice_eq (hctx : ReprCtx mem up x) (hnodup : (0 :: x :: up.keys).Nodup)
    (hxc : mem.parentColor x = pack (top up) c) (hxl : mem.link .left x = ptr l)
    (hlc : mem.rbColor (ptr l) = l.color) (hl : ptr l ∉ x :: y :: up.keys) (hy : y ∉ x :: up.keys) :
    eraseSplice mem x y parent child2 =
      (writeTop ((((mem.setLink .left y (ptr l)).rbSetParentColor (ptr l) y
          l.color).setParentColor y (mem.parentColor x)).trySetParentColor child2 parent
            .black) up y,
        if child2 ≠ 0 then 0 else if mem.rbColor y = .black then parent else 0) := by
  simp only [mem_cons, not_or] at hl hy
  let mem₁ := (mem.setLink .left y (ptr l)).rbSetParentColor (ptr l) y l.color
  have hpc : ∀ z, z ≠ ptr l → mem₁.parentColor z = mem.parentColor z :=
    fun z hz => Function.update_of_ne hz _ _
  have hsame : ∀ z ∈ up.keys, Same mem mem₁ z := by
    intro z hz
    have hzl : z ≠ ptr l := fun h => hl.2.2 (h ▸ hz)
    have hzy : z ≠ y := fun h => hy.2 (h ▸ hz)
    refine ⟨hpc z hzl, fun d => ?_⟩
    simp [mem₁, rbSetParentColor, setParentColor, hzy]
  have hx : mem₁.parentColor x = mem.parentColor x := hpc x (.symm hl.1)
  have hcolor : wordColor (mem₁.parentColor y) = mem.rbColor y := by
    rw [hpc y (Ne.symm hl.2.1)]
    rfl
  have hchange : mem₁.rbChangeChild x y (top up) = writeTop mem₁ up y :=
    rbChangeChild_eq (hctx.congr (show mem₁.rootNode = _ from rfl) hsame) hnodup y
  have hparent : wordParent (mem₁.parentColor x) = top up := by
    rw [hx, hxc, wordParent_pack]
  unfold eraseSplice
  simp only [hxl, rbSetParent]
  rw [show (mem.setLink .left y (ptr l)).rbColor (ptr l) = l.color from hlc]
  show (if child2 ≠ 0 then
      (((mem₁.rbChangeChild x y (wordParent (mem₁.parentColor x))).setParentColor y
        (mem₁.parentColor x)).rbSetParentColor child2 parent .black, 0)
    else
      ((mem₁.rbChangeChild x y (wordParent (mem₁.parentColor x))).setParentColor y
          (mem₁.parentColor x),
        if wordColor ((mem₁.rbChangeChild x y
          (wordParent (mem₁.parentColor x))).parentColor y) = .black then parent
        else 0)) = _
  rw [hparent, hchange, hx, parentColor_writeTop, hcolor]
  by_cases hc : child2 ≠ 0
  · simp only [if_pos hc, trySetParentColor]
    cases up <;> rfl
  · simp only [if_neg hc, trySetParentColor]
    cases up <;> rfl

/-- The splice puts `y` in place of `x`, if memory differs from one with the right tree only in
what is written. -/
theorem Zip.splice (h : Zip mem (.node c l x r) up)
    (hy : y ∉ 0 :: ((node c l x r).toList ++ up.keys)) (hl : ptr l ≠ 0)
    (hroot : pre.rootNode = mem.rootNode)
    (hchild : child2 ≠ 0 → child2 ≠ x ∧ child2 ≠ y ∧ child2 ≠ ptr l ∧ child2 ∉ up.keys)
    (hpc : ∀ z, z ≠ y →
      (if child2 ≠ 0 ∧ z = child2 then pack parent .black else pre.parentColor z) =
        if ptr r ≠ 0 ∧ z = ptr r then pack y r.color else mem.parentColor z)
    (hlink : ∀ d z, z ≠ x → z ≠ y → pre.link d z = mem.link d z)
    (hleft : pre.link .left x = ptr l) (hright : pre.link .right y = ptr r) :
    Zip (eraseSplice pre x y parent child2).1 (.node c l y r) up ∧
      (eraseSplice pre x y parent child2).2 =
        if child2 ≠ 0 then 0 else if pre.rbColor y = .black then parent else 0 := by
  have hzip := h.replaceNode hy
  obtain ⟨hxc, -, -, hrl, -⟩ := h.tree
  have hnodup := h.nodup
  simp only [toList, nodup_cons, nodup_append_iff, mem_cons, mem_append, not_or] at hnodup hy
  -- Where nothing is written for the subtree `r`, the memories agree.
  have hsame : ∀ z, z ≠ y → (child2 ≠ 0 → z ≠ child2) → (ptr r ≠ 0 → z ≠ ptr r) →
      pre.parentColor z = mem.parentColor z := by
    intro z hzy hzc hzr
    have hz := hpc z hzy
    rwa [if_neg (fun h => hzc h.1 h.2), if_neg (fun h => hzr h.1 h.2)] at hz
  have hpx : pre.parentColor x = mem.parentColor x := hsame x (by grind) (by grind) (by grind)
  have hpl : pre.parentColor (ptr l) = mem.parentColor (ptr l) :=
    hsame _ (by grind) (by grind) (by grind)
  have hctx : ReprCtx pre up x := by
    refine h.ctx.congr hroot (fun z hz => ⟨hsame z ?_ ?_ ?_, fun d => hlink d z ?_ ?_⟩) <;> grind
  have heq : eraseSplice pre x y parent child2 = _ :=
    eraseSplice_eq hctx (by grind) (hpx.trans hxc) hleft
      ((congrArg wordColor hpl).trans (hrl.rbColor_eq hl)) (by grind) (by grind)
  rw [heq]
  refine ⟨hzip.congr ?_ (fun z hz => ?_), rfl⟩
  · cases up with
    | nil => rfl
    | cons f up => simp [writeTop, Rbtree.replaceNode, setLink,
        setParentColor, rbSetParentColor, hroot]
  simp only [toList, mem_append, mem_cons] at hz
  have hzx : z ≠ x := by grind
  refine Same.writeTop ⟨?_, fun d => ?_⟩ up y
  · simp only [parentColor_try, parentColor_setParentColor, rbSetParentColor, hpx]
    by_cases hzy : z = y
    · rw [if_pos hzy, if_neg (by grind), if_pos hzy]
    rw [if_neg hzy, if_neg hzy]
    by_cases hzl : z = ptr l
    · rw [if_pos hzl, if_neg (by grind), if_neg (by grind), if_pos ⟨hl, hzl⟩]
    · have hnl : ¬ (ptr l ≠ 0 ∧ z = ptr l) := fun h => hzl h.2
      rw [if_neg hzl, if_neg hnl]
      exact hpc z hzy
  by_cases hzy : z = y
  · subst hzy
    cases d with
    | left => simp [setParentColor, rbSetParentColor]
    | right => simp [setParentColor, rbSetParentColor, hright]
  · simp [setParentColor, rbSetParentColor, hzy, hlink d z hzx hzy]

theorem zip_append : Zip mem t (path ++ up) ↔ Zip mem (path.fill t) up := by
  induction path generalizing t with
  | nil => rfl
  | cons f path ih => rw [cons_append, zip_cons, ih, Ctx.fill]

theorem color_paint (h : ptr s ≠ 0) : (s.paint c).color = c := by
  cases s with
  | nil => exact absurd rfl h
  | node c' l x r => rfl

theorem root_fill (h : path ≠ []) :
    ∃ x c, x ∈ path.map Frame.key ∧ ∀ t, ptr (path.fill t) = x ∧ (path.fill t).color = c := by
  induction path with
  | nil => exact absurd rfl h
  | cons f path ih =>
    by_cases hpath : path = []
    · subst hpath
      refine ⟨f.key, f.color, mem_cons_self, fun t => ?_⟩
      exact ⟨ptr_mk .., color_mk ..⟩
    · obtain ⟨x, c, hx, hroot⟩ := ih hpath
      exact ⟨x, c, mem_cons_of_mem _ hx, fun t => hroot (f.fill t)⟩

theorem Zip.spliceChild (h : Zip mem (.node c l x (.node cs .nil y s)) up) (hl : ptr l ≠ 0)
    (values : Nat → α) :
    Zip (eraseSplice { mem with augmented := values } x y y (ptr s)).1
        (.node c l y (s.paint .black)) up ∧
      (eraseSplice { mem with augmented := values } x y y (ptr s)).2 =
        if ptr s ≠ 0 then 0 else if cs = .black then y else 0 := by
  have hfocus : Zip mem (.mk .right cs s y .nil) (⟨.right, c, x, l⟩ :: up) :=
    zip_cons.mpr h
  have hchild := hfocus.replaceByChild .black
  obtain ⟨hypc, -, hyr, -, -⟩ := hfocus.tree
  obtain ⟨-, -, hxl, -, -⟩ := hfocus.ctx
  have hctx := hfocus.ctx
  rw [ptr_mk] at hctx
  have hnodup := hfocus.nodup
  rw [nodup_mk] at hnodup
  simp only [toList, Ctx.keys, nodup_cons, nodup_append_iff, mem_cons,
    mem_append, not_or, nil_append, cons_append] at hnodup
  rw [rbChangeChild_eq hctx (by
    simp only [Ctx.keys, nodup_cons, nodup_append_iff, mem_cons, mem_append, not_or, cons_append]
    grind), try_writeTop] at hchild
  have hmem := zip_cons.mp hchild
  have hcolor : mem.rbColor y = cs := (congrArg wordColor hypc).trans (wordColor_pack _ _)
  rw [← hcolor]
  refine Zip.splice hmem ?_ hl ?_ ?_ ?_ ?_ hxl ?_
  · simp only [toList, toList_paint, mem_cons, mem_append, not_or]
    grind
  · simp [writeTop, setLink]
  · grind
  · intro z hzy
    rw [ptr_paint]
    by_cases hzs : ptr s ≠ 0 ∧ z = ptr s
    · rw [if_pos hzs, if_pos hzs, color_paint hzs.1]
    · rw [if_neg hzs, if_neg hzs, parentColor_writeTop, parentColor_try, if_neg hzs]
  · intro d z hzx hzy
    simp [writeTop, hzx]
  · rw [ptr_paint]
    exact hyr

theorem Zip.splicePath {f : Frame Nat}
    (h : Zip mem (.node c l x (Ctx.fill (f :: path) (.node cs .nil y s))) up) (hf : f.dir = .left)
    (hl : ptr l ≠ 0) (values : Nat → α) (hq : q = ptr (Ctx.fill (f :: path) (.node cs .nil y s))) :
    let pre := ((mem.setLink .left f.key (ptr s)).setLink .right y q).rbSetParent q y
    Zip (eraseSplice { pre with augmented := values } x y f.key (ptr s)).1
        (.node c l y (Ctx.fill (f :: path) (s.paint .black))) up ∧
      (eraseSplice { pre with augmented := values } x y f.key (ptr s)).2 =
        if ptr s ≠ 0 then 0 else if cs = .black then f.key else 0 := by
  intro pre
  have hfocus : Zip mem (.mk .right cs s y .nil) ((f :: path) ++ ⟨.right, c, x, l⟩ :: up) :=
    zip_append.mpr (zip_cons.mpr h)
  have hchild := hfocus.replaceByChild .black
  obtain ⟨-, hxl, -, -, hr⟩ := h.tree
  have hctx := hfocus.ctx
  rw [ptr_mk] at hctx
  -- The right child stays the root of its subtree and keeps its colour.
  obtain ⟨q', cq, hqmap, hroot⟩ := root_fill (cons_ne_nil f path)
  have hqmem := mem_keys_of_map hqmap
  obtain ⟨hqptr, hqcolor⟩ := hroot (.node cs .nil y s)
  obtain ⟨hrptr, hrcolor⟩ := hroot (s.paint .black)
  cases hq.trans hqptr
  have hnodup := hfocus.nodup
  rw [nodup_mk, toList, nil_append] at hnodup
  have hnodupy := hnodup.sublist (((sublist_append_right s.toList _).cons_cons y).cons_cons 0)
  rw [rbChangeChild_eq hctx hnodupy, try_writeTop] at hchild
  have hmem := zip_cons.mp (zip_append.mp hchild)
  have hmemr : ∀ z, z ∈ (Ctx.fill (f :: path) (s.paint .black)).toList ↔
      z ∈ s.toList ∨ z ∈ Ctx.keys (f :: path) := by
    intro z
    rw [(keys_fill _ _).mem_iff, mem_append, toList_paint]
  have hfmem : f.key ∈ Ctx.keys (f :: path) := by simp [Ctx.keys]
  rw [Ctx.keys_append] at hnodup
  generalize hks : Ctx.keys (f :: path) = ks at hnodup hqmem hfmem hmemr
  simp only [Ctx.keys, nodup_cons, nodup_append_iff, mem_cons,
    mem_append, not_or, cons_append] at hnodup
  have hq0 : q ≠ 0 := by grind
  have hqc : mem.rbColor q = cq := by
    have hread := hr.rbColor_eq (by rwa [hqptr])
    rwa [hqptr, hqcolor] at hread
  have hqs : ptr s ≠ 0 → ptr s ≠ q := by grind
  have hcolor : pre.rbColor y = cs := by
    have hyq : y ≠ q := by grind
    refine Eq.trans ?_ (wordColor_pack (top ((f :: path) ++ ⟨.right, c, x, l⟩ :: up)) cs)
    refine congrArg wordColor (Eq.trans ?_ hfocus.tree.1)
    exact Function.update_of_ne hyq _ _
  rw [← hcolor]
  refine Zip.splice hmem ?_ hl ?_ ?_ ?_ ?_ ?_ ?_
  · simp only [toList, mem_cons, mem_append, hmemr, not_or]
    grind
  · simp [pre, writeTop, setLink, rbSetParent, setParentColor]
  · grind
  · intro z hzy
    have hpre : pre.parentColor z = if z = q then pack y cq else mem.parentColor z := by
      rw [← hqc]
      exact parentColor_setParentColor ..
    rw [hrptr, hrcolor, parentColor_writeTop, parentColor_try]
    simp only [hpre]
    by_cases hzq : z = q
    · have hns : ¬ (ptr s ≠ 0 ∧ z = ptr s) := fun h => hqs h.1 (h.2.symm.trans hzq)
      rw [if_neg hns, if_pos hzq, if_pos ⟨hq0, hzq⟩]
    · have hnq : ¬ (q ≠ 0 ∧ z = q) := fun h => hzq h.2
      rw [if_neg hzq, if_neg hnq]
      rfl
  · intro d z hzx hzy
    simp [pre, writeTop, rbSetParent, setParentColor, hzy, hf]
  · have hxf : x ≠ f.key := by grind
    simp [pre, rbSetParent, setParentColor, hxf, hxl]
  · rw [hrptr]
    simp [pre, rbSetParent, setParentColor]

end LinuxKernel.Rbtree
