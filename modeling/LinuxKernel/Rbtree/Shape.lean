import LinuxKernel.Rbtree.Nodes
import Mathlib.Data.List.Sort

/-!
# Trees and contexts that are stored in memory

What the links, parents and colours of a tree and of its context look like in
memory, and how the writes of a rotation change them.
-/

namespace LinuxKernel.Rbtree

open Lib List ColorTree RbMem Ctx

variable {p : Nat} {c : Color}

@[simp] theorem wordParent_pack : wordParent (pack p c) = p := by
  cases c <;> simp only [wordParent, pack, colorBit] <;> omega

@[simp] theorem wordColor_pack (p : Nat) (c : Color) : wordColor (pack p c) = c := by
  cases c with
  | red => exact if_neg (by simp only [pack, colorBit]; omega)
  | black => exact if_pos (by simp only [pack, colorBit]; omega)

theorem pack_or_one : pack p c ||| 1 = pack p .black := by
  have hor : 4 * p + 1 = 4 * p ||| 1 := Nat.two_pow_add_eq_or_of_lt (i := 2) (by decide) p
  cases c with
  | red => exact hor.symm
  | black =>
    show (4 * p + 1) ||| 1 = 4 * p + 1
    rw [hor, Nat.or_assoc, Nat.or_self]

/-- The address of the root. -/
def ptr : ColorTree Nat → Nat
  | .nil => 0
  | .node _ _ x _ => x

/-- The lowest node of a context. -/
def top : Ctx Nat → Nat
  | [] => 0
  | f :: _ => f.key

@[simp] theorem ptr_mk (d : Dir) (c : Color) (a : ColorTree Nat) (x : Nat) (b : ColorTree Nat) :
    ptr (mk d c a x b) = x := by
  cases d <;> rfl

@[simp] theorem ptr_paint (t : ColorTree Nat) : ptr (t.paint c) = ptr t := by
  cases t <;> rfl

@[grind →] theorem ptr_mem {t : ColorTree Nat} (h : ptr t ≠ 0) : ptr t ∈ t.toList := by
  cases t with
  | nil => exact absurd rfl h
  | node c l x r => exact mem_append_right _ mem_cons_self

variable {α : Type}

@[simp] theorem RbMem.link_setLink (mem : RbMem α) (d e : Dir) (x y v : Nat) :
    (mem.setLink d y v).link e x = if e = d ∧ x = y then v else mem.link e x := by
  unfold setLink
  by_cases he : e = d
  · subst he
    by_cases hx : x = y <;> simp [hx]
  · simp [he]

@[simp] theorem RbMem.parentColor_setParentColor (mem : RbMem α) (x y w : Nat) :
    (mem.setParentColor y w).parentColor x = if x = y then w else mem.parentColor x := by
  unfold setParentColor
  by_cases hx : x = y <;> simp [hx]

/-- The tree is stored below the node `p`. -/
def Repr (mem : RbMem α) : Nat → ColorTree Nat → Prop
  | _, .nil => True
  | p, .node c l x r =>
    mem.parentColor x = pack p c ∧
      mem.link .left x = ptr l ∧ mem.link .right x = ptr r ∧ Repr mem x l ∧ Repr mem x r

/-- The context is stored, with the node `q` at its hole. -/
def ReprCtx (mem : RbMem α) : Ctx Nat → Nat → Prop
  | [], q => mem.rootNode = q
  | f :: up, q =>
    mem.parentColor f.key = pack (top up) f.color ∧
      mem.link f.dir f.key = q ∧ mem.link f.dir.flip f.key = ptr f.sib ∧
        Repr mem f.key f.sib ∧ ReprCtx mem up f.key

variable {mem : RbMem α} {x : Nat}

theorem repr_mk {p : Nat} {d : Dir} {c : Color} {a : ColorTree Nat} {b : ColorTree Nat} :
    Repr mem p (mk d c a x b) ↔
      mem.parentColor x = pack p c ∧
        mem.link d x = ptr a ∧ mem.link d.flip x = ptr b ∧ Repr mem x a ∧ Repr mem x b := by
  cases d with
  | left => exact Iff.rfl
  | right =>
    constructor
    all_goals
      rintro ⟨hpc, hl, hr, ha, hb⟩
      exact ⟨hpc, hr, hl, hb, ha⟩

/-- The links, the parent and the colour of a node stay. -/
def Same (mem mem' : RbMem α) (x : Nat) : Prop :=
  mem'.parentColor x = mem.parentColor x ∧ ∀ d, mem'.link d x = mem.link d x

theorem Same.trans {mem' mem'' : RbMem α} (h : Same mem mem' x) (h' : Same mem' mem'' x) :
    Same mem mem'' x :=
  ⟨h'.1.trans h.1, fun d => (h'.2 d).trans (h.2 d)⟩

variable {mem mem' : RbMem α} {t : ColorTree Nat} {up : Ctx Nat}

section Congr

variable {p q p' : Nat}

theorem Repr.congr (h : Repr mem p t) (hsame : ∀ x ∈ t.toList, Same mem mem' x) :
    Repr mem' p t := by
  induction t generalizing p with
  | nil => trivial
  | node c l x r ihl ihr =>
    obtain ⟨hpc, hl, hr, htl, htr⟩ := h
    obtain ⟨hpc', hlink'⟩ := hsame x (by simp [toList])
    refine ⟨hpc'.trans hpc, (hlink' _).trans hl, (hlink' _).trans hr, ?_, ?_⟩
    · exact ihl htl (fun y hy => hsame y (by simp [toList, hy]))
    · exact ihr htr (fun y hy => hsame y (by simp [toList, hy]))

theorem ReprCtx.congr (h : ReprCtx mem up q) (hroot : mem'.rootNode = mem.rootNode)
    (hsame : ∀ x ∈ up.keys, Same mem mem' x) : ReprCtx mem' up q := by
  induction up generalizing q with
  | nil => exact hroot.trans h
  | cons f up ih =>
    obtain ⟨hpc, hlink, hsib, hts, hup⟩ := h
    obtain ⟨hpc', hlink'⟩ := hsame f.key (by simp [Ctx.keys])
    refine ⟨hpc'.trans hpc, (hlink' _).trans hlink, (hlink' _).trans hsib, ?_, ?_⟩
    · exact hts.congr (fun y hy => hsame y (by simp [Ctx.keys, hy]))
    · exact ih hup (fun y hy => hsame y (by simp [Ctx.keys, hy]))

theorem Repr.move {c : Color} (h : Repr mem p t)
    (hsame : ∀ x ∈ t.toList, x ≠ ptr t → Same mem mem' x)
    (hroot : ptr t ≠ 0 → mem'.parentColor (ptr t) = pack p' c ∧
      ∀ d, mem'.link d (ptr t) = mem.link d (ptr t)) (hnodup : (0 :: t.toList).Nodup) :
    Repr mem' p' (t.paint c) := by
  cases t with
  | nil => trivial
  | node c' l x r =>
    obtain ⟨-, hl, hr, htl, htr⟩ := h
    simp only [toList, nodup_cons, nodup_append, mem_append, mem_cons, not_or] at hnodup
    obtain ⟨⟨-, hx0, -⟩, -, ⟨hxr, -⟩, hdisj⟩ := hnodup
    obtain ⟨hpc, hlink⟩ := hroot (.symm hx0)
    refine ⟨hpc, (hlink _).trans hl, (hlink _).trans hr, ?_, ?_⟩
    · refine htl.congr (fun y hy => hsame y (by simp [toList, hy]) ?_)
      exact hdisj y hy x (.inl rfl)
    · refine htr.congr (fun y hy => hsame y (by simp [toList, hy]) ?_)
      rintro rfl
      exact hxr hy

end Congr

/-- A tree at its place in the memory. -/
structure Zip (mem : RbMem α) (t : ColorTree Nat) (up : Ctx Nat) : Prop where
  tree : Repr mem (top up) t
  ctx : ReprCtx mem up (ptr t)
  nodup : (0 :: (t.toList ++ up.keys)).Nodup

section Zipper

variable {f : Frame Nat}

theorem nodup_mk {d : Dir} {c : Color} {a b : ColorTree Nat} {ks : List Nat} :
    (0 :: ((mk d c a x b).toList ++ ks)).Nodup ↔
      (0 :: x :: (a.toList ++ (b.toList ++ ks))).Nodup := by
  refine List.Perm.nodup_iff (.cons 0 ?_)
  refine ((toList_mk_perm d c a x b).append_right ks).trans ?_
  rw [cons_append, append_assoc]

theorem nodup_cons_fill :
    (0 :: (t.toList ++ Ctx.keys (f :: up))).Nodup ↔
      (0 :: ((f.fill t).toList ++ up.keys)).Nodup := by
  rw [Frame.fill, nodup_mk]
  refine List.Perm.nodup_iff (List.Perm.cons 0 ?_)
  rw [Ctx.keys]
  exact perm_middle

theorem zip_cons : Zip mem t (f :: up) ↔ Zip mem (f.fill t) up := by
  constructor
  · intro h
    obtain ⟨hpc, hlink, hsib, hts, hup⟩ := h.ctx
    refine ⟨repr_mk.mpr ⟨hpc, hlink, hsib, h.tree, hts⟩, ?_, nodup_cons_fill.mp h.nodup⟩
    rwa [Frame.fill, ptr_mk]
  · intro h
    obtain ⟨hpc, hlink, hsib, ht, hts⟩ := repr_mk.mp h.tree
    have hup := h.ctx
    rw [Frame.fill, ptr_mk] at hup
    exact ⟨ht, ⟨hpc, hlink, hsib, hts, hup⟩, nodup_cons_fill.mpr h.nodup⟩

theorem zip_fill : Zip mem t up ↔ Zip mem (up.fill t) [] := by
  induction up generalizing t with
  | nil => rfl
  | cons f up ih => rw [zip_cons, ih, Ctx.fill]

/-- The link of the lowest node that points to the hole. -/
def writeTop (mem : RbMem α) : Ctx Nat → Nat → RbMem α
  | [], q => { mem with rootNode := q }
  | f :: _, q => mem.setLink f.dir f.key q

theorem rbChangeChild_eq {q : Nat} (h : ReprCtx mem up q) (hnodup : (0 :: q :: up.keys).Nodup)
    (q' : Nat) : mem.rbChangeChild q q' (top up) = writeTop mem up q' := by
  cases up with
  | nil => rfl
  | cons f up =>
    obtain ⟨-, hlink, hsib, -, -⟩ := h
    simp only [Ctx.keys, nodup_cons, mem_cons, mem_append, not_or, cons_append] at hnodup
    obtain ⟨⟨hq0, hf0, -, -⟩, ⟨-, hqs, -⟩, -⟩ := hnodup
    have hne : ptr f.sib ≠ q := by
      intro heq
      by_cases hnil : ptr f.sib = 0
      · exact hq0 (hnil.symm.trans heq)
      · exact hqs (heq ▸ ptr_mem hnil)
    unfold rbChangeChild
    rw [top, if_pos (Ne.symm hf0)]
    obtain ⟨d, c, x, s⟩ := f
    cases d with
    | left => rw [if_pos hlink, writeTop]
    | right =>
      rw [if_neg, writeTop]
      intro heq
      exact hne (hsib.symm.trans heq)

end Zipper

/-- The writes of a rotation before the link to its subtree: `new`, on the side `d` below `old`,
goes above it, and `tmp` to its place. -/
def rotateBelow (d : Dir) (mem : RbMem α) (old new tmp : Nat) (ct c : Color) : RbMem α :=
  let mem := mem.setLink d old tmp
  let mem := mem.setLink d.flip new old
  let mem := mem.trySetParentColor tmp old ct
  (mem.setParentColor new (mem.parentColor old)).rbSetParentColor old new c

def rotateLinks (d : Dir) (mem : RbMem α) (old new tmp : Nat) (ct c : Color) : RbMem α :=
  let mem := mem.setLink d old tmp
  let mem := mem.setLink d.flip new old
  let mem := mem.trySetParentColor tmp old ct
  mem.rbRotateSetParents old new c

section Try

variable (mem : RbMem α) (tmp p : Nat) (c : Color)

@[simp] theorem RbMem.parentColor_try : (mem.trySetParentColor tmp p c).parentColor x =
      if tmp ≠ 0 ∧ x = tmp then pack p c else mem.parentColor x := by
  unfold trySetParentColor rbSetParentColor
  by_cases htmp : tmp = 0
  · simp [htmp]
  · simp [htmp]

@[simp] theorem RbMem.link_try : (mem.trySetParentColor tmp p c).link = mem.link := by
  unfold trySetParentColor
  split <;> rfl

@[simp] theorem RbMem.rootNode_try : (mem.trySetParentColor tmp p c).rootNode = mem.rootNode := by
  unfold trySetParentColor
  split <;> rfl

@[simp] theorem RbMem.augmented_try :
    (mem.trySetParentColor tmp p c).augmented = mem.augmented := by
  unfold trySetParentColor
  split <;> rfl

end Try

theorem nodup_append_iff (l l' : List Nat) :
    (l ++ l').Nodup ↔ l.Nodup ∧ l'.Nodup ∧ ∀ z ∈ l, z ∉ l' :=
  nodup_append'

variable {c ct : Color} {x : Nat} {d : Dir} {y : Nat} {tmp z : Nat}

theorem nodup_rotate {c₁ : Color} {a b e : ColorTree Nat} {ks : List Nat} :
    (0 :: ((mk d c (mk d c₁ a x b) y e).toList ++ ks)).Nodup ↔
      (0 :: y :: x :: (a.toList ++ (b.toList ++ (e.toList ++ ks)))).Nodup := by
  rw [nodup_mk]
  refine List.Perm.nodup_iff (.cons 0 (.cons y ?_))
  refine ((toList_mk_perm d c₁ a x b).append_right _).trans ?_
  rw [cons_append, append_assoc]

/-- The memory below and around a context whose link to the hole is about to be written. -/
theorem ReprCtx.writeTop {q q' : Nat} (h : ReprCtx mem up q) (hnodup : up.keys.Nodup)
    (hroot : mem'.rootNode = mem.rootNode) (hsame : ∀ x ∈ up.keys, Same mem mem' x) :
    ReprCtx (Rbtree.writeTop mem' up q') up q' := by
  cases up with
  | nil => rfl
  | cons f up =>
    obtain ⟨hpc, hlink, hsib, hts, hup⟩ := h
    simp only [Ctx.keys, nodup_cons, nodup_append_iff, cons_append, mem_append, not_or] at hnodup
    obtain ⟨⟨hfs, hfu⟩, -, -, -⟩ := hnodup
    have hsame' : ∀ x ∈ f.sib.toList ++ Ctx.keys up, Same mem (mem'.setLink f.dir f.key q') x := by
      intro x hx
      have hne : x ≠ f.key := by
        rintro rfl
        exact (mem_append.mp hx).elim hfs hfu
      obtain ⟨hpc', hlink'⟩ := hsame x (mem_cons_of_mem _ hx)
      exact ⟨hpc', fun d => by simp [hne, hlink']⟩
    obtain ⟨hpc', hlink'⟩ := hsame f.key (by simp [Ctx.keys])
    refine ⟨hpc'.trans hpc, ?_, ?_, ?_, ?_⟩
    · simp [Rbtree.writeTop]
    · simp [Rbtree.writeTop, hlink', hsib]
    · exact hts.congr (fun x hx => hsame' x (mem_append_left _ hx))
    · exact hup.congr hroot (fun x hx => hsame' x (mem_append_right _ hx))

theorem same_writeTop (q : Nat) (hx : x ≠ top up) : Same mem (writeTop mem up q) x := by
  cases up with
  | nil => exact ⟨rfl, fun _ => rfl⟩
  | cons f up =>
    refine ⟨rfl, fun d => ?_⟩
    simp only [writeTop, link_setLink]
    exact if_neg (fun h => hx h.2)

theorem parentColor_writeTop (q : Nat) : (writeTop mem up q).parentColor = mem.parentColor := by
  cases up <;> rfl

@[grind →] theorem top_mem (h : top up ≠ 0) : top up ∈ up.keys := by
  cases up with
  | nil => exact absurd rfl h
  | cons f up => simp [top, Ctx.keys]

section Below

variable (d : Dir) (ct c : Color)

theorem parentColor_rotateBelow (htmp : tmp ≠ 0 → tmp ≠ y) (z : Nat) :
    (rotateBelow d mem y x tmp ct c).parentColor z =
      if z = y then pack x c else if z = x then mem.parentColor y
        else if tmp ≠ 0 ∧ z = tmp then pack y ct else mem.parentColor z := by
  have hy : ¬ (tmp ≠ 0 ∧ y = tmp) := fun h => htmp h.1 h.2.symm
  simp only [rotateBelow, rbSetParentColor, parentColor_setParentColor, parentColor_try, if_neg hy]
  rfl

theorem link_rotateBelow (x y tmp : Nat) (d' : Dir) (z : Nat) :
    (rotateBelow d mem y x tmp ct c).link d' z =
      if d' = d.flip ∧ z = x then y else if d' = d ∧ z = y then tmp
        else mem.link d' z := by
  simp [rotateBelow, rbSetParentColor, setParentColor]

theorem same_rotateBelow (htmp : tmp ≠ 0 → tmp ≠ y) (hzx : z ≠ x) (hzy : z ≠ y)
    (hzt : tmp ≠ 0 → z ≠ tmp) : Same mem (rotateBelow d mem y x tmp ct c) z := by
  refine ⟨?_, fun d' => ?_⟩
  · rw [parentColor_rotateBelow d ct c htmp, if_neg hzy, if_neg hzx,
      if_neg (fun hz => hzt hz.1 hz.2)]
  · rw [link_rotateBelow, if_neg (fun hz => hzx hz.2), if_neg (fun hz => hzy hz.2)]

@[simp] theorem rootNode_rotateBelow (x y tmp : Nat) :
    (rotateBelow d mem y x tmp ct c).rootNode = mem.rootNode := by
  simp [rotateBelow, rbSetParentColor, setParentColor, setLink]

@[simp] theorem augmented_rotateBelow (x y tmp : Nat) :
    (rotateBelow d mem y x tmp ct c).augmented = mem.augmented := by
  simp [rotateBelow, rbSetParentColor, setParentColor, setLink]

theorem rotateLinks_eq_below (htmp : tmp ≠ 0 → tmp ≠ y) :
    rotateLinks d mem y x tmp ct c = (rotateBelow d mem y x tmp ct c).rbChangeChild y x
        (wordParent (mem.parentColor y)) := by
  have hy : (((mem.setLink d y tmp).setLink d.flip x y).trySetParentColor
      tmp y ct).parentColor y = mem.parentColor y := by
    rw [parentColor_try, if_neg (fun h => htmp h.1 h.2.symm)]
    rfl
  simp only [rotateLinks, rbRotateSetParents, rbParent, hy]
  rw [← hy]
  rfl

end Below

/-- A rotation reads neither the lower node's parent and colour nor the link between the nodes. -/
theorem rotateLinks_congr (hxy : x ≠ y) (htmp : tmp ≠ 0 → tmp ≠ y)
    (hpc : ∀ z, z ≠ x → mem'.parentColor z = mem.parentColor z)
    (hlink : ∀ d' z, ¬ (d' = d ∧ z = y) → mem'.link d' z = mem.link d' z)
    (hroot : mem'.rootNode = mem.rootNode) (haug : mem'.augmented = mem.augmented) :
    rotateLinks d mem' y x tmp ct c = rotateLinks d mem y x tmp ct c := by
  have hbelow : rotateBelow d mem' y x tmp ct c = rotateBelow d mem y x tmp ct c := by
    refine RbMem.ext (funext fun z => ?_) (funext fun d' => funext fun z => ?_) ?_ ?_
    · rw [parentColor_rotateBelow d ct c htmp, parentColor_rotateBelow d ct c htmp, hpc y hxy.symm]
      split
      · rfl
      · split
        · rfl
        · next hzx => rw [hpc z hzx]
    · rw [link_rotateBelow, link_rotateBelow]
      split
      · rfl
      · split
        · rfl
        · next hzy => exact hlink d' z hzy
    · rw [rootNode_rotateBelow, rootNode_rotateBelow, hroot]
    · rw [augmented_rotateBelow, augmented_rotateBelow, haug]
  rw [rotateLinks_eq_below d ct c htmp, rotateLinks_eq_below d ct c htmp, hbelow, hpc y hxy.symm]

section Subtree

variable {d : Dir} {c c₁ : Color} {a b e : ColorTree Nat} {x y : Nat}

/-- The nodes of a subtree that is rotated are different. -/
structure RotateNe (up : Ctx Nat) (a b e : ColorTree Nat) (x y : Nat) : Prop where
  keys : ∀ z ∈ up.keys, z ≠ x ∧ z ≠ y ∧ (ptr b ≠ 0 → z ≠ ptr b)
  upper : x ≠ y ∧ x ≠ top up ∧ y ≠ top up
  inner : ptr b ≠ 0 → ptr b ≠ x ∧ ptr b ≠ y ∧ ptr b ≠ top up
  outer : ∀ z ∈ a.toList ++ e.toList, z ≠ x ∧ z ≠ y ∧ z ≠ top up ∧ (ptr b ≠ 0 → z ≠ ptr b)
  below : ∀ z ∈ b.toList, z ≠ x ∧ z ≠ y ∧ z ≠ top up
  root : (0 :: y :: up.keys).Nodup
  tree : (0 :: b.toList).Nodup

variable (h : Zip mem (.mk d c (.mk d c₁ a x b) y e) up)

include h

theorem Zip.rotateNe : RotateNe up a b e x y := by
  have hfacts := nodup_rotate.mp h.nodup
  simp only [nodup_cons, nodup_append_iff, mem_cons, mem_append, not_or] at hfacts
  constructor <;> grind

theorem Zip.rotateLinks_eq (ct c' : Color) :
    Rbtree.rotateLinks d mem y x (ptr b) ct c' =
      Rbtree.writeTop (rotateBelow d mem y x (ptr b) ct c') up x := by
  have hne := h.rotateNe
  have htmp : ptr b ≠ 0 → ptr b ≠ y := fun hb => (hne.inner hb).2.1
  have hctx := h.ctx
  rw [ptr_mk] at hctx
  have hbelow : ReprCtx (rotateBelow d mem y x (ptr b) ct c') up y := by
    refine hctx.congr (rootNode_rotateBelow ..) (fun z hz => ?_)
    obtain ⟨hzx, hzy, hzb⟩ := hne.keys z hz
    exact same_rotateBelow d ct c' htmp hzx hzy hzb
  rw [rotateLinks_eq_below d ct c' htmp, (repr_mk.mp h.tree).1, wordParent_pack]
  exact rbChangeChild_eq hbelow hne.root x

theorem Zip.rotateLinks (ct c' : Color) : Zip (Rbtree.rotateLinks d mem y x (ptr b) ct c')
      (.mk d c a x (.mk d c' (b.paint ct) y e)) up := by
  rw [h.rotateLinks_eq]
  obtain ⟨hpcy, hly, hry, hx, he⟩ := repr_mk.mp h.tree
  obtain ⟨hpcx, hlx, hrx, ha, hb⟩ := repr_mk.mp hx
  have hne := h.rotateNe
  obtain ⟨hxy, hxt, hyt⟩ := hne.upper
  have htmp : ptr b ≠ 0 → ptr b ≠ y := fun hb => (hne.inner hb).2.1
  have hpc : ∀ z, (rotateBelow d mem y x (ptr b) ct c').parentColor z = _ :=
    parentColor_rotateBelow d ct c' htmp
  have hlink : ∀ d' z, (rotateBelow d mem y x (ptr b) ct c').link d' z = _ :=
    link_rotateBelow d ct c' x y (ptr b)
  have hout : ∀ z, z ≠ top up → Same (rotateBelow d mem y x (ptr b) ct c')
        (Rbtree.writeTop (rotateBelow d mem y x (ptr b) ct c') up x) z :=
    fun z hz => same_writeTop x hz
  have houter : ∀ z ∈ a.toList ++ e.toList,
      Same mem (Rbtree.writeTop (rotateBelow d mem y x (ptr b) ct c') up x) z := by
    intro z hz
    obtain ⟨hzx, hzy, hzt, hzb⟩ := hne.outer z hz
    exact (same_rotateBelow d ct c' htmp hzx hzy hzb).trans (hout z hzt)
  constructor
  · refine repr_mk.mpr ⟨?_, ?_, ?_, ?_, repr_mk.mpr ⟨?_, ?_, ?_, ?_, ?_⟩⟩
    · rw [(hout x hxt).1, hpc, if_neg hxy, if_pos rfl, hpcy]
    · simp [(hout x hxt).2, hlink, hxy, hlx]
    · simp [(hout x hxt).2, hlink]
    · exact ha.congr (fun z hz => houter z (mem_append_left _ hz))
    · rw [(hout y hyt).1, hpc, if_pos rfl]
    · simp [(hout y hyt).2, hlink]
    · simp [(hout y hyt).2, hlink, hxy.symm, hry]
    · refine hb.move ?_ ?_ hne.tree
      · intro z hz hzb
        obtain ⟨hzx, hzy, hzt⟩ := hne.below z hz
        exact (same_rotateBelow d ct c' htmp hzx hzy (fun _ => hzb)).trans (hout z hzt)
      intro hb0
      obtain ⟨hbx, hby, hbt⟩ := hne.inner hb0
      constructor
      · rw [(hout _ hbt).1, hpc, if_neg hby, if_neg hbx, if_pos ⟨hb0, rfl⟩]
      · intro d'
        simp [(hout _ hbt).2, hlink, hbx, hby]
    · exact he.congr (fun z hz => houter z (mem_append_right _ hz))
  · have hctx := h.ctx
    rw [ptr_mk] at hctx ⊢
    have hkeys := (nodup_cons.mp (nodup_cons.mp hne.root).2).2
    refine hctx.writeTop hkeys (rootNode_rotateBelow ..) (fun z hz => ?_)
    obtain ⟨hzx, hzy, hzb⟩ := hne.keys z hz
    exact same_rotateBelow d ct c' htmp hzx hzy hzb
  have hlist : (ColorTree.mk d c a x (.mk d c' (b.paint ct) y e)).toList =
      (ColorTree.mk d c (.mk d c₁ a x b) y e).toList := by
    rw [toList_rotate d c c₁]
    refine toList_mk_congr d y (toList_mk_congr d x rfl ?_) rfl
    exact toList_paint ct b
  rw [hlist]
  exact h.nodup

end Subtree

end LinuxKernel.Rbtree
