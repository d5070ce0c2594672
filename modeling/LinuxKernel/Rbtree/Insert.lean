import LinuxKernel.Lib.Returns
import LinuxKernel.Rbtree.Augment

/-!
# Rebalancing after an insertion

The cases of `__rb_insert()` on the tree that is stored in memory, and its loop: the
tree that it ends with is a red-black tree with the same nodes in the same order.
-/

namespace LinuxKernel.Rbtree

open Lib List ColorTree RbMem Rbtree

variable {α : Type} {combine : Nat → Option α → Option α → α} {mem : RbMem α} {t : ColorTree Nat}
  {up : Ctx Nat}

section Paint

variable {mem' : RbMem α}

theorem Aug.of_eq (h : Aug combine mem t up) (haug : mem'.augmented = mem.augmented) :
    Aug combine mem' t up :=
  ⟨h.tree.congr (fun z _ => congrFun haug z), h.ctx.congr (fun z _ => congrFun haug z)⟩

theorem Stored.paint (h : Stored combine mem t up) (ht : ptr t ≠ 0) (c : Color) :
    Stored combine (mem.rbSetParentColor (ptr t) (top up) c) (t.paint c) up := by
  have hnodup := h.zip.nodup
  simp only [nodup_cons, nodup_append_iff, mem_append, not_or] at hnodup
  have hmem : ptr t ∈ t.toList := ptr_mem ht
  have hsame : ∀ z, z ≠ ptr t → Same mem (mem.rbSetParentColor (ptr t) (top up) c) z := by
    intro z hz
    exact ⟨Function.update_of_ne hz _ _, fun _ => rfl⟩
  refine ⟨⟨?_, ?_, ?_⟩, ?_⟩
  · refine h.zip.tree.move (fun z _ hz => hsame z hz) (fun _ => ⟨?_, fun _ => rfl⟩) ?_
    · exact Function.update_self ..
    · exact nodup_cons.mpr ⟨hnodup.1.1, hnodup.2.1⟩
  · rw [ptr_paint]
    refine h.zip.ctx.congr rfl (fun z hz => hsame z ?_)
    rintro rfl
    exact hnodup.2.2.2 _ hmem hz
  · rw [toList_paint]
    exact h.zip.nodup
  · have haug : Aug combine (mem.rbSetParentColor (ptr t) (top up) c) t up := h.aug.of_eq rfl
    refine ⟨augTree_paint.mpr haug.tree, ?_⟩
    rw [treeValue_paint]
    exact haug.ctx

theorem Stored.ne_zero (h : Stored combine mem t up) {z : Nat} (hz : z ∈ t.toList ++ up.keys) :
    z ≠ 0 := by
  rintro rfl
  exact (nodup_cons.mp h.zip.nodup).1 hz

variable {d : Dir} {c : Color} {a b : ColorTree Nat} {x : Nat}

variable (h : Stored combine mem (.mk d c a x b) up)

include h

theorem Stored.root_ne_zero : x ≠ 0 := by
  refine h.ne_zero (mem_append_left _ ?_)
  cases d <;> simp [ColorTree.mk, toList]

theorem Stored.paint_root (c' : Color) :
    Stored combine (mem.rbSetParentColor x (top up) c') (.mk d c' a x b) up := by
  have hx := h.root_ne_zero
  have hpaint := h.paint (by rwa [ptr_mk]) c'
  rwa [ptr_mk, paint_mk] at hpaint

theorem Stored.siblings_ne (hb : ptr b ≠ 0) : ptr b ≠ ptr a := by
  intro heq
  have hnodup := h.zip.nodup
  rw [nodup_mk] at hnodup
  simp only [nodup_cons, nodup_append_iff, mem_cons, mem_append, not_or] at hnodup
  exact (hnodup.2.2.2.2 _ (ptr_mem (heq ▸ hb))).1 (heq ▸ ptr_mem hb)

end Paint

variable {cb : Callbacks α} {s : ColorTree Nat}

section Cases

variable {d : Dir} {p g n old new : Nat}

variable {u : ColorTree Nat}

theorem Stored.insertCase1 {e : Dir}
    (h : Stored combine mem (.mk d .black (.mk e .red t p s) g u) up)
    (hu : ptr u ≠ 0) :
    Stored combine (insertCase1 mem p g (ptr u))
      (.mk d .red (.mk e .black t p s) g (u.paint .black)) up := by
  -- First the uncle, then the parent, then the grandparent.
  rw [← mk_flip] at h
  have h1 := stored_cons.mp (h.focus.paint hu .black)
  rw [Frame.fill, mk_flip] at h1
  have h2 := stored_cons.mp (h1.focus.paint_root .black)
  rw [Frame.fill] at h2
  have h3 := h2.paint_root .red
  have hparent := congrArg wordParent (repr_mk.mp h2.zip.tree).1
  rw [wordParent_pack] at hparent
  show Stored combine (.rbSetParentColor _ g (rbParent _ g) .red) _ up
  rw [rbParent]
  rw [← hparent] at h3
  exact h3

theorem Stored.insertCase3 (hcb : cb.Lawful combine)
    (h : Stored combine mem (.mk d .black (.mk d .red t p s) g u) up) :
    Stored combine (insertCase3 cb d mem p g (ptr s))
      (.mk d .black t p (.mk d .red (s.paint .black) g u)) up :=
  h.rotate hcb .black .red

theorem augmentRotate_congr {mem' : RbMem α} (haug : mem'.augmented = mem.augmented)
    (hlink : ∀ d', mem'.link d' old = mem.link d' old) :
    (augmentRotate combine mem' old new).augmented =
      (augmentRotate combine mem old new).augmented := by
  have hset : (mem'.setAugmented new (mem'.augmented old)).augmented =
      (mem.setAugmented new (mem.augmented old)).augmented := by
    simp only [setAugmented, haug]
  have hchild : ∀ x, childValue (mem'.setAugmented new (mem'.augmented old)) x =
      childValue (mem.setAugmented new (mem.augmented old)) x := by
    intro x
    rw [childValue, hset, ← childValue]
  have hcompute : rbCompute combine (mem'.setAugmented new (mem'.augmented old)) old =
      rbCompute combine (mem.setAugmented new (mem.augmented old)) old := by
    rw [rbCompute, hchild, hchild]
    simp only [setAugmented, hlink]
    rfl
  simp only [augmentRotate, hcompute]
  exact congrArg (fun f => Function.update f old _) hset

/-- Case 2 is a rotation up to the grandparent's link and the node's parent, which case 3
overwrites. -/
theorem Stored.insertCase2 {a b : ColorTree Nat} (hcb : cb.Lawful combine)
    (h : Stored combine mem (.mk d .black (.mk d.flip .red (.mk d.flip .red b n a) p s) g u) up) :
    Stored combine (Rbtree.insertCase3 cb d (Rbtree.insertCase2 cb d mem n p) n g (ptr b))
      (.mk d .black (.mk d.flip .red (a.paint .black) p s) n
        (.mk d .red (b.paint .black) g u)) up := by
  have hfocus := h.focus
  have hinner := stored_cons.mp (hfocus.rotate hcb .black .red)
  have hne := hfocus.zip.rotateNe
  have hlinks := hfocus.zip.rotateLinks_eq .black .red
  rw [Frame.fill, mk_flip] at hinner
  have houter := hinner.rotate hcb .black .red
  have hng := hinner.zip.rotateNe
  have htmp : mem.link d n = ptr a := by
    obtain ⟨-, -, -, hn, -⟩ := repr_mk.mp hfocus.zip.tree
    obtain ⟨-, -, hna, -, -⟩ := repr_mk.mp hn
    rwa [Dir.flip_flip] at hna
  -- The two memories before the callback of case 2.
  let mem₂ := (((mem.setLink d.flip p (ptr a)).setLink d n p).trySetParentColor
    (ptr a) p .black).rbSetParentColor p n .red
  let mem₃ := (rotateBelow d.flip mem p n (ptr a) .black .red).setLink d g n
  have hcase2 : Rbtree.insertCase2 cb d mem n p = cb.rotate mem₂ p n := by
    simp only [Rbtree.insertCase2, htmp, mem₂]
  have hpc : ∀ z, z ≠ n → mem₂.parentColor z = mem₃.parentColor z := by
    intro z hz
    have hbelow : mem₃.parentColor z = _ :=
      parentColor_rotateBelow d.flip .black .red (fun hb => (hne.inner hb).2.1) z
    rw [hbelow, if_neg hz]
    simp [mem₂, rbSetParentColor, setLink]
  have hlink : ∀ d' z, ¬ (d' = d ∧ z = g) → mem₂.link d' z = mem₃.link d' z := by
    intro d' z hz
    simp only [mem₃, link_setLink, if_neg hz, link_rotateBelow, Dir.flip_flip]
    simp [mem₂, rbSetParentColor, setParentColor]
  have hp : p ≠ g := hne.upper.2.2
  refine cast (congrArg (fun m => Stored combine m _ up) ?_) houter
  refine congrArg (fun m => cb.rotate m g n) (Eq.symm ?_)
  rw [hcase2, hlinks, hcb.rotate, hcb.rotate]
  refine rotateLinks_congr hng.upper.1 (fun hb => (hng.inner hb).2.1) hpc hlink ?_ ?_
  · simp [mem₂, augmentRotate, setAugmented, rbSetParentColor, setParentColor, setLink, writeTop]
  · refine augmentRotate_congr ?_ (fun d' => hlink d' p (fun h => hp h.2))
    simp [mem₂, rbSetParentColor, setParentColor, setLink, writeTop]

end Cases

section Reads

variable {q : Nat}

theorem Repr.rbColor_eq (h : Repr mem q t) (ht : ptr t ≠ 0) : mem.rbColor (ptr t) = t.color := by
  cases t with
  | nil => exact absurd rfl ht
  | node c l x r => exact (congrArg wordColor h.1).trans (wordColor_pack q c)

theorem ptr_ne_of_red (h : t.color = .red) (h0 : 0 ∉ t.toList) : ptr t ≠ 0 := by
  cases t with
  | nil => cases h
  | node c l x r =>
    rintro rfl
    exact h0 (by simp [toList])

theorem Repr.red_iff (h : Repr mem q t) (h0 : 0 ∉ t.toList) :
    (ptr t ≠ 0 ∧ mem.rbColor (ptr t) = .red) ↔ t.color = .red := by
  constructor
  · rintro ⟨ht, hred⟩
    rwa [h.rbColor_eq ht] at hred
  · intro hred
    have ht := ptr_ne_of_red hred h0
    exact ⟨ht, (h.rbColor_eq ht).trans hred⟩

theorem side_eq {d : Dir} {x q' : Nat} (hlink : mem.link d x = q) (hsib : mem.link d.flip x = q')
    (hne : q' ≠ q) : (if q ≠ mem.link .right x then Dir.left else Dir.right) = d := by
  cases d with
  | left =>
    refine if_pos (fun h => hne ?_)
    rw [← hsib, h]
    rfl
  | right => exact if_neg (fun h => h hlink.symm)

end Reads

section Loop

structure RbTree (combine : Nat → Option α → Option α → α) (mem : RbMem α)
    (t : ColorTree Nat) : Prop where
  stored : Stored combine mem t []
  balanced : ∃ n, t.Balanced .black n

variable {k : Nat}

theorem Stored.rbTree {c : Color} (h : Stored combine mem t up) (hhole : up.Hole c k)
    (ht : t.Balanced c k) : RbTree combine mem (up.fill t) :=
  ⟨stored_fill.mp h, hhole.fill ht⟩

section Grandparent

variable {mem : RbMem α} {up : Ctx Nat} {d e d₀ : Dir} {p g : Nat} {t s u l r : ColorTree Nat}

/-- What the loop of `__rb_insert()` reads around a red parent. -/
theorem Stored.grandparent
    (h : Stored combine mem (.mk d .black (.mk e .red t p s) g u) up) :
    p ≠ 0 ∧ mem.rbColor p = .red ∧ mem.rbRedParent p = g ∧
      (if p ≠ mem.link .right g then Dir.left else Dir.right) = d ∧
      mem.link d.flip g = ptr u ∧
      ((ptr u ≠ 0 ∧ mem.rbColor (ptr u) = .red) ↔ u.color = .red) := by
  obtain ⟨-, hgp, hgu, hp, hu⟩ := repr_mk.mp h.zip.tree
  have hpc := (repr_mk.mp hp).1
  rw [ptr_mk] at hgp
  have hnodup := h.zip.nodup
  rw [nodup_mk] at hnodup
  simp only [nodup_cons, mem_cons, mem_append, not_or] at hnodup
  have hu0 : 0 ∉ u.toList := hnodup.1.2.2.1
  have hp0 : p ≠ 0 := h.focus.root_ne_zero
  refine ⟨hp0, ?_, ?_, side_eq hgp hgu ?_, hgu, hu.red_iff hu0⟩
  · exact (congrArg wordColor hpc).trans (wordColor_pack _ _)
  · exact (congrArg wordParent hpc).trans wordParent_pack
  · exact fun heq => h.siblings_ne (heq ▸ hp0) (heq.trans (ptr_mk ..).symm)

theorem Stored.insertRotate {x k : Nat} (hcb : cb.Lawful combine) (h : Stored combine mem
      (.mk d .black (.mk e .red (.mk d₀ .red l x r) p s) g u) up)
    (hx : (ColorTree.mk d₀ .red l x r).Balanced .red k) (hs : s.Balanced .black k)
    (hu : u.Balanced .black k) :
    ∃ t', Stored combine (insertRotate cb d mem x p g) t' up ∧
      t'.Balanced .black (k + 1) ∧
      t'.toList = (ColorTree.mk d .black (.mk e .red (.mk d₀ .red l x r) p s) g u).toList := by
  obtain ⟨-, -, -, hp, -⟩ := repr_mk.mp h.zip.tree
  obtain ⟨-, hpx, hps, -, -⟩ := repr_mk.mp hp
  rw [ptr_mk] at hpx
  rcases Dir.eq_or_eq_flip d e with rfl | rfl
  · -- The node is the outer child of its parent.
    have hx0 : x ≠ 0 := h.focus.focus.root_ne_zero
    have hne : x ≠ ptr s := fun heq =>
      h.focus.siblings_ne (heq ▸ hx0) (heq.symm.trans (ptr_mk ..).symm)
    have hstored := h.insertCase3 hcb
    rw [hs.paint_eq] at hstored
    have hmem : Rbtree.insertRotate cb e mem x p g = Rbtree.insertCase3 cb e mem p g (ptr s) := by
      simp only [Rbtree.insertRotate, hps, if_neg hne]
    rw [hmem]
    exact ⟨_, hstored, .mk_black hx (.mk_red hs hu), toList_rotate ..⟩
  obtain ⟨b, a, hab⟩ := mk_eq_mk d₀ d.flip .red l x r
  rw [hab] at h hx hp ⊢
  obtain ⟨-, ha, hb⟩ := hx.of_mk_red
  have hstored := h.insertCase2 hcb
  rw [ha.paint_eq, hb.paint_eq] at hstored
  obtain ⟨-, -, -, hxt, -⟩ := repr_mk.mp hp
  obtain ⟨-, hxb, -, -, -⟩ := repr_mk.mp hxt
  have hfocus := h.focus
  have hxp : x ≠ p := hfocus.zip.rotateNe.upper.1
  have htmp : (Rbtree.insertCase2 cb d mem x p).link d.flip x = ptr b := by
    simp only [Rbtree.insertCase2, hcb.rotate]
    simp [augmentRotate, setAugmented, rbSetParentColor, setParentColor, hxp, hxb]
  have hmem : Rbtree.insertRotate cb d mem x p g =
      Rbtree.insertCase3 cb d (Rbtree.insertCase2 cb d mem x p) x g (ptr b) := by
    simp only [Rbtree.insertRotate, hpx, if_true, htmp]
  rw [hmem]
  exact ⟨_, hstored, .mk_black (.mk_red hb hs) (.mk_red ha hu), toList_rotate_twice ..⟩

end Grandparent

theorem rbInsertLoop_rbTree (hcb : cb.Lawful combine) {d₀ : Dir} {l r : ColorTree Nat} {x : Nat}
    (h : Stored combine mem (mk d₀ .red l x r) up) (hl : l.Balanced .black k)
    (hr : r.Balanced .black k) (hhole : up.Hole .black k) :
    ∃ mem' t, Returns (fun fuel => rbInsertLoop cb fuel mem x (top up)) mem' ∧
      RbTree combine mem' t ∧ t.toList = (up.fill (mk d₀ .red l x r)).toList := by
  induction hlen : up.length using Nat.strongRecOn generalizing up mem d₀ l r x k with
  | ind len ih =>
  have hred : (mk d₀ .red l x r).Balanced .red k := .mk_red hl hr
  cases hhole with
  | root =>
    -- The root becomes black.
    refine ⟨_, .mk d₀ .black l x r, .of_end fun fuel => if_pos rfl, ?_, ?_⟩
    · exact ⟨h.paint_root .black, _, .mk_black hl hr⟩
    · exact toList_mk_congr d₀ x rfl rfl
  | @black d p s up _ c' _ hs hup =>
    refine ⟨mem, _, .of_end fun fuel => ?_, h.rbTree (.black hs hup) hred, rfl⟩
    have hp : p ≠ 0 := h.ne_zero (by simp [Ctx.keys])
    have hcolor : mem.rbColor p = .black :=
      (congrArg wordColor h.zip.ctx.1).trans (wordColor_pack _ _)
    rw [top, rbInsertLoop, if_neg hp, if_pos hcolor]
  | @red e p s up _ hs hup =>
    cases hup with
    | @black d g u up _ c' _ hu hup =>
    have hgrand : Stored combine mem (.mk d .black (.mk e .red (.mk d₀ .red l x r) p s) g u) up :=
      stored_cons.mp (stored_cons.mp h)
    obtain ⟨hp, hpred, hg, hd, htmp, hured⟩ := hgrand.grandparent
    by_cases hcolor : u.color = .red
    · have hnext := hgrand.insertCase1 (hured.mpr hcolor).1
      have hparent := congrArg wordParent (repr_mk.mp hnext.zip.tree).1
      rw [wordParent_pack] at hparent
      have hubal : (u.paint .black).Balanced .black (k + 1) := by
        refine .paint_black ?_
        rwa [hu.color_eq.symm.trans hcolor] at hu
      obtain ⟨mem', t, hrun, ht, hlist⟩ :=
        ih up.length (by simp only [length_cons] at hlen; omega) hnext
          (.mk_black hred hs) hubal hup rfl
      refine ⟨mem', t, hrun.of_pass fun fuel => ?_, ht, ?_⟩
      · rw [top, rbInsertLoop, if_neg hp, hpred, if_neg (by decide)]
        simp only [hg, hd, htmp]
        rw [if_pos (hured.mpr hcolor), rbParent, hparent]
      · rw [hlist]
        refine Ctx.toList_fill_congr ?_ up
        refine toList_mk_congr d g ?_ (toList_paint _ _)
        exact toList_mk_congr e p rfl rfl
    have hublack : u.Balanced .black k := by
      cases c' with
      | red => exact absurd hu.color_eq hcolor
      | black => exact hu
    obtain ⟨t, ht, hbal, hlist⟩ := hgrand.insertRotate hcb hred hs hublack
    refine ⟨_, _, .of_end fun fuel => ?_, ht.rbTree hup hbal, ?_⟩
    · rw [top, rbInsertLoop, if_neg hp, hpred, if_neg (by decide)]
      simp only [hg, hd, htmp]
      exact if_neg (fun hc => hcolor (hured.mp hc))
    · exact Ctx.toList_fill_congr hlist up

end Loop

variable {x : Nat}

/-- The link at the hole of a context. -/
def linkAt : Ctx Nat → RbLink
  | [] => .root
  | f :: _ => .child f.key f.dir

theorem augmented_rbLinkNode (x parent : Nat) (rbLink : RbLink) :
    (rbLinkNode mem x parent rbLink).augmented = mem.augmented := by
  cases rbLink <;> rfl

theorem Zip.linkNode (h : Zip mem .nil up) (hx : x ∉ 0 :: up.keys) :
    Zip (rbLinkNode mem x (top up) (linkAt up)) (.node .red .nil x .nil) up := by
  have hnodup := h.nodup
  simp only [toList, nil_append, nodup_cons, mem_cons, not_or] at hnodup hx
  have hxt : x ≠ top up := by grind
  let mem₁ := ((mem.setParentColor x (4 * top up)).setLink .right x 0).setLink .left x 0
  have hrun : rbLinkNode mem x (top up) (linkAt up) = writeTop mem₁ up x := by
    cases up <;> rfl
  have hsame : ∀ z, z ≠ x → Same mem mem₁ z := by
    intro z hz
    refine ⟨?_, fun d => ?_⟩
    · simp [mem₁, setLink, setParentColor, hz]
    · simp [mem₁, setParentColor, hz]
  obtain ⟨hpc, hlink⟩ : Same mem₁ (writeTop mem₁ up x) x := same_writeTop _ hxt
  rw [hrun]
  refine ⟨⟨?_, ?_, ?_, trivial, trivial⟩, ?_, ?_⟩
  · rw [hpc]
    simp [mem₁, setLink, setParentColor, pack, colorBit]
  · rw [hlink]
    simp [mem₁, ptr]
  · rw [hlink]
    simp [mem₁, ptr]
  · exact h.ctx.writeTop hnodup.2 rfl (fun z hz => hsame z (fun heq => hx.2 (heq ▸ hz)))
  · simp only [toList, nil_append, cons_append, nodup_cons, mem_cons, not_or]
    exact ⟨⟨Ne.symm hx.1, hnodup.1⟩, hx.2, hnodup.2⟩

theorem rbInsert_rbTree (hcb : cb.Lawful combine) {n : Nat}
    (hbal : (up.fill .nil).Balanced .black n) (h : Stored combine mem (.node .red .nil x .nil) up) :
    ∃ mem' t, Returns (fun fuel => rbInsert cb fuel mem x) mem' ∧ RbTree combine mem' t ∧
      t.toList = (up.fill (.node .red .nil x .nil)).toList := by
  obtain ⟨c, k, hhole, hnil⟩ := Ctx.Hole.of_fill hbal
  cases hnil
  have hparent : mem.rbRedParent x = top up := by
    have hpc : mem.parentColor x = pack (top up) .red := h.zip.tree.1
    rw [rbRedParent, hpc]
    exact wordParent_pack
  have hmk : Stored combine mem (.mk .left .red .nil x .nil) up := h
  simp only [rbInsert, hparent]
  exact rbInsertLoop_rbTree hcb hmk .nil .nil hhole

end LinuxKernel.Rbtree
