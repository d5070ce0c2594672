import LinuxKernel.Rbtree.Insert

/-!
# Rebalancing after an erasure

The cases of `__rb_erase_color()` on the tree that is stored in memory, and its loop.
It starts at a subtree whose paths have one black node less than the others.
-/

namespace LinuxKernel.Rbtree

open Lib RbMem ColorTree List

variable {α : Type} {combine : Nat → Option α → Option α → α} {cb : Callbacks α} {mem : RbMem α}
  {up : Ctx Nat} {d : Dir} {c c₁ cr cl cs : Color} {t sl sr a b : ColorTree Nat} {p x y q : Nat}

theorem Stored.eraseCase1 (hcb : cb.Lawful combine)
    (h : Stored combine mem (.mk d.flip c (.mk d.flip c₁ sr x sl) p t) up)
    (hsl : ptr sl ≠ 0) :
    Stored combine (Rbtree.eraseCase1 cb d mem p x)
      (.mk d.flip c sr x (.mk d.flip .red (sl.paint .black) p t)) up := by
  obtain ⟨-, -, -, hx, -⟩ := repr_mk.mp h.zip.tree
  obtain ⟨-, -, htmp, -, -⟩ := repr_mk.mp hx
  rw [Dir.flip_flip] at htmp
  have hmem : Rbtree.eraseCase1 cb d mem p x =
      cb.rotate (rotateLinks d.flip mem p x (ptr sl) .black .red) p x := by
    simp only [Rbtree.eraseCase1, rotateLinks, htmp, Dir.flip_flip, trySetParentColor, if_pos hsl]
  rw [hmem]
  exact h.rotate hcb .black .red

/-- Case 4 is a rotation after the sibling's outer child was painted black. -/
theorem eraseCase4_eq (hne : ptr sl ≠ 0 → ptr sl ≠ ptr sr) (htmp : mem.link d x = ptr sl)
    (hcolor : ptr sl ≠ 0 → mem.rbColor (ptr sl) = sl.color) :
    Rbtree.eraseCase4 cb d mem p x (ptr sr) =
      cb.rotate (rotateLinks d.flip (mem.rbSetParentColor (ptr sr) x .black) p x (ptr sl)
        sl.color .black) p x := by
  simp only [Rbtree.eraseCase4, rotateLinks, htmp, Dir.flip_flip, trySetParentColor, rbSetParent]
  by_cases hsl : ptr sl ≠ 0
  · have hread : rbColor (((mem.setLink d.flip p (ptr sl)).setLink d x
        p).rbSetParentColor (ptr sr) x .black) (ptr sl) = sl.color := by
      rw [← hcolor hsl]
      exact congrArg wordColor (Function.update_of_ne (hne hsl) _ _)
    simp only [if_pos hsl, hread]
    rfl
  · simp only [if_neg hsl]
    rfl

theorem Stored.eraseCase4 (hcb : cb.Lawful combine)
    (h : Stored combine mem (.mk d.flip c (.mk d.flip c₁ sr x sl) p t) up)
    (hsr : ptr sr ≠ 0) :
    Stored combine (Rbtree.eraseCase4 cb d mem p x (ptr sr))
      (.mk d.flip c (sr.paint .black) x (.mk d.flip .black sl p t)) up := by
  have hsib := h.focus
  have hpaint := stored_cons.mp (stored_cons.mp (hsib.focus.paint hsr .black))
  have hrotate := hpaint.rotate hcb sl.color .black
  rw [paint_color] at hrotate
  obtain ⟨-, -, htmp, -, hsl⟩ := repr_mk.mp hsib.zip.tree
  rw [Dir.flip_flip] at htmp
  have hne : ptr sl ≠ 0 → ptr sl ≠ ptr sr := by
    intro hsl0
    exact ((h.zip.rotateNe.outer (ptr sr) (mem_append_left _ (ptr_mem hsr))).2.2.2 hsl0).symm
  rw [eraseCase4_eq hne htmp hsl.rbColor_eq]
  exact hrotate

/-- Cases 3 and 4: case 3 is a rotation up to the parents and colours that case 4 overwrites. -/
theorem Stored.eraseCase3 (hcb : cb.Lawful combine) (h : Stored combine mem
      (.mk d.flip c (.mk d .black (.mk d .red a y b) x sr) p t) up) :
    Stored combine (Rbtree.eraseCase4 cb d (Rbtree.eraseCase3 cb d mem p x y) p y x)
      (.mk d.flip c (.mk d .black (b.paint .black) x sr) y (.mk d.flip .black a p t)) up := by
  have hfocus := h.focus
  have hne := hfocus.zip.rotateNe
  have hlinks := hfocus.zip.rotateLinks_eq .black .red
  have hinner := stored_cons.mp (hfocus.rotate hcb .black .red)
  rw [Frame.fill, ← mk_flip d] at hinner
  have hx := hfocus.root_ne_zero
  have houter := hinner.eraseCase4 hcb (by rwa [ptr_mk])
  rw [ptr_mk, paint_mk] at houter
  obtain ⟨-, -, -, hy, -⟩ := repr_mk.mp hfocus.zip.tree
  obtain ⟨-, hya, htmp, hra, -⟩ := repr_mk.mp hy
  -- The two memories before the callback of case 3.
  let mem₂ := (((mem.setLink d x (ptr b)).setLink d.flip y x).setLink d.flip p
    y).trySetParentColor (ptr b) x .black
  let mem₃ := (rotateBelow d mem x y (ptr b) .black .red).setLink d.flip p y
  have hcase3 : Rbtree.eraseCase3 cb d mem p x y = cb.rotate mem₂ x y := by
    simp only [Rbtree.eraseCase3, htmp, mem₂]
  have hpc : ∀ z, z ≠ x → z ≠ y → mem₂.parentColor z = mem₃.parentColor z := by
    intro z hzx hzy
    have hbelow : mem₃.parentColor z = _ :=
      parentColor_rotateBelow d .black .red (fun hb => (hne.inner hb).2.1) z
    rw [hbelow, if_neg hzx, if_neg hzy]
    simp [mem₂, setLink]
  have hlink : ∀ d' z, mem₂.link d' z = mem₃.link d' z := by
    intro d' z
    simp only [mem₂, mem₃, link_try, link_setLink, link_rotateBelow]
  have haug : mem₂.augmented = mem₃.augmented := by
    simp [mem₂, mem₃, setLink]
  have hroot : mem₂.rootNode = mem₃.rootNode := by
    simp [mem₂, mem₃, setLink]
  have hyx : y ≠ x := hne.upper.1
  have hout : ptr a ≠ 0 → ptr a ≠ y ∧ ptr a ≠ x ∧ (ptr b ≠ 0 → ptr a ≠ ptr b) := by
    intro ha
    obtain ⟨hay, hax, -, hab⟩ := hne.outer _ (mem_append_left _ (ptr_mem ha))
    exact ⟨hay, hax, hab⟩
  have hlink2 : mem₂.link d y = ptr a := by
    simp [mem₂, hyx, hya]
  have hcolor2 : ptr a ≠ 0 → mem₂.rbColor (ptr a) = a.color := by
    intro ha
    rw [← hra.rbColor_eq ha, rbColor, parentColor_try, if_neg (fun hb => (hout ha).2.2 hb.1 hb.2)]
    rfl
  have hcolor3 : ptr a ≠ 0 → mem₃.rbColor (ptr a) = a.color := by
    intro ha
    rw [← hcolor2 ha]
    exact congrArg wordColor (hpc _ (hout ha).2.1 (hout ha).1).symm
  have hxa : ptr a ≠ 0 → ptr a ≠ ptr (.mk d .red b x sr) := by
    rw [ptr_mk]
    exact fun ha => (hout ha).2.1
  refine cast (congrArg (fun m => Stored combine m _ up) ?_) houter
  rw [hcase3, hlinks, hcb.rotate, hcb.rotate]
  have h2 : Rbtree.eraseCase4 cb d (augmentRotate combine mem₂ x y) p y _ = _ :=
    eraseCase4_eq hxa hlink2 hcolor2
  have h3 : Rbtree.eraseCase4 cb d (augmentRotate combine mem₃ x y) p y _ = _ :=
    eraseCase4_eq hxa ((hlink d y).symm.trans hlink2) hcolor3
  rw [ptr_mk] at h2 h3
  refine h3.trans (Eq.trans ?_ h2.symm)
  refine congrArg (fun m => cb.rotate m p y) (Eq.symm ?_)
  have hpy := hinner.zip.rotateNe
  refine rotateLinks_congr hpy.upper.1 (fun ha => (hpy.inner ha).2.1) ?_ ?_ hroot ?_
  · intro z hz
    by_cases hzx : z = x
    · simp only [hzx, rbSetParentColor, parentColor_setParentColor, if_true]
    · refine (Function.update_of_ne hzx _ _).trans ?_
      exact (hpc z hzx hz).trans (Function.update_of_ne hzx _ _).symm
  · exact fun d' z _ => hlink d' z
  · exact augmentRotate_congr haug (fun d' => hlink d' x)

section Pass

/-- The memory after a pass: a red-black tree again, or the subtree at `p` has one black node less
than the others. -/
inductive ErasePass (combine : Nat → Option α → Option α → α) (mem : RbMem α) (p : Nat)
    (c : Color) (up : Ctx Nat) (k : Nat) (keys : List Nat) :
    Option (Nat × Nat) → Prop where
  | done {t : ColorTree Nat} {c' : Color} {m : Nat} (h : Stored combine mem t up)
      (hhole : up.Hole c' m)
      (ht : t.Balanced c' m)
      (hkeys : t.toList = keys) :
      ErasePass combine mem p c up k keys none
  | next {t : ColorTree Nat} (hc : c = .black) (h : Stored combine mem t up)
      (hhole : up.Hole .black (k + 2))
      (ht : t.Balanced .black (k + 1))
      (hp : ptr t = p)
      (hup : up ≠ [])
      (hkeys : t.toList = keys) :
      ErasePass combine mem p c up k keys (some (p, top up))

theorem Repr.black_iff (h : Repr mem q t) (h0 : 0 ∉ t.toList) :
    (ptr t = 0 ∨ mem.rbColor (ptr t) = .black) ↔ t.color = .black := by
  have hred := h.red_iff h0
  constructor
  · rintro (hnil | hblack)
    · cases hc : t.color with
      | red => exact absurd hnil (hred.mpr hc).1
      | black => rfl
    · cases hc : t.color with
      | red => exact absurd (hblack.symm.trans (hred.mpr hc).2) nofun
      | black => rfl
  · intro hblack
    by_cases hnil : ptr t = 0
    · exact .inl hnil
    · exact .inr ((h.rbColor_eq hnil).trans hblack)

variable {k : Nat} {s : ColorTree Nat}

section Black

variable (h : Stored combine mem (.mk d.flip c (.mk d.flip .black sr x sl) p t) up)
  (ht : t.Balanced .black k) (hup : up.Hole c (k + 1 + colorBit c))

include h ht hup

theorem Stored.eraseCase2 (hsr : sr.Balanced .black k) (hsl : sl.Balanced .black k) :
    let mem' := mem.rbSetParentColor x p .red
    let pass := if mem'.rbColor p = .red then (mem'.rbSetBlack p, none)
      else if mem'.rbParent p ≠ 0 then (mem', some (p, mem'.rbParent p))
      else (mem', none)
    ErasePass combine pass.1 p c up k
      (ColorTree.mk d.flip c (.mk d.flip .black sr x sl) p t).toList pass.2 := by
  intro mem' pass
  have hpaint := stored_cons.mp (h.focus.paint_root .red)
  have hpc : mem'.parentColor p = pack (top up) c := (repr_mk.mp hpaint.zip.tree).1
  have hcolor : mem'.rbColor p = c := (congrArg wordColor hpc).trans (wordColor_pack _ _)
  have hparent : mem'.rbParent p = top up := (congrArg wordParent hpc).trans wordParent_pack
  have hsib : (ColorTree.mk d.flip .red sr x sl).Balanced .red k := .mk_red hsr hsl
  have hkeys : ∀ c', (ColorTree.mk d.flip c' (.mk d.flip .red sr x sl) p t).toList =
      (ColorTree.mk d.flip c (.mk d.flip .black sr x sl) p t).toList :=
    fun c' => toList_mk_congr _ p (toList_mk_congr _ x rfl rfl) rfl
  cases c with
  | red =>
    have hblack := hpaint.paint_root .black
    have hset : mem'.rbSetBlack p = mem'.rbSetParentColor p (top up) .black := by
      rw [rbSetBlack, hpc, pack_or_one, rbSetParentColor]
    simp only [pass, hcolor, if_true, hset]
    exact .done hblack hup.to_black (.mk_black hsib ht) (hkeys .black)
  | black =>
    simp only [pass, hcolor, hparent]
    rw [if_neg (by decide)]
    by_cases htop : top up = 0
    · cases up with
      | nil =>
        rw [if_neg (fun h => h rfl)]
        exact .done hpaint .root (.mk_black hsib ht) (hkeys .black)
      | cons f up =>
        exact absurd htop (h.ne_zero (by simp [top, Ctx.keys]))
    · rw [if_pos htop]
      refine .next rfl hpaint hup (.mk_black hsib ht) (ptr_mk ..) ?_ (hkeys .black)
      rintro rfl
      exact htop rfl

theorem Stored.eraseBody (hcb : cb.Lawful combine) (hsr : sr.Balanced cr k)
    (hsl : sl.Balanced cl k) :
    ErasePass combine (Rbtree.eraseBody cb d mem p x).1 p c up k
      (ColorTree.mk d.flip c (.mk d.flip .black sr x sl) p t).toList
      (Rbtree.eraseBody cb d mem p x).2 := by
  obtain ⟨-, -, -, hx, -⟩ := repr_mk.mp h.zip.tree
  obtain ⟨-, htmp1, htmp2, hrsr, hrsl⟩ := repr_mk.mp hx
  rw [Dir.flip_flip] at htmp2
  have h0 := nodup_rotate.mp h.zip.nodup
  simp only [nodup_cons, mem_cons, mem_append, not_or] at h0
  obtain ⟨⟨-, -, hsr0, hsl0, -, -⟩, -⟩ := h0
  have htest1 := hrsr.black_iff hsr0
  have htest2 := hrsl.black_iff hsl0
  rw [hsr.color_eq] at htest1
  rw [hsl.color_eq] at htest2
  -- Either way the subtree gets the colour of `p` and its black height.
  have hbal : ∀ {a b : ColorTree Nat} {y : Nat},
      a.Balanced .black (k + 1) → b.Balanced .black (k + 1) →
        (ColorTree.mk d.flip c a y b).Balanced c (k + 1 + colorBit c) := by
    intro a b y ha hb
    cases c with
    | red => exact .mk_red ha hb
    | black => exact .mk_black ha hb
  unfold Rbtree.eraseBody
  simp only [htmp1, htmp2]
  cases cr with
  | red =>
    rw [if_neg (fun h => absurd (htest1.mp h) nofun)]
    have hsr1 := ptr_ne_of_red hsr.color_eq hsr0
    refine .done (h.eraseCase4 hcb hsr1) hup ?_ ?_
    · exact hbal hsr.paint_black (.mk_black hsl ht)
    · refine (toList_rotate d.flip c .black ..).trans ?_
      refine toList_mk_congr _ p (toList_mk_congr _ x ?_ rfl) rfl
      exact toList_paint .black sr
  | black =>
    rw [if_pos (htest1.mpr rfl)]
    cases cl with
    | black =>
      rw [if_pos (htest2.mpr rfl)]
      exact h.eraseCase2 ht hup hsr hsl
    | red =>
      rw [if_neg (fun h => absurd (htest2.mp h) nofun)]
      obtain ⟨a, y, b, rfl⟩ := hsl.exists_mk_red d
      obtain ⟨-, ha, hb⟩ := hsl.of_mk_red
      rw [mk_flip d .black] at h ⊢
      have hstored := h.eraseCase3 hcb
      rw [hb.paint_eq] at hstored
      rw [ptr_mk]
      refine .done hstored hup (hbal (.mk_black hb hsr) (.mk_black ha ht)) ?_
      have hkeys := toList_rotate_twice d.flip c .black .red c .black .black b a sr t y x p
      rwa [Dir.flip_flip] at hkeys

end Black

theorem Stored.eraseStep (hcb : cb.Lawful combine) (h : Stored combine mem (.mk d c t p s) up)
    (hs : s.Balanced cs (k + 1)) (hcs : c = .red → cs = .black) (ht : t.Balanced .black k)
    (hup : up.Hole c (k + 1 + colorBit c)) :
    ErasePass combine (Rbtree.eraseStep cb mem (ptr t) p).1 p c up k
      (ColorTree.mk d c t p s).toList (Rbtree.eraseStep cb mem (ptr t) p).2 := by
  have hs0 : ptr s ≠ 0 := by
    have hsib := h
    rw [← mk_flip] at hsib
    refine hsib.focus.ne_zero (mem_append_left _ ?_)
    cases hs with
    | red _ _ => simp [ptr, toList]
    | black _ _ => simp [ptr, toList]
  -- what `__rb_erase_color()` finds below the parent
  obtain ⟨-, hpt, hps, -, hrs⟩ := repr_mk.mp h.zip.tree
  have hd := side_eq hpt hps (h.siblings_ne hs0)
  have hcolor := hrs.rbColor_eq hs0
  rw [hs.color_eq] at hcolor
  unfold Rbtree.eraseStep
  simp only [hd, hps, hcolor]
  rw [← mk_flip] at h ⊢
  cases cs with
  | black =>
    rw [if_neg (by decide)]
    obtain ⟨sr, x, sl, rfl⟩ := hs.exists_mk_black d.flip
    obtain ⟨m, cr, cl, hm, -, hsr, hsl⟩ := hs.of_mk_black
    cases hm
    rw [ptr_mk]
    exact h.eraseBody ht hup hcb hsr hsl
  | red =>
    cases c with
    | red => exact absurd (hcs rfl) (by decide)
    | black =>
    rw [if_pos rfl]
    obtain ⟨sr, x, sl, rfl⟩ := hs.exists_mk_red d.flip
    obtain ⟨-, hsr, hsl⟩ := hs.of_mk_red
    obtain ⟨-, -, -, hx, -⟩ := repr_mk.mp h.zip.tree
    obtain ⟨-, -, htmp, -, -⟩ := repr_mk.mp hx
    rw [Dir.flip_flip] at htmp
    rw [ptr_mk, htmp]
    obtain ⟨a, y, b, rfl⟩ := hsl.exists_mk_black d.flip
    obtain ⟨m, ca, cb', hm, -, ha, hb⟩ := hsl.of_mk_black
    cases hm
    have hy : y ≠ 0 := by
      have hsib := h.focus
      rw [mk_flip] at hsib
      exact hsib.focus.root_ne_zero
    have hrotate := h.eraseCase1 hcb (by rwa [ptr_mk])
    rw [paint_mk, mk_flip d .black] at hrotate
    have hpass := hrotate.focus.eraseBody ht (.black hsr hup) hcb ha hb
    rw [ptr_mk]
    generalize Rbtree.eraseBody cb d _ p y = pass at hpass ⊢
    obtain ⟨mem', next⟩ := pass
    cases hpass with
    | done h' hhole' ht' hkeys =>
      obtain ⟨c', m, hhole, hfill⟩ := hhole'.above ht'
      refine .done (stored_cons.mp h') hhole hfill ?_
      have hlist : (ColorTree.mk d .black _ x sr).toList = (ColorTree.mk d .black _ x sr).toList :=
        toList_mk_congr d x hkeys rfl
      refine hlist.trans ?_
      rw [← mk_flip d]
      exact toList_rotate ..
    | next hc _ _ _ _ _ _ => cases hc

end Pass

theorem rbEraseColorLoop_rbTree (hcb : cb.Lawful combine) {k : Nat} (h : Stored combine mem t up)
    (hup : up ≠ []) (ht : t.Balanced .black k) (hhole : up.Hole .black (k + 1)) :
    ∃ mem' t', Returns (fun fuel => rbEraseColorLoop cb fuel mem (ptr t) (top up)) mem' ∧
      RbTree combine mem' t' ∧ t'.toList = (up.fill t).toList := by
  induction up generalizing mem t k with
  | nil => exact absurd rfl hup
  | cons f up ih =>
    obtain ⟨d, c, p, s⟩ := f
    have hpass : ErasePass combine (eraseStep cb mem (ptr t) p).1 p c up k
        (mk d c t p s).toList (eraseStep cb mem (ptr t) p).2 := by
      have hfill := stored_cons.mp h
      cases hhole with
      | red hs hup => exact hfill.eraseStep hcb hs (fun _ => rfl) ht hup
      | black hs hup => exact hfill.eraseStep hcb hs (by rintro ⟨⟩) ht hup
    have hrun := rbEraseColorLoop.eq_2 cb mem (ptr t) p
    generalize eraseStep cb mem (ptr t) p = pass at hpass hrun
    obtain ⟨mem', next⟩ := pass
    cases hpass with
    | done h' hhole' ht' hkeys =>
      exact ⟨mem', _, .of_end hrun, h'.rbTree hhole' ht', Ctx.toList_fill_congr hkeys up⟩
    | @next t' _ h' hhole' ht' hp hup' hkeys =>
      obtain ⟨mem'', t'', hloop, htree, hlist⟩ := ih h' hup' ht' hhole'
      rw [hp] at hloop
      refine ⟨mem'', t'', hloop.of_pass hrun, htree, ?_⟩
      exact hlist.trans (Ctx.toList_fill_congr hkeys up)

end LinuxKernel.Rbtree
