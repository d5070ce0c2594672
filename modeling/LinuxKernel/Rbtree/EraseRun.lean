import LinuxKernel.Rbtree.Erase

/-!
# Erasing a node

`__rb_erase_augmented()` and `rb_erase()` as a whole: the tree without the node is a
red-black tree whose other nodes are in the same order.
-/

namespace LinuxKernel.Rbtree

open Lib List Function ColorTree Ctx RbMem

variable {α : Type} {combine : Nat → Option α → Option α → α} {cb : Callbacks α} {mem : RbMem α}
  {up : Ctx Nat} {c : Color} {e d : Dir} {t l r s r' : ColorTree Nat} {x y p : Nat}

section Values

theorem Zip.refresh (hcb : cb.Lawful combine) (h : Zip mem t up) (ht : AugTree combine mem t)
    (hup : AugStale combine mem up) :
    ∃ mem', Returns (fun fuel => cb.propagate fuel mem (top up) 0) mem' ∧
      Stored combine mem' t up := by
  have hnodup := h.nodup
  simp only [nodup_cons, nodup_append_iff, mem_append, not_or] at hnodup
  have hzero : 0 ∉ up.map Frame.key := fun h0 => hnodup.1.2 (mem_keys_of_map h0)
  obtain ⟨values, hrun, hout, hctx⟩ := hcb.propagate h.ctx.path h.nodup hzero ht hup
  rw [topOr_zero] at hrun
  refine ⟨_, ⟨_, hrun⟩, h.of_augmented values, ht.congr (fun z hz => ?_), hctx⟩
  exact hout z (fun hmap => hnodup.2.2.2 z hz (mem_keys_of_map hmap))

variable {path : Ctx Nat}

theorem augTree_fill (ht : AugTree combine mem t)
    (hpath : AugCtx combine mem path (treeValue combine t)) :
    AugTree combine mem (path.fill t) := by
  induction path generalizing t with
  | nil => exact ht
  | cons f path ih =>
    obtain ⟨hf, hs, hpath⟩ := hpath
    refine ih (augTree_mk.mpr ⟨hf, ht, hs⟩) ?_
    rwa [Frame.fill, treeValue_mk]

theorem stored_append :
    Stored combine mem t (path ++ up) ↔ Stored combine mem (path.fill t) up := by
  induction path generalizing t with
  | nil => rfl
  | cons f path ih => rw [cons_append, stored_cons, ih, Ctx.fill]

@[simp] theorem augmented_rbChangeChild (mem : RbMem α) (old new parent : Nat) :
    (mem.rbChangeChild old new parent).augmented = mem.augmented := by
  unfold rbChangeChild
  split
  · split <;> rfl
  · rfl

theorem augmented_eraseSplice (mem : RbMem α) (node successor parent child2 : Nat) :
    (eraseSplice mem node successor parent child2).1.augmented = mem.augmented := by
  unfold eraseSplice
  simp only
  split <;> exact augmented_rbChangeChild ..

end Values

theorem Stored.eraseOneChild (hcb : cb.Lawful combine)
    (h : Stored combine mem (.mk e c s x .nil) up) :
    ∃ mem', Returns
        (fun fuel => cb.propagate fuel (Rbtree.eraseOneChild mem x (ptr s)).1 (top up) 0) mem' ∧
      Stored combine mem' (s.paint c) up ∧
      (Rbtree.eraseOneChild mem x (ptr s)).2 =
        if ptr s ≠ 0 then 0 else if c = .black then top up else 0 := by
  have hpc := (repr_mk.mp h.zip.tree).1
  have heq : Rbtree.eraseOneChild mem x (ptr s) =
      ((mem.rbChangeChild x (ptr s) (top up)).trySetParentColor (ptr s) (top up) c,
        if ptr s ≠ 0 then 0 else if c = .black then top up else 0) := by
    unfold Rbtree.eraseOneChild
    simp only [hpc, wordParent_pack, wordColor_pack, trySetParentColor]
    by_cases hs : ptr s ≠ 0
    · simp only [if_pos hs]
      rfl
    · simp only [if_neg hs]
  rw [heq]
  have haug : ((mem.rbChangeChild x (ptr s) (top up)).trySetParentColor (ptr s) (top up)
      c).augmented = mem.augmented := by
    rw [augmented_try, augmented_rbChangeChild]
  have hs := (augTree_mk.mp h.aug.tree).2.1
  obtain ⟨mem', hrun, hstored⟩ := (h.zip.replaceByChild c).refresh hcb
    (augTree_paint.mpr (hs.congr (fun z _ => congrFun haug z)))
    (h.aug.ctx.congr (fun z _ => congrFun haug z)).stale
  exact ⟨mem', hrun, hstored, rfl⟩

theorem eq_nil_of_ptr (h : ptr t = 0) (h0 : 0 ∉ t.toList) : t = .nil := by
  cases t with
  | nil => rfl
  | node c l x r => exact absurd (by simp [toList, ← h, ptr]) h0

theorem successorLoop_eq (h : Repr mem p t) (h0 : 0 ∉ t.toList) (ht : ptr t ≠ 0) :
    ∃ path cs y s, t = Ctx.fill path (.node cs .nil y s) ∧
      (∀ f ∈ path, f.dir = .left) ∧
      ∀ successor, Returns (fun fuel => successorLoop mem fuel successor (ptr t))
        (topOr successor path, y) := by
  induction t generalizing p with
  | nil => exact absurd rfl ht
  | node c l x r ihl _ =>
    obtain ⟨-, hl, -, hrl, -⟩ := h
    have hl0 : 0 ∉ l.toList := fun h => h0 (by simp [toList, h])
    by_cases hnil : ptr l = 0
    · cases eq_nil_of_ptr hnil hl0
      refine ⟨[], c, x, r, rfl, forall_mem_nil _, fun successor => .of_end fun fuel => ?_⟩
      rw [ptr, successorLoop, hl]
      exact if_neg (fun h => h rfl)
    obtain ⟨path, cs, y, s, heq, hleft, hrun⟩ := ihl hrl hl0 hnil
    refine ⟨path ++ [⟨.left, c, x, r⟩], cs, y, s, ?_, ?_, ?_⟩
    · rw [fill_append, ← heq]
      rfl
    · exact forall_mem_append.mpr ⟨hleft, forall_mem_singleton.mpr rfl⟩
    intro successor
    have htop : topOr successor (path ++ [⟨.left, c, x, r⟩]) = topOr x path := by
      cases path <;> rfl
    rw [htop]
    refine (hrun x).of_pass fun fuel => ?_
    rw [ptr, successorLoop, hl, if_pos hnil]

section Path

variable {path : Ctx Nat} {q : Nat} {mem' : RbMem α} {stop stop' root : Nat}

theorem AugCtx.of_append {v : Option α} (h : AugCtx combine mem (path ++ up) v) :
    AugCtx combine mem path v := by
  induction path generalizing v with
  | nil => trivial
  | cons f path ih =>
    obtain ⟨hf, hs, hup⟩ := h
    exact ⟨hf, hs, ih hup⟩

theorem ReprCtx.pathOf (h : ReprCtx mem (path ++ up) q) : ReprPath mem (top up) path q := by
  induction path generalizing q with
  | nil => trivial
  | cons f path ih =>
    obtain ⟨hpc, hlink, hsib, -, hup⟩ := h
    refine ⟨?_, hlink, hsib, ih hup⟩
    rw [rbParent, hpc, wordParent_pack]
    cases path <;> rfl

theorem ReprPath.congr (h : ReprPath mem stop path q)
    (hsame : ∀ z ∈ path.map Frame.key, Same mem mem' z) : ReprPath mem' stop path q := by
  induction path generalizing q with
  | nil => trivial
  | cons f path ih =>
    obtain ⟨hpar, hq, hsib, hpath⟩ := h
    obtain ⟨hpc, hlink⟩ := hsame f.key mem_cons_self
    refine ⟨?_, (hlink _).trans hq, (hlink _).trans hsib, ?_⟩
    · rw [rbParent, hpc, ← rbParent, hpar]
    · exact ih hpath (fun z hz => hsame z (mem_cons_of_mem _ hz))

theorem ReprPath.restop (h : ReprPath mem stop path q) (hnodup : (path.map Frame.key).Nodup)
    (hroot : path ≠ [] → ptr (path.fill t) = root) (hparent : ∀ z ∈ path.map Frame.key,
      mem'.rbParent z = if z = root then stop' else mem.rbParent z)
    (hlink : ∀ z ∈ path.map Frame.key, ∀ d, mem'.link d z = mem.link d z) :
    ReprPath mem' stop' path q := by
  induction path generalizing q t with
  | nil => trivial
  | cons f path ih =>
    obtain ⟨hpar, hq, hsib, hpath⟩ := h
    obtain ⟨hf, hnodup⟩ := nodup_cons.mp hnodup
    have hfp := hparent f.key mem_cons_self
    have hfl := hlink f.key mem_cons_self
    have hroot := hroot (cons_ne_nil f path)
    refine ⟨?_, (hfl _).trans hq, (hfl _).trans hsib, ?_⟩
    · cases path with
      | nil =>
        have hself : f.key = root := (ptr_mk ..).symm.trans hroot
        rw [hfp, if_pos hself]
        rfl
      | cons f' path =>
        have hne : f.key ≠ root := by
          obtain ⟨x, _, hx, hfill⟩ := root_fill (cons_ne_nil f' path)
          have hxr : x = root := (hfill (f.fill t)).1.symm.trans hroot
          rintro rfl
          exact hf (hxr ▸ hx)
        rw [hfp, if_neg hne, hpar]
        rfl
    · refine ih (t := f.fill t) hpath hnodup (fun _ => hroot) ?_ ?_
      · exact fun z hz => hparent z (mem_cons_of_mem _ hz)
      · exact fun z hz => hlink z (mem_cons_of_mem _ hz)

end Path

section TwoChildren

/-- The last steps for two children: the values from the new place of the successor upwards. -/
theorem Zip.refreshSplice {mem' : RbMem α} (hcb : cb.Lawful combine)
    (h : Stored combine mem (.node c l x r) up) (hzip : Zip mem' (.node c l y r') up)
    (hy : mem'.augmented y = mem.augmented x)
    (hsame : ∀ z ∈ l.toList ++ up.keys, mem'.augmented z = mem.augmented z)
    (hr' : AugTree combine mem' r') :
    ∃ mem'', Returns (fun fuel => cb.propagate fuel mem' y 0) mem'' ∧
      Stored combine mem'' r' (⟨.right, c, y, l⟩ :: up) := by
  obtain ⟨hx, hl, -⟩ := h.aug.tree
  have hctx := h.aug.ctx
  rw [treeValue, ← hx, ← hy] at hctx
  have hfocus : Zip mem' r' (⟨.right, c, y, l⟩ :: up) := zip_cons.mpr hzip
  refine hfocus.refresh hcb hr' ⟨?_, ?_⟩
  · exact hl.congr (fun z hz => hsame z (mem_append_left _ hz))
  · exact hctx.congr (fun z hz => hsame z (mem_append_right _ hz))

variable {cs : Color}

theorem Stored.eraseChild (hcb : cb.Lawful combine)
    (h : Stored combine mem (.node c l x (.node cs .nil y s)) up) (hl : ptr l ≠ 0) :
    ∃ mem', Returns
        (fun fuel => cb.propagate fuel (eraseSplice (cb.copy mem x y) x y y (ptr s)).1 y 0) mem' ∧
      Stored combine mem' (s.paint .black) (⟨.right, c, y, l⟩ :: up) ∧
      (eraseSplice (cb.copy mem x y) x y y (ptr s)).2 =
        if ptr s ≠ 0 then 0 else if cs = .black then y else 0 := by
  rw [hcb.copy]
  obtain ⟨hzip, hreb⟩ := h.zip.spliceChild hl (update mem.augmented y (mem.augmented x))
  have haug := augmented_eraseSplice (augmentCopy mem x y) x y y (ptr s)
  have hnodup := h.zip.nodup
  simp only [toList, nodup_cons, nodup_append_iff, mem_cons,
    mem_append, not_or, nil_append] at hnodup
  have hsame : ∀ z, z ≠ y →
      (eraseSplice (augmentCopy mem x y) x y y (ptr s)).1.augmented z = mem.augmented z := by
    intro z hz
    rw [haug]
    exact update_of_ne hz _ _
  obtain ⟨-, -, -, -, hs⟩ := h.aug.tree
  obtain ⟨mem', hrun, hstored⟩ := hzip.refreshSplice hcb h
    ((congrFun haug y).trans (update_self ..))
    (fun z hz => hsame z (by grind))
    (augTree_paint.mpr (hs.congr (fun z hz => hsame z (by grind))))
  exact ⟨mem', hrun, hstored, hreb⟩

theorem Stored.erasePath {f : Frame Nat} {path : Ctx Nat} (hcb : cb.Lawful combine)
    (h : Stored combine mem (.node c l x (Ctx.fill (f :: path) (.node cs .nil y s))) up)
    (hleft : ∀ f' ∈ f :: path, f'.dir = .left) (hl : ptr l ≠ 0) {q : Nat}
    (hq : q = ptr (Ctx.fill (f :: path) (.node cs .nil y s))) :
    let pre := ((mem.setLink .left f.key (ptr s)).setLink .right y q).rbSetParent q y
    ∃ mem₁ mem', Returns (fun fuel => cb.propagate fuel (cb.copy pre x y) f.key y) mem₁ ∧
      Returns (fun fuel => cb.propagate fuel (eraseSplice mem₁ x y f.key (ptr s)).1 y 0) mem' ∧
      Stored combine mem' (s.paint .black) ((f :: path) ++ ⟨.right, c, y, l⟩ :: up) ∧
      (eraseSplice mem₁ x y f.key (ptr s)).2 =
        if ptr s ≠ 0 then 0 else if cs = .black then f.key else 0 := by
  intro pre
  rw [hcb.copy]
  have hfocus : Stored combine mem (.node cs .nil y s) ((f :: path) ++ ⟨.right, c, x, l⟩ :: up) :=
    stored_append.mpr (stored_cons.mpr h)
  obtain ⟨-, -, hs⟩ := hfocus.aug.tree
  have hctx := hfocus.aug.ctx.of_append
  obtain ⟨hfpar, -, hfsib, hfpath⟩ := hfocus.zip.ctx.pathOf
  have hnodup := hfocus.zip.nodup
  rw [Ctx.keys_append] at hnodup
  have hmap : ((f :: path).map Frame.key).Nodup := by
    have hks := (nodup_append_iff _ _).mp (nodup_cons.mp hnodup).2
    exact ((nodup_append_iff _ _).mp hks.2.1).1.sublist (map_sublist_keys _)
  have hkeys : ∀ z ∈ (f :: path).map Frame.key, z ∈ Ctx.keys (f :: path) := fun z => mem_keys_of_map
  have hfacts : y ∉ Ctx.keys (f :: path) ∧ y ∉ s.toList ∧
      (∀ z ∈ l.toList ++ up.keys, z ∉ Ctx.keys (f :: path) ∧ z ≠ y) ∧
      (∀ z ∈ s.toList, z ∉ Ctx.keys (f :: path)) ∧
      (0 :: (s.toList ++ Ctx.keys (f :: path))).Nodup := by
    generalize Ctx.keys (f :: path) = ks at hnodup ⊢
    simp only [toList, Ctx.keys, nil_append, nodup_cons, nodup_append_iff, mem_append, mem_cons,
      not_or, cons_append] at hnodup ⊢
    grind
  obtain ⟨hyk, hys, hlk, hsk, hnodups⟩ := hfacts
  have hsub : ∀ z, z ≠ y → (augmentCopy pre x y).augmented z = mem.augmented z :=
    fun z hz => update_of_ne hz _ _
  have hf := hleft f mem_cons_self
  -- The first node of the path now has the child of the successor below it.
  have hhead : ReprPath (mem.setLink .left f.key (ptr s)) x (f :: path) (ptr s) := by
    refine ⟨hfpar, by simp [hf], by simpa [hf] using hfsib, hfpath.congr ?_⟩
    intro z hz
    have hzf : z ≠ f.key := fun h => (nodup_cons.mp hmap).1 (h ▸ hz)
    exact ⟨rfl, fun d => by simp [hzf]⟩
  have hpath : ReprPath (augmentCopy pre x y) y (f :: path) (ptr s) := by
    refine ReprPath.restop hhead hmap (fun _ => hq.symm) ?_ ?_
    · intro z _
      have hpc : pre.parentColor z = if z = q then pack y _ else mem.parentColor z :=
        parentColor_setParentColor ..
      show wordParent (pre.parentColor z) = _
      rw [hpc]
      split
      · exact wordParent_pack
      · rfl
    · intro z hz d
      have hzy : z ≠ y := fun h => hyk (h ▸ hkeys z hz)
      show pre.link d z = _
      simp [pre, rbSetParent, setParentColor, hzy]
  have hs4 : AugTree combine (augmentCopy pre x y) s :=
    hs.congr (fun z hz => hsub z (fun h => hys (h ▸ hz)))
  have hctx4 : AugStale combine (augmentCopy pre x y) (f :: path) :=
    (hctx.congr (fun z hz => hsub z (fun h => hyk (h ▸ hz)))).stale
  obtain ⟨values, hrun, hout, hvalues⟩ :=
    hcb.propagate hpath hnodups (fun h => hyk (hkeys y h)) hs4 hctx4
  let mem₁ : RbMem α := { pre with augmented := values }
  have hsame : ∀ z, z ∉ Ctx.keys (f :: path) → z ≠ y → values z = mem.augmented z :=
    fun z hz hzy => (hout z (fun h => hz (hkeys z h))).trans (hsub z hzy)
  have haug := augmented_eraseSplice mem₁ x y f.key (ptr s)
  obtain ⟨hzip, hreb⟩ := h.zip.splicePath hf hl values hq
  have hsp : AugTree combine (eraseSplice mem₁ x y f.key (ptr s)).1
      (Ctx.fill (f :: path) (s.paint .black)) := by
    refine augTree_fill (augTree_paint.mpr (hs.congr (fun z hz => ?_))) ?_
    · rw [haug]
      exact hsame z (hsk z hz) (fun h => hys (h ▸ hz))
    · rw [treeValue_paint]
      exact hvalues.congr (fun z _ => congrFun haug z)
  have hy : (eraseSplice mem₁ x y f.key (ptr s)).1.augmented y = mem.augmented x := by
    refine (congrFun haug y).trans ((hout y (fun h => hyk (hkeys y h))).trans ?_)
    exact update_self ..
  obtain ⟨mem', hrun', hstored⟩ := hzip.refreshSplice hcb h hy (fun z hz =>
    (congrFun haug z).trans (hsame z (hlk z hz).1 (hlk z hz).2)) hsp
  exact ⟨mem₁, mem', ⟨_, hrun⟩, hrun', stored_append.mpr hstored, hreb⟩

end TwoChildren

section Unlink

theorem Stored.fill_nodup (h : Stored combine mem t up) : (up.fill t).toList.Nodup := by
  have hnodup := (stored_fill.mp h).zip.nodup
  rw [Ctx.keys, append_nil] at hnodup
  exact (nodup_cons.mp hnodup).2

theorem Stored.erase_eq (h : Stored combine mem (.node c l x r) up) :
    (up.fill (.node c l x r)).toList.erase x =
      up.before ++ (l.toList ++ (r.toList ++ up.after)) := by
  have hnodup := h.fill_nodup
  have hlist : (up.fill (.node c l x r)).toList =
      (up.before ++ l.toList) ++ x :: (r.toList ++ up.after) := by
    simp [toList_fill_eq, toList]
  rw [hlist] at hnodup ⊢
  have hx : x ∉ up.before ++ l.toList :=
    fun hx => ((nodup_append_iff _ _).mp hnodup).2.2 x hx mem_cons_self
  rw [erase_append_right _ hx, erase_cons_head, append_assoc]

/-- What remains after a node with at most one child `s` was unlinked below the context. -/
structure Unlinked (combine : Nat → Option α → Option α → α) (mem : RbMem α)
    (rebalance : Nat) (keys : List Nat) (s : ColorTree Nat) (cs : Color) (up : Ctx Nat) :
    Prop where
  stored : Stored combine mem (s.paint .black) up
  rebalance : rebalance = if ptr s ≠ 0 then 0 else if cs = .black then top up else 0
  balanced : ∃ e x c k, (ColorTree.mk e cs s x .nil).Balanced c k ∧ up.Hole c k
  keys : (up.fill s).toList = keys

variable {k rebalance : Nat} {c₁ : Color} {path : Ctx Nat}

theorem black_of_child (h : (mk e c s x .nil).Balanced c₁ k) (hs : ptr s ≠ 0) : c = .black := by
  cases c with
  | black => rfl
  | red =>
    obtain ⟨-, hbal, hnil⟩ := h.of_mk_red
    cases hnil
    cases hbal
    exact absurd rfl hs

theorem Stored.unlinkOne (hcb : cb.Lawful combine)
    (h : Stored combine mem (.mk e c s x .nil) up)
    (hbal : (ColorTree.mk e c s x .nil).Balanced c₁ k) (hhole : up.Hole c₁ k) :
    ∃ mem', Returns
        (fun fuel => cb.propagate fuel (Rbtree.eraseOneChild mem x (ptr s)).1 (top up) 0) mem' ∧
      Unlinked combine mem' (Rbtree.eraseOneChild mem x (ptr s)).2
        ((up.fill (.mk e c s x .nil)).toList.erase x) s c up := by
  obtain ⟨mem', hrun, hstored, hreb⟩ := h.eraseOneChild hcb
  refine ⟨mem', hrun, ?_, hreb, ⟨e, x, c₁, k, hbal, hhole⟩, ?_⟩
  · by_cases hs : ptr s ≠ 0
    · rwa [black_of_child hbal hs] at hstored
    · have hnodup := h.zip.nodup
      rw [nodup_mk] at hnodup
      simp only [nodup_cons, mem_cons, mem_append, not_or] at hnodup
      cases eq_nil_of_ptr (not_not.mp hs) hnodup.1.2.1
      exact hstored
  · cases e with
    | left | right =>
      refine Eq.trans ?_ (Stored.erase_eq h).symm
      simp [toList_fill_eq, toList]

theorem before_of_left (h : ∀ f ∈ path, f.dir = .left) : path.before = [] := by
  induction path with
  | nil => rfl
  | cons f path ih =>
    obtain ⟨d, c, x, s⟩ := f
    cases h ⟨d, c, x, s⟩ mem_cons_self
    exact ih (fun f' hf' => h f' (mem_cons_of_mem _ hf'))

theorem hole_exchange (h : Ctx.Hole (path ++ ⟨d, c, x, l⟩ :: up) c₁ k) :
    Ctx.Hole (path ++ ⟨d, c, y, l⟩ :: up) c₁ k := by
  induction path generalizing c₁ k with
  | nil =>
    cases h with
    | red hs hup => exact .red hs hup
    | black hs hup => exact .black hs hup
  | cons f path ih =>
    cases h with
    | red hs hup => exact .red hs (ih hup)
    | black hs hup => exact .black hs (ih hup)

theorem Stored.unlinkSuccessor {mem' : RbMem α} (path : Ctx Nat) {cs : Color}
    (h : Stored combine mem (.node c l x (path.fill (.node cs .nil y s))) up)
    (hleft : ∀ f ∈ path, f.dir = .left)
    (hbal : (ColorTree.node c l x (path.fill (.node cs .nil y s))).Balanced c₁ k)
    (hhole : up.Hole c₁ k)
    (hstored : Stored combine mem' (s.paint .black) (path ++ ⟨.right, c, y, l⟩ :: up))
    (hreb : rebalance = if ptr s ≠ 0 then 0 else
      if cs = .black then top (path ++ ⟨.right, c, y, l⟩ :: up) else 0) :
    Unlinked combine mem' rebalance
      ((up.fill (.node c l x (path.fill (.node cs .nil y s)))).toList.erase x) s cs
      (path ++ ⟨.right, c, y, l⟩ :: up) := by
  refine ⟨hstored, hreb, ?_, ?_⟩
  · obtain ⟨m, hwhole⟩ := hhole.fill hbal
    have hwhole : (Ctx.fill (path ++ ⟨.right, c, x, l⟩ :: up)
        (.node cs .nil y s)).Balanced .black m := by
      rw [fill_append]
      exact hwhole
    obtain ⟨c', k', hhole', hbal'⟩ := Ctx.Hole.of_fill hwhole
    exact ⟨.right, y, c', k', hbal', hole_exchange hhole'⟩
  · rw [h.erase_eq, fill_append, Ctx.fill]
    simp [toList_fill_eq, before_of_left hleft, Frame.fill, ColorTree.mk, toList]

theorem rbEraseAugmented_unlinked (hcb : cb.Lawful combine)
    (h : Stored combine mem (.node c l x r) up) (hbal : (ColorTree.node c l x r).Balanced c₁ k)
    (hhole : up.Hole c₁ k) :
    ∃ mem' rebalance s cs up',
      Returns (fun fuel => rbEraseAugmented cb fuel mem x) (mem', rebalance) ∧
      Unlinked combine mem' rebalance ((up.fill (.node c l x r)).toList.erase x) s cs up' := by
  obtain ⟨hxpc, hxl, hxr, hrl, hrr⟩ := h.zip.tree
  have hparent : mem.rbParent x = top up := by
    rw [rbParent, hxpc, wordParent_pack]
  have h0 := (nodup_cons.mp h.zip.nodup).1
  simp only [toList, mem_append, mem_cons, not_or] at h0
  obtain ⟨⟨hl0, -, hr0⟩, -⟩ := h0
  by_cases hl : ptr l = 0
  · cases eq_nil_of_ptr hl hl0
    obtain ⟨mem', hrun, hunlinked⟩ := Stored.unlinkOne (e := .right) hcb h hbal hhole
    refine ⟨mem', _, r, c, up, ?_, hunlinked⟩
    simp only [rbEraseAugmented, hxl, hxr, hparent, hl, if_true]
    exact hrun.bind (.of_some _)
  by_cases hr : ptr r = 0
  · cases eq_nil_of_ptr hr hr0
    obtain ⟨mem', hrun, hunlinked⟩ := Stored.unlinkOne (e := .left) hcb h hbal hhole
    refine ⟨mem', _, l, c, up, ?_, hunlinked⟩
    simp only [rbEraseAugmented, hxl, hxr, hparent, if_neg hl, hr, if_true]
    exact hrun.bind (.of_some _)
  cases r with
  | nil => exact absurd rfl hr
  | node cr rl z rr =>
    obtain ⟨-, hzl, hzr, hrrl, -⟩ := hrr
    rw [ptr] at hxr hr
    have hrl0 : 0 ∉ rl.toList := fun h => hr0 (by simp [toList, h])
    by_cases hnil : ptr rl = 0
    · cases eq_nil_of_ptr hnil hrl0
      obtain ⟨mem', hrun, hstored, hreb⟩ := h.eraseChild hcb hl
      refine ⟨mem', _, rr, cr, _, ?_,
        Stored.unlinkSuccessor [] h (forall_mem_nil _) hbal hhole hstored hreb⟩
      simp only [rbEraseAugmented, hxl, hxr, hzl, hzr, if_neg hl, if_neg hr, hnil, if_true]
      exact hrun.bind (.of_some _)
    obtain ⟨path, cs, y, s, heq, hleft, hloop⟩ := successorLoop_eq hrrl hrl0 hnil
    -- The path from the successor up to the right child.
    obtain ⟨f, path', hpath⟩ : ∃ f path', path ++ [⟨.left, cr, z, rr⟩] = f :: path' := by
      cases path <;> exact ⟨_, _, rfl⟩
    have htop : topOr z path = f.key := by
      cases path with
      | nil | cons f' path => exact congrArg Frame.key (List.cons.inj hpath).1
    have hfill : ColorTree.node cr rl z rr = Ctx.fill (f :: path') (.node cs .nil y s) := by
      rw [← hpath, fill_append, ← heq]
      rfl
    have hleft' : ∀ f' ∈ f :: path', f'.dir = .left := by
      rw [← hpath]
      exact forall_mem_append.mpr ⟨hleft, forall_mem_singleton.mpr rfl⟩
    have hz : z = ptr (Ctx.fill (f :: path') (.node cs .nil y s)) := by
      rw [← hfill]
      rfl
    rw [hfill] at h hbal ⊢
    have hfocus : Stored combine mem (.node cs .nil y s)
        ((f :: path') ++ ⟨.right, c, x, l⟩ :: up) :=
      stored_append.mpr (stored_cons.mpr h)
    obtain ⟨-, -, hys, -, -⟩ := hfocus.zip.tree
    obtain ⟨mem₁, mem', hrun1, hrun, hstored, hreb⟩ := h.erasePath hcb hleft' hl hz
    refine ⟨mem', _, s, cs, _, ?_, Stored.unlinkSuccessor _ h hleft' hbal hhole hstored hreb⟩
    simp only [rbEraseAugmented, hxl, hxr, hzl, if_neg hl, if_neg hr, if_neg hnil]
    refine (hloop z).bind ?_
    simp only [htop, hys]
    exact hrun1.bind (hrun.bind (.of_some _))

end Unlink

/-- The second half of `rb_erase()`: the colours are repaired. -/
theorem Unlinked.rebalanced {rebalance : Nat} {keys : List Nat} {cs : Color}
    (hcb : cb.Lawful combine) (h : Unlinked combine mem rebalance keys s cs up) :
    ∃ mem' t', Returns (fun fuel =>
        if rebalance ≠ 0 then rbEraseColor cb fuel mem rebalance else some mem) mem' ∧
      RbTree combine mem' t' ∧ t'.toList = keys := by
  obtain ⟨hstored, rfl, ⟨e, x, c, k, hbal, hhole⟩, hkeys⟩ := h
  have hpaint : (up.fill (s.paint .black)).toList = keys := by
    rw [← hkeys]
    exact toList_fill_congr (toList_paint _ _) up
  by_cases hs : ptr s ≠ 0
  · -- The child took the colour of the node.
    cases black_of_child hbal hs
    obtain ⟨m, c₁, c₂, rfl, rfl, hsb, hnil⟩ := hbal.of_mk_black
    cases hnil
    have hblack : (s.paint .black).Balanced .black 1 := by
      cases c₁ with
      | red => exact hsb.paint_black
      | black =>
        cases hsb
        exact absurd rfl hs
    exact ⟨mem, _, ⟨0, fun fuel _ => by simp [if_pos hs]⟩, hstored.rbTree hhole hblack, hpaint⟩
  have h0 := (nodup_cons.mp hstored.zip.nodup).1
  rw [mem_append, toList_paint, not_or] at h0
  cases eq_nil_of_ptr (not_not.mp hs) h0.1
  cases cs with
  | red =>
    obtain ⟨rfl, hnil, -⟩ := hbal.of_mk_red
    exact ⟨mem, _, .of_some mem, hstored.rbTree hhole.to_black hnil, hpaint⟩
  | black =>
    obtain ⟨m, c₁, c₂, rfl, rfl, hsb, hnil⟩ := hbal.of_mk_black
    cases hnil
    cases up with
    | nil => exact ⟨mem, .nil, .of_some mem, ⟨hstored, 0, .nil⟩, hpaint⟩
    | cons f up =>
      have htop : f.key ≠ 0 := hstored.ne_zero (mem_append_right _ mem_cons_self)
      obtain ⟨mem', t', hrun, htree, hlist⟩ :=
        rbEraseColorLoop_rbTree hcb hstored (cons_ne_nil f up) .nil hhole
      refine ⟨mem', t', ?_, htree, hlist.trans hpaint⟩
      simp only [ptr, top, ne_eq, not_true_eq_false, if_false, if_true, if_pos htop]
      exact hrun

theorem rbEraseWith_rbTree (hcb : cb.Lawful combine) (h : RbTree combine mem t)
    (hx : x ∈ t.toList) :
    ∃ mem' t', Returns (fun fuel => rbEraseWith cb fuel mem x) mem' ∧
      RbTree combine mem' t' ∧ t'.toList = t.toList.erase x := by
  obtain ⟨up, c, l, r, rfl⟩ := exists_fill hx
  obtain ⟨n, hn⟩ := h.balanced
  obtain ⟨c₁, k, hhole, hbal⟩ := Ctx.Hole.of_fill hn
  obtain ⟨mem₁, rebalance, s, cs, up', hrun1, hunlinked⟩ :=
    rbEraseAugmented_unlinked hcb (stored_fill.mpr h.stored) hbal hhole
  obtain ⟨mem', t', hrun, htree, hlist⟩ := hunlinked.rebalanced hcb
  exact ⟨mem', t', hrun1.bind hrun, htree, hlist⟩

end LinuxKernel.Rbtree
