import LinuxKernel.Rbtree.Shape

/-!
# The values of augmented trees

Every node of an augmented tree holds a value that is computed from the node and the
values of its children.  The callbacks of a tree keep these values right through
rotations, and along a path after a subtree changed.
-/

namespace LinuxKernel.Rbtree

open Lib List Function ColorTree Frame

variable {α : Type} {mem : RbMem α} {t s : ColorTree Nat} {up : Ctx Nat}

section Values

variable (combine : Nat → Option α → Option α → α)

/-- The value of a node with `v` on the side `d` and `w` on the other. -/
def combineAt : Dir → Nat → Option α → Option α → α
  | .left, x, v, w => combine x v w
  | .right, x, v, w => combine x w v

def treeValue : ColorTree Nat → Option α
  | .nil => none
  | .node _ l x r => some (combine x (treeValue l) (treeValue r))

/-- The nodes of a tree hold the right values. -/
def AugTree (mem : RbMem α) : ColorTree Nat → Prop
  | .nil => True
  | .node _ l x r =>
    mem.augmented x = combine x (treeValue combine l) (treeValue combine r) ∧
      AugTree mem l ∧ AugTree mem r

/-- The nodes of a context hold the right values for a tree of value `v`. -/
def AugCtx (mem : RbMem α) : Ctx Nat → Option α → Prop
  | [], _ => True
  | f :: up, v =>
    mem.augmented f.key = combineAt combine f.dir f.key v (treeValue combine f.sib) ∧
      AugTree combine mem f.sib ∧ AugCtx mem up
          (some (combineAt combine f.dir f.key v (treeValue combine f.sib)))

/-- The nodes above the lowest one hold the right values for the value that it holds. -/
def AugStale (mem : RbMem α) : Ctx Nat → Prop
  | [] => True
  | f :: up =>
    AugTree combine mem f.sib ∧ AugCtx combine mem up (some (mem.augmented f.key))

/-- A tree and its context hold the right values. -/
structure Aug (mem : RbMem α) (t : ColorTree Nat) (up : Ctx Nat) : Prop where
  tree : AugTree combine mem t
  ctx : AugCtx combine mem up (treeValue combine t)

variable {combine}

@[simp] theorem treeValue_mk (d : Dir) (c : Color) (a : ColorTree Nat) (x : Nat)
    (b : ColorTree Nat) :
    treeValue combine (mk d c a x b) =
      some (combineAt combine d x (treeValue combine a) (treeValue combine b)) := by
  cases d <;> rfl

@[simp] theorem treeValue_paint (c : Color) (t : ColorTree Nat) :
    treeValue combine (t.paint c) = treeValue combine t := by
  cases t <;> rfl

variable {b : ColorTree Nat} {x : Nat} {a : ColorTree Nat} {d : Dir} {c : Color} {mem' : RbMem α}
  {v : Option α}

theorem augTree_mk :
    AugTree combine mem (mk d c a x b) ↔
      mem.augmented x = combineAt combine d x (treeValue combine a) (treeValue combine b) ∧
        AugTree combine mem a ∧ AugTree combine mem b := by
  cases d with
  | left => exact Iff.rfl
  | right =>
    constructor
    all_goals
      rintro ⟨hx, hl, hr⟩
      exact ⟨hx, hr, hl⟩

theorem augTree_paint : AugTree combine mem (t.paint c) ↔ AugTree combine mem t := by
  cases t <;> rfl

theorem AugTree.congr (h : AugTree combine mem t)
    (hsame : ∀ x ∈ t.toList, mem'.augmented x = mem.augmented x) : AugTree combine mem' t := by
  induction t with
  | nil => trivial
  | node c l x r ihl ihr =>
    obtain ⟨hx, hl, hr⟩ := h
    refine ⟨(hsame x (by simp [toList])).trans hx, ?_, ?_⟩
    · exact ihl hl (fun y hy => hsame y (by simp [toList, hy]))
    · exact ihr hr (fun y hy => hsame y (by simp [toList, hy]))

theorem AugCtx.congr (h : AugCtx combine mem up v)
    (hsame : ∀ x ∈ up.keys, mem'.augmented x = mem.augmented x) : AugCtx combine mem' up v := by
  induction up generalizing v with
  | nil => trivial
  | cons f up ih =>
    obtain ⟨hf, hs, hup⟩ := h
    refine ⟨(hsame f.key (by simp [Ctx.keys])).trans hf, ?_, ?_⟩
    · exact hs.congr (fun y hy => hsame y (by simp [Ctx.keys, hy]))
    · exact ih hup (fun y hy => hsame y (by simp [Ctx.keys, hy]))

theorem AugCtx.stale (h : AugCtx combine mem up v) : AugStale combine mem up := by
  cases up with
  | nil => trivial
  | cons f up =>
    obtain ⟨hf, hs, hup⟩ := h
    exact ⟨hs, hf ▸ hup⟩

theorem AugTree.childValue (h : AugTree combine mem t) (h0 : 0 ∉ t.toList) :
    Rbtree.childValue mem (ptr t) = treeValue combine t := by
  cases t with
  | nil => rfl
  | node c l x r =>
    have hx : x ≠ 0 := by
      rintro rfl
      exact h0 (by simp [toList])
    rw [Rbtree.childValue, ptr, if_pos hx, h.1]
    rfl

theorem rbCompute_eq (hla : mem.link d x = ptr a) (hlb : mem.link d.flip x = ptr b)
    (ha : AugTree combine mem a) (hb : AugTree combine mem b) (ha0 : 0 ∉ a.toList)
    (hb0 : 0 ∉ b.toList) :
    rbCompute combine mem x =
      combineAt combine d x (treeValue combine a) (treeValue combine b) := by
  have hva := ha.childValue ha0
  have hvb := hb.childValue hb0
  rw [← hla] at hva
  rw [← hlb] at hvb
  unfold rbCompute
  cases d with
  | left => rw [← hva, ← hvb, Dir.flip, combineAt]
  | right => rw [← hva, ← hvb, Dir.flip, combineAt]

end Values

variable {combine : Nat → Option α → Option α → α}

section Lawful

/-- The lowest node of a path that ends below the node `stop`. -/
def topOr (stop : Nat) : Ctx Nat → Nat
  | [] => stop
  | f :: _ => f.key

/-- The links and parents along a path with the node `q` below it. -/
def ReprPath (mem : RbMem α) (stop : Nat) : Ctx Nat → Nat → Prop
  | [], _ => True
  | f :: up, q =>
    mem.rbParent f.key = topOr stop up ∧
      mem.link f.dir f.key = q ∧ mem.link f.dir.flip f.key = ptr f.sib ∧ ReprPath mem stop up f.key

variable {q stop : Nat}

theorem ReprPath.of_augmented (h : ReprPath mem stop up q) (values : Nat → α) :
    ReprPath { mem with augmented := values } stop up q := by
  induction up generalizing q with
  | nil => trivial
  | cons f up ih =>
    obtain ⟨hparent, hlink, hsib, hup⟩ := h
    exact ⟨hparent, hlink, hsib, ih hup⟩

theorem topOr_zero : topOr 0 up = top up := by
  cases up <;> rfl

theorem ReprCtx.path (h : ReprCtx mem up q) : ReprPath mem 0 up q := by
  induction up generalizing q with
  | nil => trivial
  | cons f up ih =>
    obtain ⟨hpc, hlink, hsib, -, hup⟩ := h
    refine ⟨?_, hlink, hsib, ih hup⟩
    rw [topOr_zero, RbMem.rbParent, hpc, wordParent_pack]

/-- The callbacks keep the values that `combine` computes. -/
structure Callbacks.Lawful (cb : Callbacks α) (combine : Nat → Option α → Option α → α) : Prop where
  assoc : ∀ x y u v w, combine y (some (combine x u v)) w = combine x u (some (combine y v w))
  rotate : ∀ mem old new, cb.rotate mem old new = augmentRotate combine mem old new
  copy : ∀ mem old new, cb.copy mem old new = augmentCopy mem old new
  propagate : ∀ {mem stop t} {up : Ctx Nat},
      ReprPath mem stop up (ptr t) → (0 :: (t.toList ++ up.keys)).Nodup →
        stop ∉ up.map Frame.key → AugTree combine mem t → AugStale combine mem up →
          ∃ values : Nat → α, (∀ fuel, up.length < fuel →
              cb.propagate fuel mem (topOr stop up) stop = some { mem with augmented := values }) ∧
            (∀ z, z ∉ up.map Frame.key → values z = mem.augmented z) ∧
            AugCtx combine { mem with augmented := values } up (treeValue combine t)

/-- A tree and its context in memory, with the right values. -/
structure Stored (combine : Nat → Option α → Option α → α) (mem : RbMem α)
    (t : ColorTree Nat) (up : Ctx Nat) : Prop where
  zip : Zip mem t up
  aug : Aug combine mem t up

variable {cb : Callbacks α} {f : Frame Nat}

theorem stored_cons : Stored combine mem t (f :: up) ↔ Stored combine mem (f.fill t) up := by
  constructor
  · rintro ⟨hzip, ht, hf, hs, hup⟩
    refine ⟨zip_cons.mp hzip, augTree_mk.mpr ⟨hf, ht, hs⟩, ?_⟩
    rwa [Frame.fill, treeValue_mk]
  · rintro ⟨hzip, ht, hup⟩
    obtain ⟨hf, ht, hs⟩ := augTree_mk.mp ht
    rw [Frame.fill, treeValue_mk] at hup
    exact ⟨zip_cons.mpr hzip, ht, hf, hs, hup⟩

theorem Stored.focus {d : Dir} {c : Color} {x : Nat} (h : Stored combine mem (.mk d c t x s) up) :
    Stored combine mem t (⟨d, c, x, s⟩ :: up) :=
  stored_cons.mpr h

theorem stored_fill : Stored combine mem t up ↔ Stored combine mem (up.fill t) [] := by
  induction up generalizing t with
  | nil => rfl
  | cons f up ih => rw [stored_cons, ih, Ctx.fill]

theorem Zip.of_augmented (h : Zip mem t up) (values : Nat → α) :
    Zip { mem with augmented := values } t up :=
  ⟨h.tree.congr (fun _ _ => ⟨rfl, fun _ => rfl⟩),
    h.ctx.congr rfl (fun _ _ => ⟨rfl, fun _ => rfl⟩), h.nodup⟩

theorem Callbacks.Lawful.assocAt (hcb : cb.Lawful combine) (d : Dir) (x y : Nat)
    (u v w : Option α) :
    combineAt combine d y (some (combineAt combine d x u v)) w =
      combineAt combine d x u (some (combineAt combine d y v w)) := by
  cases d with
  | left => exact hcb.assoc x y u v w
  | right => exact (hcb.assoc y x w v u).symm

section Rotate

variable {d : Dir} {c c₁ : Color} {a b e : ColorTree Nat} {x y : Nat}

theorem Stored.rotate (hcb : cb.Lawful combine)
    (h : Stored combine mem (.mk d c (.mk d c₁ a x b) y e) up) (ct c' : Color) :
    Stored combine (cb.rotate (rotateLinks d mem y x (ptr b) ct c') y x)
      (.mk d c a x (.mk d c' (b.paint ct) y e)) up := by
  have hzip := h.zip.rotateLinks ct c'
  have haug : (rotateLinks d mem y x (ptr b) ct c').augmented = mem.augmented := by
    refine Eq.trans ?_ (augmented_rotateBelow d ct c' x y (ptr b))
    rw [h.zip.rotateLinks_eq]
    cases up <;> rfl
  have hne := h.zip.rotateNe
  have hxy := hne.upper.1
  obtain ⟨hy, hx, he⟩ := augTree_mk.mp h.aug.tree
  obtain ⟨hx, ha, hb⟩ := augTree_mk.mp hx
  rw [treeValue_mk, hcb.assocAt] at hy
  have hctx := h.aug.ctx
  rw [treeValue_mk, treeValue_mk, hcb.assocAt] at hctx
  obtain ⟨-, -, -, -, hbelow⟩ := repr_mk.mp hzip.tree
  obtain ⟨-, hlb, hle, -, -⟩ := repr_mk.mp hbelow
  have h0 := nodup_rotate.mp h.zip.nodup
  simp only [nodup_cons, mem_cons, mem_append, not_or] at h0
  obtain ⟨⟨-, -, -, hb0, he0, -⟩, -⟩ := h0
  rw [hcb.rotate]
  generalize rotateLinks d mem y x (ptr b) ct c' = mem' at *
  -- The value of `x` is the old one of `y`, and the other nodes keep theirs.
  let mem₁ := mem'.setAugmented x (mem'.augmented y)
  have hsame1 : ∀ z, z ≠ x → mem₁.augmented z = mem.augmented z := by
    intro z hz
    rw [← haug]
    exact update_of_ne hz _ _
  have hcompute : rbCompute combine mem₁ y = combineAt combine d y
      (treeValue combine b) (treeValue combine e) := by
    rw [← treeValue_paint ct b]
    refine rbCompute_eq hlb hle (augTree_paint.mpr (hb.congr ?_)) (he.congr ?_) ?_ he0
    · intro z hz
      exact hsame1 z (hne.below z hz).1
    · intro z hz
      exact hsame1 z (hne.outer z (mem_append_right _ hz)).1
    · rwa [toList_paint]
  have hsame : ∀ z, z ≠ x → z ≠ y →
      (augmentRotate combine mem' y x).augmented z = mem.augmented z := by
    intro z hzx hzy
    exact (update_of_ne hzy _ _).trans (hsame1 z hzx)
  refine ⟨(hzip.of_augmented _).of_augmented _, augTree_mk.mpr ⟨?_, ?_, ?_⟩, ?_⟩
  · rw [treeValue_mk, treeValue_paint, ← hy, ← haug]
    exact (update_of_ne hxy _ _).trans (update_self ..)
  · refine ha.congr (fun z hz => ?_)
    have hz := hne.outer z (mem_append_left _ hz)
    exact hsame z hz.1 hz.2.1
  · refine augTree_mk.mpr ⟨?_, augTree_paint.mpr (hb.congr ?_), he.congr ?_⟩
    · rw [treeValue_paint, ← hcompute]
      exact update_self ..
    · intro z hz
      exact hsame z (hne.below z hz).1 (hne.below z hz).2.1
    · intro z hz
      have hz := hne.outer z (mem_append_right _ hz)
      exact hsame z hz.1 hz.2.1
  · rw [treeValue_mk, treeValue_mk, treeValue_paint]
    refine hctx.congr (fun z hz => ?_)
    exact hsame z (hne.keys z hz).1 (hne.keys z hz).2.1

end Rotate

end Lawful

variable [DecidableEq α]

theorem map_sublist_keys (up : Ctx Nat) : (up.map key).Sublist up.keys := by
  induction up with
  | nil => exact .refl _
  | cons f up ih => exact (ih.trans (sublist_append_right _ _)).cons_cons _

theorem mem_keys_of_map {z : Nat} (h : z ∈ up.map key) : z ∈ up.keys :=
  (map_sublist_keys up).subset h

theorem augmentPropagate_values {stop : Nat} (hpath : ReprPath mem stop up (ptr t))
    (hnodup : (0 :: (t.toList ++ up.keys)).Nodup) (hstop : stop ∉ up.map key)
    (ht : AugTree combine mem t) (hup : AugStale combine mem up) :
    ∃ values : Nat → α, (∀ fuel, up.length < fuel →
        augmentPropagate combine fuel mem (topOr stop up) stop =
          some { mem with augmented := values }) ∧
      (∀ z, z ∉ up.map key → values z = mem.augmented z) ∧
      AugCtx combine { mem with augmented := values } up (treeValue combine t) := by
  induction up generalizing mem t with
  | nil =>
    refine ⟨mem.augmented, fun fuel hfuel => ?_, fun _ _ => rfl, trivial⟩
    obtain ⟨n, rfl⟩ := Nat.exists_eq_succ_of_ne_zero (Nat.ne_of_gt hfuel)
    exact if_neg (fun h => h rfl)
  | cons f up ih =>
    obtain ⟨hparent, hlink, hsib, hpath⟩ := hpath
    obtain ⟨hs, hup⟩ := hup
    have hfacts := hnodup
    simp only [Ctx.keys, nodup_cons, nodup_append_iff, mem_cons,
      mem_append, not_or, cons_append] at hfacts
    simp only [map_cons, mem_cons, not_or] at hstop
    have hne : f.key ≠ stop := Ne.symm hstop.1
    have hcompute : rbCompute combine mem f.key = combineAt combine f.dir f.key
        (treeValue combine t) (treeValue combine f.sib) :=
      rbCompute_eq hlink hsib ht hs hfacts.1.1 hfacts.1.2.2.1
    by_cases heq : mem.augmented f.key = rbCompute combine mem f.key
    · -- The value of the node does not change, so those above it are right.
      refine ⟨mem.augmented, fun fuel hfuel => ?_, fun _ _ => rfl, ?_⟩
      · obtain ⟨n, rfl⟩ := Nat.exists_eq_succ_of_ne_zero (Nat.ne_zero_of_lt hfuel)
        rw [topOr, augmentPropagate, if_pos hne]
        exact if_pos heq
      · have hvalue := heq.trans hcompute
        exact ⟨hvalue, hs, hvalue ▸ hup⟩
    let mem' := mem.setAugmented f.key (rbCompute combine mem f.key)
    have hself : mem'.augmented f.key = combineAt combine f.dir f.key
        (treeValue combine t) (treeValue combine f.sib) :=
      (update_self ..).trans hcompute
    have hsame : ∀ z, z ≠ f.key → mem'.augmented z = mem.augmented z :=
      fun z hz => update_of_ne hz _ _
    have hnodup' : (0 :: ((f.fill t).toList ++ Ctx.keys up)).Nodup := nodup_cons_fill.mp hnodup
    have ht' : AugTree combine mem' (f.fill t) := by
      refine augTree_mk.mpr ⟨hself, ht.congr ?_, hs.congr ?_⟩
      all_goals exact fun z hz => hsame z (by grind)
    have hup' : AugStale combine mem' up := by
      refine AugCtx.stale (hup.congr (fun z hz => hsame z ?_))
      grind
    have hpath' : ReprPath mem' stop up (ptr (f.fill t)) := by
      rw [Frame.fill, ptr_mk]
      exact hpath.of_augmented _
    obtain ⟨values, hrun, hout, hctx⟩ := ih hpath' hnodup' hstop.2 ht' hup'
    have hmap : ∀ z ∈ up.map key, z ∈ Ctx.keys up := fun z => mem_keys_of_map
    refine ⟨values, fun fuel hfuel => ?_, fun z hz => ?_, ?_, ?_, ?_⟩
    · obtain ⟨n, rfl⟩ := Nat.exists_eq_succ_of_ne_zero (Nat.ne_zero_of_lt hfuel)
      rw [topOr, augmentPropagate, if_pos hne]
      simp only [if_neg heq, hparent]
      exact hrun n (Nat.lt_of_succ_lt_succ hfuel)
    · simp only [map_cons, mem_cons, not_or] at hz
      exact (hout z hz.2).trans (hsame z hz.1)
    · exact (hout f.key (by grind)).trans hself
    · refine hs.congr (fun z hz => ?_)
      exact (hout z (by grind)).trans (hsame z (by grind))
    · rw [Frame.fill, treeValue_mk] at hctx
      exact hctx

theorem declareCallbacks_lawful
    (hassoc : ∀ x y u v w,
      combine y (some (combine x u v)) w = combine x u (some (combine y v w))) :
    (declareCallbacks combine).Lawful combine where
  assoc := hassoc
  rotate _ _ _ := rfl
  copy _ _ _ := rfl
  propagate := augmentPropagate_values

theorem unit_augTree (mem : RbMem Unit) (t : ColorTree Nat) : AugTree (fun _ _ _ => ()) mem t := by
  induction t with
  | nil => trivial
  | node c l x r ihl ihr => exact ⟨rfl, ihl, ihr⟩

theorem unit_augCtx (mem : RbMem Unit) (up : Ctx Nat) (v : Option Unit) :
    AugCtx (fun _ _ _ => ()) mem up v := by
  induction up generalizing v with
  | nil => trivial
  | cons f up ih => exact ⟨rfl, unit_augTree mem f.sib, ih _⟩

theorem dummyCallbacks_lawful : dummyCallbacks.Lawful (fun _ _ _ => ()) where
  assoc _ _ _ _ _ := rfl
  rotate _ _ _ := rfl
  copy _ _ _ := rfl
  propagate := by
    intro mem stop t up _ _ _ _ _
    exact ⟨mem.augmented, fun _ _ => rfl, fun _ _ => rfl, unit_augCtx _ _ _⟩

end LinuxKernel.Rbtree
