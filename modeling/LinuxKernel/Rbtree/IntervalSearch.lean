import LinuxKernel.Rbtree.IntervalTree

/-!
# Searching interval trees

`_iter_first()` and `_iter_next()` on a stored interval tree: they return the nodes
that intersect an interval one after the other, in the order of the tree.
-/

namespace LinuxKernel.Rbtree

open Lib List ColorTree Function

section First

variable {p : Nat → Prop} [DecidablePred p] {l l' : List Nat}

/-- The first node of a sequence with a property, or `NULL`. -/
def firstIn (p : Nat → Prop) [DecidablePred p] : List Nat → Nat
  | [] => 0
  | y :: ys => if p y then y else firstIn p ys

theorem firstIn_append_of_none (h : ∀ y ∈ l, ¬ p y) : firstIn p (l ++ l') = firstIn p l' := by
  induction l with
  | nil => rfl
  | cons y l ih =>
    rw [cons_append, firstIn, if_neg (h y mem_cons_self)]
    exact ih (fun z hz => h z (mem_cons_of_mem _ hz))

theorem firstIn_eq_zero (h : ∀ y ∈ l, ¬ p y) : firstIn p l = 0 := by
  have hend := @firstIn_append_of_none p _ l [] h
  rwa [append_nil] at hend

theorem firstIn_append_of_exists (h : ∃ y ∈ l, p y) : firstIn p (l ++ l') = firstIn p l := by
  induction l with
  | nil =>
    obtain ⟨y, hy, -⟩ := h
    cases hy
  | cons y l ih =>
    rw [cons_append, firstIn, firstIn]
    by_cases hp : p y
    · rw [if_pos hp, if_pos hp]
    · rw [if_neg hp, if_neg hp]
      obtain ⟨z, hz, hpz⟩ := h
      rcases mem_cons.mp hz with rfl | hz
      · exact absurd hpz hp
      · exact ih ⟨z, hz, hpz⟩

end First

section Search

variable {α : Type} [LinearOrder α] {itStart itLast : Nat → α} {mem : RbMem α} {start last : α}
  {t l r : ColorTree Nat} {up : Ctx Nat} {c : Color} {x q y : Nat}

/-- The interval of a node intersects `[start, last]`. -/
def Intersects (itStart itLast : Nat → α) (start last : α) (y : Nat) : Prop :=
  itStart y ≤ last ∧ start ≤ itLast y

instance : DecidablePred (Intersects itStart itLast start last) :=
  fun _ => inferInstanceAs (Decidable (_ ∧ _))

variable {as bs : List Nat}

theorem not_intersects_of_sorted (hsorted : (as ++ bs).Pairwise (itStart · ≤ itStart ·))
    (hy : y ∈ as) (hlast : last < itStart y) :
    ∀ z ∈ bs, ¬ Intersects itStart itLast start last z := by
  rintro z hz ⟨hz', -⟩
  have hle := (pairwise_append.mp hsorted).2.2 y hy z hz
  exact absurd (hle.trans hz') (not_le.mpr hlast)

theorem firstIn_reaches (hsorted : (as ++ bs).Pairwise (itStart · ≤ itStart ·))
    (hreach : ∃ y ∈ as, start ≤ itLast y) :
    firstIn (Intersects itStart itLast start last) (as ++ bs) =
      firstIn (Intersects itStart itLast start last) as := by
  by_cases hmatch : ∃ y ∈ as, Intersects itStart itLast start last y
  · exact firstIn_append_of_exists hmatch
  have hnone : ∀ y ∈ as, ¬ Intersects itStart itLast start last y :=
    fun y hy hmatch' => hmatch ⟨y, hy, hmatch'⟩
  obtain ⟨y, hy, hle⟩ := hreach
  have hlast : last < itStart y := by
    by_contra hcon
    exact hnone y hy ⟨not_lt.mp hcon, hle⟩
  rw [firstIn_append_of_none hnone, firstIn_eq_zero hnone]
  exact firstIn_eq_zero (not_intersects_of_sorted hsorted hy hlast)

theorem reaches_iff (h : AugTree (computeSubtreeLast itLast) mem t) (h0 : 0 ∉ t.toList) :
    (ptr t ≠ 0 ∧ start ≤ mem.augmented (ptr t)) ↔ ∃ y ∈ t.toList, start ≤ itLast y := by
  rw [← le_treeValue]
  cases t with
  | nil => simp [ptr, treeValue]
  | node c l x r =>
    have hx : x ≠ 0 := by
      rintro rfl
      exact h0 (by simp [toList])
    rw [ptr, h.1, treeValue]
    simp [hx]

/-- `_subtree_search()` in a tree with an end that reaches `start`. -/
theorem subtreeSearch_eq (h : Repr mem q t) (haug : AugTree (computeSubtreeLast itLast) mem t)
    (h0 : 0 ∉ t.toList) (hsorted : t.toList.Pairwise (itStart · ≤ itStart ·))
    (hreach : ∃ y ∈ t.toList, start ≤ itLast y) :
    Returns (fun fuel => subtreeSearch itStart itLast mem start last fuel (ptr t))
      (firstIn (Intersects itStart itLast start last) t.toList) := by
  induction t generalizing q with
  | nil =>
    obtain ⟨y, hy, -⟩ := hreach
    cases hy
  | node c l x r ihl ihr =>
    obtain ⟨-, hxl, hxr, hl, hr⟩ := h
    obtain ⟨-, hal, har⟩ := haug
    rw [toList] at hsorted h0 ⊢
    rw [mem_append, mem_cons, not_or, not_or] at h0
    obtain ⟨hsl, hsr, -⟩ := pairwise_append.mp hsorted
    have hlt := @reaches_iff _ _ itLast mem start _ hal h0.1
    have hrt := @reaches_iff _ _ itLast mem start _ har h0.2.2
    rw [ptr]
    refine .of_succ ?_
    simp only [subtreeSearch, hxl, hxr]
    by_cases hleft : ∃ y ∈ l.toList, start ≤ itLast y
    · simp only [if_pos (hlt.mpr hleft), firstIn_reaches hsorted hleft]
      exact ihl hl hal h0.1 hsl hleft
    have hnone : ∀ y ∈ l.toList, ¬ Intersects itStart itLast start last y :=
      fun y hy hmatch => hleft ⟨y, hy, hmatch.2⟩
    simp only [if_neg (mt hlt.mp hleft), firstIn_append_of_none hnone]
    by_cases hx : itStart x ≤ last
    · simp only [if_pos hx]
      by_cases hxlast : start ≤ itLast x
      · rw [firstIn, if_pos ⟨hx, hxlast⟩]
        simp only [if_pos hxlast, Returns.of_some]
      have hno : ¬ Intersects itStart itLast start last x := fun hm => hxlast hm.2
      simp only [if_neg hxlast, firstIn, if_neg hno]
      by_cases hright : ∃ y ∈ r.toList, start ≤ itLast y
      · simp only [if_pos (hrt.mpr hright)]
        exact ihr hr har h0.2.2 (pairwise_cons.mp hsr).2 hright
      · rw [firstIn_eq_zero fun y hy hmatch => hright ⟨y, hy, hmatch.2⟩]
        simp only [if_neg (mt hrt.mp hright), Returns.of_some]
    · have hsr' : ([x] ++ r.toList).Pairwise (itStart · ≤ itStart ·) := hsr
      rw [firstIn, if_neg (fun hmatch => hx hmatch.1),
        firstIn_eq_zero (not_intersects_of_sorted hsr' mem_cons_self (not_le.mp hx))]
      simp only [if_neg hx, Returns.of_some]

theorem iterFirst_eq (h : Stored (computeSubtreeLast itLast) mem t [])
    (hsorted : t.toList.Pairwise (itStart · ≤ itStart ·)) :
    Returns (iterFirst itStart itLast mem start last)
      (firstIn (Intersects itStart itLast start last) t.toList) := by
  have hroot : mem.rootNode = ptr t := h.zip.ctx
  have h0 : 0 ∉ t.toList := fun hmem => h.ne_zero (mem_append_left _ hmem) rfl
  have htest := @reaches_iff _ _ itLast mem start _ h.aug.tree h0
  unfold iterFirst
  rw [hroot]
  by_cases hptr : ptr t = 0
  · cases eq_nil_of_ptr hptr h0
    exact .of_some 0
  simp only [if_neg hptr]
  by_cases hlt : mem.augmented (ptr t) < start
  · rw [firstIn_eq_zero fun y hy hmatch =>
      absurd (htest.mpr ⟨y, hy, hmatch.2⟩).2 (not_le.mpr hlt)]
    simp only [if_pos hlt, Returns.of_some]
  · simp only [if_neg hlt]
    exact subtreeSearch_eq h.zip.tree h.aug.tree h0 hsorted (htest.mp ⟨hptr, not_lt.mp hlt⟩)

end Search

section Climb

variable {α : Type} {mem : RbMem α} {t : ColorTree Nat} {up : Ctx Nat}

/-- The next node above a subtree: the first that the subtree is on the left of. -/
theorem climb_eq (h : Zip mem t up) (ht : ptr t ≠ 0) :
    (up.after = [] ∧ Returns (fun fuel => climb mem fuel (ptr t)) 0) ∨
      ∃ c a p s up', up.after = p :: (s.toList ++ Ctx.after up') ∧
        up.fill t = Ctx.fill up' (.node c a p s) ∧ up'.length < up.length ∧
        Returns (fun fuel => climb mem fuel (ptr t)) p := by
  have hparent : mem.rbParent (ptr t) = top up := by
    cases t with
    | nil => exact absurd rfl ht
    | node c l x r =>
      have hpc : mem.parentColor x = pack (top up) c := h.tree.1
      rw [ptr, RbMem.rbParent, hpc, wordParent_pack]
  induction up generalizing t with
  | nil => exact .inl ⟨rfl, .of_end fun fuel => if_pos hparent⟩
  | cons f up ih =>
    obtain ⟨d, c, p, s⟩ := f
    obtain ⟨hpc, hlink, hsib, -, -⟩ := h.ctx
    have hnodup := h.nodup
    simp only [Ctx.keys, nodup_cons, nodup_append_iff, mem_append,
      mem_cons, cons_append, not_or] at hnodup
    have hp0 : p ≠ 0 := .symm hnodup.1.2.1
    have hmem := ptr_mem ht
    cases d with
    | left =>
      refine .inr ⟨c, t, p, s, up, rfl, rfl, Nat.lt_succ_self _, .of_end fun fuel => ?_⟩
      have hne : ptr t ≠ mem.link .right p := by
        intro heq
        have heq : ptr t = ptr s := heq.trans hsib
        have hs : ptr s ∈ s.toList := ptr_mem (heq ▸ ht)
        exact (hnodup.2.2.2 _ hmem).2.1 (heq ▸ hs)
      rw [climb, hparent]
      exact (if_neg hp0).trans (if_neg hne)
    | right =>
      have hstep : ∀ fuel, climb mem (fuel + 1) (ptr t) = climb mem fuel p := by
        intro fuel
        rw [climb, hparent]
        exact (if_neg hp0).trans (if_pos hlink.symm)
      have hfill := zip_cons.mp h
      have hp : mem.rbParent (ptr (.mk .right c t p s)) = top up := by
        rw [ptr_mk, RbMem.rbParent, hpc, wordParent_pack]
      rcases ih hfill (by rwa [Frame.fill, ptr_mk]) hp with ⟨hnil, hrun⟩ | hfound
      · exact .inl ⟨hnil, hrun.of_pass hstep⟩
      · obtain ⟨c', a, p', s', up', hafter, hfill', hlen, hrun⟩ := hfound
        exact .inr ⟨c', a, p', s', up', hafter, hfill', Nat.lt_succ_of_lt hlen, hrun.of_pass hstep⟩

end Climb

section Next

variable {α : Type} [LinearOrder α] {itStart itLast : Nat → α} {mem : RbMem α}
  {start last : α} {t l r : ColorTree Nat} {up : Ctx Nat} {c : Color} {x : Nat}

theorem sorted_after
    (h : (up.fill (.node c l x r)).toList.Pairwise (itStart · ≤ itStart ·)) :
    (x :: (r.toList ++ up.after)).Pairwise (itStart · ≤ itStart ·) := by
  rw [Ctx.toList_fill_eq, toList, append_assoc] at h
  exact (pairwise_append.mp (pairwise_append.mp h).2.1).2.1

theorem iterNext_eq (h : Stored (computeSubtreeLast itLast) mem (.node c l x r) up)
    (hsorted : (up.fill (.node c l x r)).toList.Pairwise (itStart · ≤ itStart ·)) :
    Returns (fun fuel => iterNext itStart itLast mem start last fuel x)
      (firstIn (Intersects itStart itLast start last) (r.toList ++ up.after)) := by
  induction hup : up.length using Nat.strongRecOn generalizing up c l x r with
  | ind k ih =>
    subst hup
    obtain ⟨-, hafter⟩ := pairwise_cons.mp (sorted_after hsorted)
    obtain ⟨-, -, hxr, -, hr⟩ := h.zip.tree
    have hx0 : x ≠ 0 := h.ne_zero (by simp [toList])
    have hr0 : 0 ∉ r.toList := fun hmem => h.ne_zero (by simp [toList, hmem]) rfl
    have htest := @reaches_iff _ _ itLast mem start _ h.aug.tree.2.2 hr0
    refine .of_succ ?_
    simp only [iterNext, hxr]
    by_cases hright : ∃ y ∈ r.toList, start ≤ itLast y
    · simp only [if_pos (htest.mpr hright), firstIn_reaches hafter hright]
      exact subtreeSearch_eq hr h.aug.tree.2.2 hr0 (pairwise_append.mp hafter).1 hright
    have hnone : ∀ y ∈ r.toList, ¬ Intersects itStart itLast start last y :=
      fun y hy hmatch => hright ⟨y, hy, hmatch.2⟩
    simp only [if_neg (mt htest.mp hright), firstIn_append_of_none hnone]
    rcases climb_eq h.zip hx0 with ⟨hnil, hrun⟩ | hfound
    · rw [hnil]
      exact hrun.bind (.of_some 0)
    obtain ⟨c', a, p, s, up', hnext, hfill, hshort, hrun⟩ := hfound
    have hstored : Stored (computeSubtreeLast itLast) mem (.node c' a p s) up' := by
      rw [stored_fill, ← hfill]
      exact stored_fill.mp h
    have hp0 : p ≠ 0 := hstored.ne_zero (by simp [toList])
    rw [hfill] at hsorted
    have hps := sorted_after hsorted
    rw [hnext]
    refine hrun.bind ?_
    simp only [if_neg hp0]
    by_cases hlast : last < itStart p
    · have hps : ([p] ++ (s.toList ++ up'.after)).Pairwise (itStart · ≤ itStart ·) := hps
      have hno : ¬ Intersects itStart itLast start last p :=
        fun hmatch => absurd hmatch.1 (not_le.mpr hlast)
      rw [firstIn, if_neg hno, firstIn_eq_zero (not_intersects_of_sorted hps mem_cons_self hlast)]
      simp only [if_pos hlast]
      exact .of_some 0
    simp only [if_neg hlast, firstIn]
    by_cases hplast : start ≤ itLast p
    · rw [if_pos ⟨not_lt.mp hlast, hplast⟩]
      simp only [if_pos hplast]
      exact .of_some p
    · have hno : ¬ Intersects itStart itLast start last p := fun hmatch => hplast hmatch.2
      simp only [if_neg hplast, if_neg hno]
      exact ih up'.length hshort hstored hsorted rfl

theorem iterFrom_eq (h : Stored (computeSubtreeLast itLast) mem t [])
    (hsorted : t.toList.Pairwise (itStart · ≤ itStart ·)) {pre post : List Nat}
    (hsplit : t.toList = pre ++ post) :
    Returns (fun fuel => iterFrom itStart itLast mem start last fuel
        (firstIn (Intersects itStart itLast start last) post))
      (post.filter (Intersects itStart itLast start last)) := by
  induction post generalizing pre with
  | nil => exact .of_end fun fuel => rfl
  | cons y post ih =>
    have hsplit' : t.toList = (pre ++ [y]) ++ post := by
      rw [hsplit, append_assoc]
      rfl
    by_cases hmatch : Intersects itStart itLast start last y
    · have hy : y ∈ t.toList := by simp [hsplit]
      have hy0 : y ≠ 0 := h.ne_zero (mem_append_left _ hy)
      have hnodup := h.fill_nodup
      obtain ⟨up, c, l, r, hfill⟩ := Ctx.exists_fill hy
      -- The nodes after `y` in the tree are those of `post`.
      have hpost : r.toList ++ up.after = post := by
        have hlist := hsplit
        rw [hfill, Ctx.toList_fill_eq, toList, append_assoc, ← append_assoc] at hlist
        rw [Ctx.fill, hsplit] at hnodup
        obtain ⟨-, hcons, hdisj⟩ := (nodup_append_iff _ _).mp hnodup
        have hpre : y ∉ pre := fun hmem => hdisj y hmem mem_cons_self
        have hpost : y ∉ post := (nodup_cons.mp hcons).1
        exact ((append_cons_inj_of_notMem hpre hpost).mp hlist.symm).2.2.symm
      rw [firstIn, if_pos hmatch, filter_cons_of_pos (by simpa using hmatch)]
      refine .of_succ ?_
      simp only [iterFrom, if_neg hy0]
      refine .bind ?_ ((ih hsplit').bind (.of_some _))
      rw [hfill] at h hsorted
      exact hpost ▸ iterNext_eq (stored_fill.mpr h) hsorted
    · rw [firstIn, if_neg hmatch, filter_cons_of_neg (by simpa using hmatch)]
      exact ih hsplit'

end Next

/-- An interval tree in memory, with the nodes that are in it. -/
structure ItState (α : Type) where
  mem : RbMem α
  itStart : Nat → α
  itLast : Nat → α
  nodes : List Nat

namespace ItState

variable {α : Type} [LinearOrder α]

def Init (st : ItState α) : Prop :=
  st.mem.rootNode = 0 ∧ st.nodes = []

inductive Step : ItState α → ItState α → Prop where
  | assign {st : ItState α} {x : Nat} {start last : α} (hx : x ∉ st.nodes) :
      Step st { st with
        itStart := update st.itStart x start
        itLast := update st.itLast x last }
  | insert {st : ItState α} {x : Nat} {mem' : RbMem α} (hx0 : x ≠ 0) (hx : x ∉ st.nodes)
      (hrun : Returns (fun fuel => itInsert st.itStart st.itLast fuel st.mem x) mem') :
      Step st { st with mem := mem', nodes := x :: st.nodes }
  | remove {st : ItState α} {x : Nat} {mem' : RbMem α} (hx : x ∈ st.nodes)
      (hrun : Returns (fun fuel => itRemove st.itLast fuel st.mem x) mem') :
      Step st { st with mem := mem', nodes := st.nodes.erase x }

inductive Reachable : ItState α → Prop where
  | init {st : ItState α} (h : st.Init) : Reachable st
  | step {st st' : ItState α} (h : Reachable st) (hstep : Step st st') : Reachable st'

/-- The memory holds the tree of the nodes. -/
structure Holds (st : ItState α) (t : ColorTree Nat) : Prop where
  rbTree : RbTree (computeSubtreeLast st.itLast) st.mem t
  sorted : t.toList.Pairwise (fun y z => st.itStart y ≤ st.itStart z)
  perm : t.toList.Perm st.nodes

end ItState

variable {α : Type} [LinearOrder α] {itLast itLast' : Nat → α} {mem : RbMem α}
  {t : ColorTree Nat} {st st' : ItState α}

theorem treeValue_congr (h : ∀ y ∈ t.toList, itLast' y = itLast y) :
    treeValue (computeSubtreeLast itLast') t = treeValue (computeSubtreeLast itLast) t := by
  induction t with
  | nil => rfl
  | node c l x r ihl ihr =>
    rw [treeValue, treeValue, ihl (fun y hy => h y (by simp [toList, hy])),
      ihr (fun y hy => h y (by simp [toList, hy])), computeSubtreeLast,
      computeSubtreeLast, h x (by simp [toList])]

theorem augTree_congr (h : ∀ y ∈ t.toList, itLast' y = itLast y)
    (ht : AugTree (computeSubtreeLast itLast) mem t) :
    AugTree (computeSubtreeLast itLast') mem t := by
  induction t with
  | nil => trivial
  | node c l x r ihl ihr =>
    obtain ⟨hx, hl, hr⟩ := ht
    refine ⟨?_, ihl (fun y hy => h y (by simp [toList, hy])) hl,
      ihr (fun y hy => h y (by simp [toList, hy])) hr⟩
    have hvalue := treeValue_congr h
    rw [treeValue, treeValue] at hvalue
    rw [hx, Option.some.inj hvalue]

variable {x : Nat}

theorem ItState.Holds.assign (h : st.Holds t) (hx : x ∉ st.nodes) (start last : α) :
    ItState.Holds { st with
      itStart := update st.itStart x start
      itLast := update st.itLast x last } t := by
  obtain ⟨⟨⟨hzip, haug, -⟩, hbal⟩, hsorted, hperm⟩ := h
  have hne : ∀ y ∈ t.toList, y ≠ x := by
    rintro y hy rfl
    exact hx (hperm.mem_iff.mp hy)
  have hstart : ∀ y ∈ t.toList, update st.itStart x start y = st.itStart y :=
    fun y hy => update_of_ne (hne y hy) _ _
  have hlast : ∀ y ∈ t.toList, update st.itLast x last y = st.itLast y :=
    fun y hy => update_of_ne (hne y hy) _ _
  refine ⟨⟨⟨hzip, augTree_congr hlast haug, trivial⟩, hbal⟩, ?_, hperm⟩
  refine hsorted.imp_of_mem (fun hy hz hle => ?_)
  exact (hstart _ hy).trans_le (hle.trans_eq (hstart _ hz).symm)

theorem ItState.Holds.insert (h : st.Holds t) (hx0 : x ≠ 0) (hx : x ∉ st.nodes) :
    ∃ mem' t', Returns (fun fuel => itInsert st.itStart st.itLast fuel st.mem x) mem' ∧
      ItState.Holds { st with mem := mem', nodes := x :: st.nodes } t' := by
  rw [← h.perm.mem_iff] at hx
  obtain ⟨mem', t', hrun, htree, hsorted, hperm⟩ := itInsert_rbTree h.rbTree h.sorted hx0 hx
  exact ⟨mem', t', hrun, htree, hsorted, hperm.trans (h.perm.cons x)⟩

theorem ItState.Holds.remove (h : st.Holds t) (hx : x ∈ st.nodes) :
    ∃ mem' t', Returns (fun fuel => itRemove st.itLast fuel st.mem x) mem' ∧
      ItState.Holds { st with mem := mem', nodes := st.nodes.erase x } t' := by
  rw [← h.perm.mem_iff] at hx
  obtain ⟨mem', t', hrun, htree, hlist⟩ := rbEraseWith_rbTree itAugment_lawful h.rbTree hx
  refine ⟨mem', t', hrun, htree, ?_, ?_⟩
  · rw [hlist]
    exact h.sorted.sublist erase_sublist
  · rw [hlist]
    exact h.perm.erase x

theorem ItState.Step.holds (hstep : ItState.Step st st') (h : st.Holds t) : ∃ t', st'.Holds t' := by
  cases hstep with
  | assign hx => exact ⟨t, h.assign hx _ _⟩
  | insert hx0 hx hrun =>
    obtain ⟨mem₁, t', hrun', hholds⟩ := h.insert hx0 hx
    cases hrun.unique hrun'
    exact ⟨t', hholds⟩
  | remove hx hrun =>
    obtain ⟨mem₁, t', hrun', hholds⟩ := h.remove hx
    cases hrun.unique hrun'
    exact ⟨t', hholds⟩

theorem ItState.Reachable.holds (h : st.Reachable) : ∃ t, st.Holds t := by
  induction h with
  | init h =>
    obtain ⟨hroot, hnodes⟩ := h
    refine ⟨.nil, ⟨⟨⟨trivial, hroot, ?_⟩, trivial, trivial⟩, 0, .nil⟩, .nil, ?_⟩
    · simp [toList, Ctx.keys]
    · rw [hnodes]
      exact .nil
  | step _ hstep ih =>
    obtain ⟨t, ht⟩ := ih
    exact hstep.holds ht

/-- After any run each node holds the largest end of its subtree, and a search returns the
intervals that intersect the given one, each once and in tree order. -/
theorem it_reachable (h : st.Reachable) :
    ∃ t, Zip st.mem t [] ∧ t.toList.Perm st.nodes ∧
      t.toList.Pairwise (fun y z => st.itStart y ≤ st.itStart z) ∧
      (∀ up c l x r, t = Ctx.fill up (.node c l x r) →
        IsGreatest {v | ∃ y ∈ (ColorTree.node c l x r).toList, st.itLast y = v}
          (st.mem.augmented x)) ∧
      (∀ start last, start ≤ last → Returns (iterAll st.itStart st.itLast st.mem start last)
          (t.toList.filter (Intersects st.itStart st.itLast start last))) ∧
      (∀ x, x ≠ 0 → x ∉ st.nodes →
        ∃ mem', Returns (fun fuel => itInsert st.itStart st.itLast fuel st.mem x) mem') ∧
      ∀ x ∈ st.nodes, ∃ mem', Returns (fun fuel => itRemove st.itLast fuel st.mem x) mem' := by
  obtain ⟨t, ht⟩ := h.holds
  refine ⟨t, ht.rbTree.stored.zip, ht.perm, ht.sorted, ?_, ?_, ?_, ?_⟩
  · rintro up c l x r rfl
    have hx : st.mem.augmented x = _ := (stored_fill.mpr ht.rbTree.stored).aug.tree.1
    rw [hx]
    exact isGreatest_treeValue rfl
  · intro start last _
    have hst := ht.rbTree.stored
    exact (iterFirst_eq hst ht.sorted).bind (iterFrom_eq hst ht.sorted (nil_append _).symm)
  · intro x hx0 hx
    obtain ⟨mem', t', hrun, -⟩ := ht.insert hx0 hx
    exact ⟨mem', hrun⟩
  · intro x hx
    obtain ⟨mem', t', hrun, -⟩ := ht.remove hx
    exact ⟨mem', hrun⟩

/-- Two intervals, `[0, 4]` and `[2, 3]`, and a search for `[1, 1]`. -/
theorem it_reachable_pair :
    ∃ st : ItState Nat, st.Reachable ∧ st.nodes = [2, 1] ∧
      Returns (iterAll st.itStart st.itLast st.mem 1 1) [1] := by
  have h₀ : ItState.Reachable ⟨⟨fun _ => 0, fun _ _ => 0, 0, fun _ => 0⟩,
      fun x => if x = 1 then 0 else 2, fun x => if x = 1 then 4 else 3, []⟩ :=
    .init ⟨rfl, rfl⟩
  have h₁ := h₀.step (.insert (x := 1) (by decide) (by decide) ⟨1, fun fuel hfuel => by
      obtain ⟨n, rfl⟩ := Nat.exists_eq_add_of_le' hfuel
      rfl⟩)
  have h₂ := h₁.step (.insert (x := 2) (by decide) (by decide) ⟨2, fun fuel hfuel => by
      obtain ⟨n, rfl⟩ := Nat.exists_eq_add_of_le' hfuel
      rfl⟩)
  refine ⟨_, h₂, rfl, ?_⟩
  obtain ⟨t, -, hperm, -, -, hsearch, -⟩ := it_reachable h₂
  have hperm : t.toList.Perm [2, 1] := hperm
  have hone : t.toList.filter (Intersects (fun x => if x = 1 then 0 else 2)
      (fun x => if x = 1 then 4 else 3) 1 1) = [1] := perm_singleton.mp (hperm.filter _)
  rw [← hone]
  exact hsearch 1 1 le_rfl

end LinuxKernel.Rbtree
