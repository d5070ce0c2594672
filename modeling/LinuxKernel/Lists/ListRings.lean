import LinuxKernel.Lib.Ring
import LinuxKernel.Lists.ListHead

/-!
# The writes of the list operations on rings

What each of the functions of `list.h` with pointer writes does to the rings at hand.
The rings are read from the node where they are cut, so that the cases of empty and
singleton lists are not special.
-/

namespace LinuxKernel.Lists

open Lib List

namespace ListMem

variable {mem : ListMem} {s u : List Nat} {x f z : Nat}

@[simp] theorem next_setNext (mem : ListMem) (x y w : Nat) :
    (mem.setNext x y).next w = if w = x then y else mem.next w :=
  Function.update_apply mem.next x y w

@[simp] theorem prev_setNext (mem : ListMem) (x y : Nat) : (mem.setNext x y).prev = mem.prev :=
  rfl

@[simp] theorem next_setPrev (mem : ListMem) (x y : Nat) : (mem.setPrev x y).next = mem.next :=
  rfl

@[simp] theorem prev_setPrev (mem : ListMem) (x y w : Nat) :
    (mem.setPrev x y).prev w = if w = x then y else mem.prev w :=
  Function.update_apply mem.prev x y w

/-- The nodes of the sequence form a ring in memory. -/
abbrev IsRing (mem : ListMem) (s : List Nat) : Prop :=
  Ring mem.next mem.prev s

/-- The pointers of a node are the same in both memories. -/
def Same (mem mem' : ListMem) (x : Nat) : Prop :=
  mem'.next x = mem.next x ∧ mem'.prev x = mem.prev x

/-- Of the pointers only the outer ones of the chains differ. -/
abbrev Rewired (mem mem' : ListMem) (chains : List (List Nat)) : Prop :=
  Lib.Rewired mem.next mem.prev mem'.next mem'.prev chains

theorem IsRing.listEmpty_eq (h : mem.IsRing (x :: s)) (hnodup : (x :: s).Nodup) :
    mem.listEmpty x = s.isEmpty := by
  cases s with
  | nil =>
    have hnext := (ring_singleton.mp h).1
    simp [listEmpty, hnext]
  | cons e es =>
    obtain ⟨hlink, -⟩ := isChain_cons_cons.mp h.chain
    have hne : e ≠ x := fun heq => (nodup_cons.mp hnodup).1 (heq ▸ mem_cons_self)
    simp [listEmpty, hlink.1, hne]

theorem isRing_init (mem : ListMem) (x : Nat) : (mem.initListHead x).IsRing [x] := by
  refine ring_singleton.mpr ⟨?_, ?_⟩
  · simp [initListHead]
  · simp [initListHead]

theorem rewired_write (mem : ListMem) (x p q : Nat) :
    mem.Rewired ((mem.setNext x p).setPrev x q) [[x]] := by
  constructor
  · intro y hy
    simp_all
  · intro y hy
    simp_all

section Add

variable {new : Nat} (hf : s.head? = some f) (hz : s.getLast? = some z)

include hf hz

theorem rewired_addBetween : mem.Rewired (mem.listAddBetween new z f) [[new], s] := by
  constructor
  all_goals
    intro y hy
    simp_all [listAddBetween]

theorem IsRing.addBetween (h : mem.IsRing s) (hnodup : [[new], s].flatten.Nodup) :
    (mem.listAddBetween new z f).IsRing (new :: s) := by
  have hchain := (rewired_addBetween hf hz).chained hnodup (by simp) h.chain
  obtain ⟨hnew, -⟩ := nodup_cons.mp hnodup
  have hnf : f ≠ new := fun heq => hnew (by simp [← heq, mem_of_head? hf])
  have hnz : new ≠ z := fun heq => hnew (by simp [heq, mem_of_getLast? hz])
  refine (ring_cons hf hz).mpr ⟨hchain, ⟨?_, ?_⟩, ⟨?_, ?_⟩⟩
  · simp [listAddBetween, hnz]
  · simp [listAddBetween, hnf]
  · simp [listAddBetween]
  · simp [listAddBetween]

end Add

section First

variable {new : Nat} (h : mem.IsRing (x :: s))

include h

theorem IsRing.rewired_delEntry : mem.Rewired (mem.listDelEntry x) [[x], s] := by
  obtain ⟨hnext, hprev⟩ := h.links_mem
  constructor
  · intro y hy
    have hne : y ≠ mem.prev x := fun heq => hy (heq ▸ hprev)
    simp [listDelEntry, listDelBetween, hne]
  · intro y hy
    have hne : y ≠ mem.next x := fun heq => hy (heq ▸ hnext)
    simp [listDelEntry, listDelBetween, hne]

theorem IsRing.delEntry (hnodup : [[x], s].flatten.Nodup) (hs : s ≠ []) :
    (mem.listDelEntry x).IsRing s := by
  obtain ⟨f, z, hf, hz, -⟩ := exists_ends hs
  obtain ⟨hchain, ⟨hnext, -⟩, ⟨-, hprev⟩⟩ := (ring_cons hf hz).mp h
  refine ring_of_ends hf hz (h.rewired_delEntry.chained hnodup (by simp) hchain) ⟨?_, ?_⟩
  all_goals simp [listDelEntry, listDelBetween, hnext, hprev]

theorem IsRing.rewired_replace : mem.Rewired (mem.listReplace x new) [[new], [x], s] := by
  obtain ⟨hnext, hprev⟩ := h.links_mem
  constructor
  · intro y hy
    have hne : y ≠ mem.prev x := fun heq => hy (mem_append_right [new] (heq ▸ hprev))
    have hnew : y ≠ new := fun heq => hy (heq ▸ mem_cons_self)
    by_cases hx : x = mem.next x
    · simp [listReplace, ← hx, hnew]
    · simp [listReplace, hx, hnew, hne]
  · intro y hy
    have hne : y ≠ mem.next x := fun heq => hy (mem_append_right [new] (heq ▸ hnext))
    have hnew : y ≠ new := fun heq => hy (heq ▸ mem_cons_self)
    simp [listReplace, hnew, hne]

theorem IsRing.replace (hnodup : [[new], [x], s].flatten.Nodup) :
    (mem.listReplace x new).IsRing (new :: s) := by
  by_cases hs : s = []
  · -- An empty list is overwritten while it is replaced.
    subst hs
    obtain ⟨hnext, hprev⟩ := ring_singleton.mp h
    refine ring_singleton.mpr ⟨?_, ?_⟩
    · simp [listReplace, hnext]
    · simp [listReplace, hnext]
  obtain ⟨f, z, hf, hz, hfs, hzs⟩ := exists_ends hs
  obtain ⟨hchain, ⟨hnext, -⟩, ⟨-, hprev⟩⟩ := (ring_cons hf hz).mp h
  have hkept := h.rewired_replace.chained hnodup (by simp) hchain
  have hout : ∀ y ∈ s, y ≠ new ∧ y ≠ x := by
    rintro y hy
    constructor
    all_goals
      rintro rfl
      simp [hy] at hnodup
  refine (ring_cons hf hz).mpr ⟨hkept, ⟨?_, ?_⟩, ⟨?_, ?_⟩⟩
  · simp [listReplace, hnext, hprev, (hout f hfs).2.symm, (hout z hzs).1.symm]
  · simp [listReplace, hnext, (hout f hfs).1]
  all_goals simp [listReplace, hnext, hprev, (hout f hfs).2.symm]

end First

section Splice

variable {list : Nat} (hlist : mem.IsRing (list :: u)) (hu : u ≠ []) (hf : s.head? = some f)
  (hz : s.getLast? = some z)

include hlist hu hf hz

theorem IsRing.rewired_spliceBetween : mem.Rewired (mem.listSpliceBetween list z f) [u, s] := by
  obtain ⟨f', z', hf', hz', -⟩ := exists_ends hu
  obtain ⟨-, ⟨hnext, -⟩, ⟨-, hprev⟩⟩ := (ring_cons hf' hz').mp hlist
  constructor
  all_goals
    intro y hy
    simp_all [listSpliceBetween]

theorem IsRing.spliceBetween (h : mem.IsRing s) (hnodup : [u, s].flatten.Nodup) :
    (mem.listSpliceBetween list z f).IsRing (u ++ s) := by
  obtain ⟨f', z', hf', hz', hfu, hzu⟩ := exists_ends hu
  obtain ⟨hchain, ⟨hnext, -⟩, ⟨-, hprev⟩⟩ := (ring_cons hf' hz').mp hlist
  have hrew := hlist.rewired_spliceBetween hu hf hz
  have hfs := mem_of_head? hf
  have hdisj : ∀ x ∈ u, ∀ y ∈ s, x ≠ y := by simpa using (nodup_append.mp hnodup).2.2
  have hzz : z ≠ z' := (hdisj z' hzu z (mem_of_getLast? hz)).symm
  have hff : f' ≠ f := hdisj f' hfu f hfs
  refine (ring_append hu (ne_nil_of_mem hfs)).mpr ⟨hrew.chained hnodup (by simp) hchain,
    hrew.chained hnodup (by simp) h.chain, ?_, ?_⟩
  · rw [hz', hf]
    rintro _ ⟨⟩ _ ⟨⟩
    constructor
    all_goals simp [listSpliceBetween, hprev]
  · rw [hz, hf']
    rintro _ ⟨⟩ _ ⟨⟩
    constructor
    · simp [listSpliceBetween, hnext, hprev, hzz]
    · simp [listSpliceBetween, hnext, hff]

end Splice

section Cut

variable {list head entry : Nat} (h : mem.IsRing (u ++ s)) (hentry : u.getLast? = some entry)
  (hhead : s.getLast? = some head)

include h hentry hhead

theorem IsRing.listCutAt_eq :
    ∃ f f', u.head? = some f ∧ s.head? = some f' ∧ mem.listCutAt list head entry =
      (((((mem.setNext list f).setPrev f list).setPrev list entry).setNext entry
        list).setNext head f').setPrev f' head := by
  have hu : u ≠ [] := ne_nil_of_mem (mem_of_getLast? hentry)
  have hs : s ≠ [] := ne_nil_of_mem (mem_of_getLast? hhead)
  obtain ⟨f, -, hf, -⟩ := exists_ends hu
  obtain ⟨f', -, hf', -⟩ := exists_ends hs
  obtain ⟨-, -, hmid, hclose⟩ := (ring_append hu hs).mp h
  refine ⟨f, f', hf, hf', ?_⟩
  simp [listCutAt, (hmid entry hentry f' hf').1, (hclose head hhead f hf).1]

theorem IsRing.rewired_cutAt : mem.Rewired (mem.listCutAt list head entry) [[list], u, s] := by
  obtain ⟨f, f', hf, hf', hrun⟩ := h.listCutAt_eq hentry hhead
  rw [hrun]
  constructor
  · intro y hy
    simp_all
  · intro y hy
    simp_all

/-- `__list_cut_position()` closes both parts of a ring, one by `list`. -/
theorem IsRing.cutAt (hnodup : [[list], u, s].flatten.Nodup) :
    (mem.listCutAt list head entry).IsRing (list :: u) ∧
      (mem.listCutAt list head entry).IsRing s := by
  have hrew : mem.Rewired _ [[list], u, s] := h.rewired_cutAt hentry hhead
  obtain ⟨hcu, hcs, -⟩ := isChain_append.mp h.chain
  replace hcu := hrew.chained hnodup (by simp) hcu
  replace hcs := hrew.chained hnodup (by simp) hcs
  obtain ⟨f, f', hf, hf', hrun⟩ := @listCutAt_eq _ _ _ list _ _ h hentry hhead
  rw [hrun] at hcu hcs ⊢
  have heu := mem_of_getLast? hentry
  have hhs := mem_of_getLast? hhead
  have hfu := mem_of_head? hf
  have hfs := mem_of_head? hf'
  simp only [flatten_cons, flatten_nil, append_nil, nodup_cons, nodup_append, mem_append,
    not_or, cons_append, nil_append] at hnodup
  obtain ⟨hl, -, -, hdisj⟩ := hnodup
  have hle : list ≠ entry := fun heq => hl.1 (heq ▸ heu)
  have hlh : list ≠ head := fun heq => hl.2 (heq ▸ hhs)
  have hlf : f ≠ list := fun heq => hl.1 (heq ▸ hfu)
  have hlf' : list ≠ f' := fun heq => hl.2 (heq ▸ hfs)
  have heh : entry ≠ head := hdisj entry heu head hhs
  have hff : f ≠ f' := hdisj f hfu f' hfs
  refine ⟨(ring_cons hf hentry).mpr ⟨hcu, ⟨?_, ?_⟩, ⟨?_, ?_⟩⟩, ring_of_ends hf' hhead hcs ⟨?_, ?_⟩⟩
  · simp [hlh, hle]
  · simp [hff, hlf]
  · simp [heh]
  · simp [hlf']
  · simp
  · simp

end Cut

end ListMem

end LinuxKernel.Lists
