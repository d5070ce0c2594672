import LinuxKernel.Lists.PlistInv

/-!
# Every sequence of operations on a plist

What holds of a plist after any sequence of operations.  The nodes of the plist, in the order of
their arrival, are the specification: `node_list` is that order, sorted by priority and stable.
-/

namespace LinuxKernel.Lists

open Lib List

section Same

variable {mem mem' : ListMem} {known : Nat → Prop} {s : List Nat} {x : Nat}

theorem same_of_rings (h : mem.IsRing s) (h' : mem'.IsRing s) (hx : x ∈ s) : mem.Same mem' x := by
  obtain ⟨a, b, rfl⟩ := append_of_mem hx
  have hfront : (a ++ x :: b) ~r (x :: (b ++ a)) := @isRotated_append _ a (x :: b)
  have hback : (x :: (b ++ a)) ~r (b ++ a ++ [x]) := @isRotated_append _ [x] (b ++ a)
  obtain ⟨f, -, hf, -⟩ := @exists_ends _ (b ++ a ++ [x]) (by simp)
  obtain ⟨-, z, -, hz, -⟩ := @exists_ends _ (x :: (b ++ a)) (by simp)
  have hlast : (b ++ a ++ [x]).getLast? = some x := getLast?_concat
  have hr := h.of_isRotated hfront
  have hr' := h'.of_isRotated hfront
  constructor
  · rw [((hr'.of_isRotated hback).ends hf hlast).1, ((hr.of_isRotated hback).ends hf hlast).1]
  · rw [(hr'.ends rfl hz).2, (hr.ends rfl hz).2]

theorem Strand.same (h : Strand mem known s) (h' : Strand mem' known s) (hx : known x ∨ x ∈ s) :
    mem.Same mem' x := by
  by_cases hs : x ∈ s
  · have hne := ne_nil_of_mem hs
    exact same_of_rings (h.ring hne) (h'.ring hne) hs
  · have hknown := hx.resolve_right hs
    exact same_of_rings (h.alone x hknown hs) (h'.alone x hknown hs) (mem_singleton.mpr rfl)

theorem Strand.represents (h : Strand mem known s) (hne : s ≠ []) : Represents mem [s] := by
  refine WellFormed.represents ⟨fun t ht => ?_, ?_⟩
  · obtain rfl := mem_singleton.mp ht
    exact ⟨hne, h.ring hne⟩
  · rw [flatten_singleton]
    exact h.nodup

end Same

/-- The order of a plist with the nodes `es`. -/
structure PlistOrdered (mem : PlistMem) (head : Nat) (use : PlistUse) (es : List Nat) : Prop where
  nodeList : Represents mem.nodeList [head :: es]
  perm : es.Perm use.arrivals
  sorted : es.Pairwise fun m n => mem.prio m ≤ mem.prio n
  fifo : ∀ p, es.filter (fun n => mem.prio n = p) = use.arrivals.filter fun n => mem.prio n = p
  prioList : es ≠ [] → Represents mem.prioList [leaders mem.prio es]
  others : ∀ n ∈ use.known, n ∉ leaders mem.prio es → Represents mem.prioList [[n]]

/-- The nodes are linked in the same way. -/
structure PlistSame (mem mem' : PlistMem) (head : Nat) (use : PlistUse) : Prop where
  head : mem.nodeList.Same mem'.nodeList head
  nodeList : ∀ n ∈ use.known, mem.nodeList.Same mem'.nodeList n
  prioList : ∀ n ∈ use.known, mem.prioList.Same mem'.prioList n

/-- A plist holds the nodes that came, those of one priority in that order. -/
structure PlistInv (mem : PlistMem) (head : Nat) (use : PlistUse) (es : List Nat) : Prop where
  holds : PlistHolds mem head use.known es
  nodup : use.arrivals.Nodup
  fifo : ∀ p, es.filter (fun n => mem.prio n = p) = use.arrivals.filter fun n => mem.prio n = p

namespace PlistInv

variable {mem mem' : PlistMem} {head node : Nat} {use : PlistUse} {es : List Nat}

theorem mem_iff (h : PlistInv mem head use es) : node ∈ es ↔ node ∈ use.arrivals := by
  have hfilter : node ∈ es.filter (fun n => mem.prio n = mem.prio node) ↔
      node ∈ use.arrivals.filter fun n => mem.prio n = mem.prio node := by
    rw [h.fifo]
  simpa using hfilter

theorem ordered (h : PlistInv mem head use es) : PlistOrdered mem head use es where
  nodeList := h.holds.nodes.represents (cons_ne_nil _ _)
  perm := (perm_ext_iff_of_nodup h.holds.nodup h.nodup).mpr fun _ => h.mem_iff
  sorted := h.holds.sorted
  fifo := h.fifo
  prioList := fun hne => h.holds.leaders.represents fun hnil => hne (leaders_eq_nil_iff.mp hnil)
  others := fun n hn hout => WellFormed.represents ⟨forall_mem_singleton.mpr
    ⟨cons_ne_nil _ _, h.holds.leaders.alone n hn hout⟩, nodup_singleton n⟩

section Steps

variable (h : PlistInv mem head use es)

include h

theorem nodeInit {prio : Int} (hhead : node ≠ head) (hout : node ∉ use.arrivals) :
    PlistInv (mem.plistNodeInit node prio) head (use.step (.nodeInit node prio)) es := by
  have hes : node ∉ es := fun hmem => hout (h.mem_iff.mp hmem)
  have hprio : ∀ n ∈ es, (mem.plistNodeInit node prio).prio n = mem.prio n := by
    intro n hn
    have hne : n ≠ node := fun heq => hes (heq ▸ hn)
    exact Function.update_of_ne hne prio mem.prio
  have hprio' : ∀ n ∈ use.arrivals, (mem.plistNodeInit node prio).prio n = mem.prio n :=
    fun n hn => hprio n (h.mem_iff.mpr hn)
  have hknown : ∀ n, (n ∈ node :: use.known) = (n = node ∨ n ∈ use.known) := fun n =>
    propext mem_cons
  refine ⟨⟨?_, ?_, ?_, ?_, ?_⟩, h.nodup, fun p => ?_⟩
  · simp only [PlistUse.step, hknown]
    refine h.holds.nodes.init ?_
    rw [mem_cons, not_or]
    exact ⟨hhead, hes⟩
  · rw [leaders_congr hprio]
    simp only [PlistUse.step, hknown]
    exact h.holds.leaders.init fun hmem => hes ((leaders_sublist mem.prio es).subset hmem)
  · exact h.holds.sorted.imp_of_mem fun hm hn hle => by rwa [hprio _ hm, hprio _ hn]
  · exact fun n hn => mem_cons_of_mem node (h.holds.subset n hn)
  · rw [PlistUse.step, mem_cons, not_or]
    exact ⟨Ne.symm hhead, h.holds.head⟩
  · rw [filter_congr fun n hn => by rw [hprio n hn], h.fifo p]
    exact filter_congr fun n hn => by rw [hprio' n hn]

theorem filter_erase (p : Int) :
    (es.erase node).filter (fun n => mem.prio n = p) =
      (use.arrivals.erase node).filter fun n => mem.prio n = p := by
  rw [h.holds.nodup.erase_eq_filter, h.nodup.erase_eq_filter, filter_comm, h.fifo p, filter_comm]

theorem split (hmem : node ∈ use.arrivals) :
    ∃ a b, es = a ++ node :: b ∧ es.erase node = a ++ b := by
  obtain ⟨a, b, hes⟩ := append_of_mem (h.mem_iff.mpr hmem)
  refine ⟨a, b, hes, ?_⟩
  have hnodup := h.holds.nodup
  rw [hes] at hnodup ⊢
  have ha : node ∉ a := fun hin =>
    (nodup_cons.mp (nodup_middle.mp hnodup)).1 (mem_append_left b hin)
  rw [erase_append_right _ ha, erase_cons_head]

theorem add (hknown : node ∈ use.known) (hout : node ∉ use.arrivals) :
    ∃ mem', Returns (mem.plistAdd node head) mem' ∧ mem'.prio = mem.prio ∧
      PlistInv mem' head (use.step (.add node)) (insertLast mem.prio node es) := by
  have hes : node ∉ es := fun hmem => hout (h.mem_iff.mp hmem)
  obtain ⟨mem', hrun, hprio, hholds⟩ := h.holds.plistAdd hknown hes
  refine ⟨mem', hrun, hprio, hholds, ?_, fun p => ?_⟩
  · have hnodup := h.nodup.concat hout
    rwa [concat_eq_append] at hnodup
  · rw [hprio, filter_insertLast h.holds.sorted, filter_append, h.fifo p, ← filter_append]
    rfl

theorem del (hmem : node ∈ use.arrivals) :
    PlistInv (mem.plistDel node head) head (use.step (.del node)) (es.erase node) := by
  obtain ⟨a, b, hes, herase⟩ := h.split hmem
  have hholds := h.holds
  rw [hes] at hholds
  refine ⟨?_, h.nodup.erase node, fun p => ?_⟩
  · rw [herase]
    exact hholds.plistDel
  · rw [PlistHolds.prio_plistDel]
    exact h.filter_erase p

theorem requeue (hmem : node ∈ use.arrivals) :
    ∃ mem', Returns (mem.plistRequeue node head) mem' ∧ mem'.prio = mem.prio ∧
      PlistInv mem' head (use.step (.requeue node)) (insertLast mem.prio node (es.erase node)) := by
  obtain ⟨a, b, hes, herase⟩ := h.split hmem
  have hholds := h.holds
  rw [hes] at hholds
  obtain ⟨mem', hrun, hprio, hholds'⟩ := hholds.plistRequeue
  rw [← herase] at hholds'
  have hsorted : KeySorted mem.prio (es.erase node) := h.holds.sorted.sublist erase_sublist
  refine ⟨mem', hrun, hprio, hholds', ?_, fun p => ?_⟩
  · have hnodup := (h.nodup.erase node).concat h.nodup.not_mem_erase
    rwa [concat_eq_append] at hnodup
  · rw [hprio, filter_insertLast hsorted, filter_append, h.filter_erase p, ← filter_append]
    rfl

end Steps

theorem run {op : PlistOp} (h : PlistInv mem head use es) (hop : use.Allowed head op) :
    ∃ mem', Returns (op.run mem head) mem' ∧ ∃ es', PlistInv mem' head (use.step op) es' := by
  cases op with
  | nodeInit node prio => exact ⟨_, ⟨0, fun _ _ => rfl⟩, es, h.nodeInit hop.1 hop.2⟩
  | add node =>
    obtain ⟨mem', hrun, -, h'⟩ := h.add hop.1 hop.2
    exact ⟨mem', hrun, _, h'⟩
  | del node => exact ⟨_, ⟨0, fun _ _ => rfl⟩, _, h.del hop⟩
  | requeue node =>
    obtain ⟨mem', hrun, -, h'⟩ := h.requeue hop
    exact ⟨mem', hrun, _, h'⟩

/-- `plist_requeue()` as a `plist_del()` and a `plist_add()`. -/
theorem requeue_same (h : PlistInv mem head use es) (hmem : node ∈ use.arrivals) :
    ∃ mem₁ mem₂, Returns (mem.plistRequeue node head) mem₁ ∧
      Returns ((mem.plistDel node head).plistAdd node head) mem₂ ∧
      PlistSame mem₁ mem₂ head use := by
  obtain ⟨mem₁, hrun1, hprio1, h1⟩ := h.requeue hmem
  have hknown : node ∈ use.known := h.holds.subset node (h.mem_iff.mpr hmem)
  have hout : node ∉ use.arrivals.erase node := h.nodup.not_mem_erase
  obtain ⟨mem₂, hrun2, hprio2, h2⟩ := (h.del hmem).add hknown hout
  rw [PlistHolds.prio_plistDel] at h2 hprio2
  have hlead1 := h1.holds.leaders
  have hlead2 := h2.holds.leaders
  rw [hprio1] at hlead1
  rw [hprio2] at hlead2
  refine ⟨mem₁, mem₂, hrun1, hrun2, ?_, ?_, ?_⟩
  · exact h1.holds.nodes.same h2.holds.nodes (.inr mem_cons_self)
  · exact fun n hn => h1.holds.nodes.same h2.holds.nodes (.inl hn)
  · exact fun n hn => hlead1.same hlead2 (.inl hn)

end PlistInv

theorem PlistReach.inv {mem : PlistMem} {head : Nat} {use : PlistUse}
    (h : PlistReach head mem use) : ∃ es, PlistInv mem head use es := by
  induction h with
  | init mem =>
    refine ⟨[], ⟨⟨?_, ?_, .nil, nofun, not_mem_nil⟩, nodup_nil, fun _ => rfl⟩⟩
    · exact ⟨nodup_singleton head, fun _ => mem.nodeList.isRing_init head, nofun⟩
    · exact ⟨nodup_nil, fun hne => absurd rfl hne, nofun⟩
  | step _ hop hrun ih =>
    obtain ⟨es, hes⟩ := ih
    obtain ⟨mem'', hrun', es', hes'⟩ := hes.run hop
    rw [hrun.unique hrun']
    exact ⟨es', hes'⟩

/-- After any operations a plist is in order, every operation on it returns, and `plist_requeue()`
is `plist_del()` followed by `plist_add()`. -/
theorem plist_reachable (head : Nat) (mem : PlistMem) (use : PlistUse)
    (h : PlistReach head mem use) :
    (∃ es, PlistOrdered mem head use es) ∧
      (∀ op, use.Allowed head op → ∃ mem', Returns (op.run mem head) mem') ∧
      ∀ node ∈ use.arrivals, ∃ mem₁ mem₂, Returns (mem.plistRequeue node head) mem₁ ∧
        Returns ((mem.plistDel node head).plistAdd node head) mem₂ ∧
        PlistSame mem₁ mem₂ head use := by
  obtain ⟨es, hinv⟩ := h.inv
  refine ⟨⟨es, hinv.ordered⟩, fun op hop => ?_, fun node hmem => hinv.requeue_same hmem⟩
  obtain ⟨mem', hrun, -⟩ := hinv.run hop
  exact ⟨mem', hrun⟩

/-- Two nodes of one priority came; the first is to be requeued. -/
theorem plist_reachable_pair :
    ∃ mem, PlistReach 0 mem ⟨[2, 1], [1, 2]⟩ ∧
      ∃ mem₁ mem₂, Returns (mem.plistRequeue 1 0) mem₁ ∧
        Returns ((mem.plistDel 1 0).plistAdd 1 0) mem₂ ∧
        PlistSame mem₁ mem₂ 0 ⟨[2, 1], [1, 2]⟩ := by
  have hinit : PlistReach 0 _ _ := .init ⟨fun _ => 0, ⟨id, id⟩, ⟨id, id⟩⟩
  have h₁ := @PlistReach.step 0 _ _ _ (.nodeInit 1 5) hinit ⟨by decide, by decide⟩
    ⟨0, fun _ _ => rfl⟩
  have h₂ := @PlistReach.step 0 _ _ _ (.nodeInit 2 5) h₁ ⟨by decide, by decide⟩ ⟨0, fun _ _ => rfl⟩
  have h₃ := @PlistReach.step 0 _ _ _ (.add 1) h₂ ⟨by decide, by decide⟩ ⟨0, fun _ _ => rfl⟩
  have h₄ := @PlistReach.step 0 _ _ _ (.add 2) h₃ ⟨by decide, by decide⟩ (.of_end fun _ => rfl)
  exact ⟨_, h₄, (plist_reachable 0 _ _ h₄).2.2 1 (by decide)⟩

end LinuxKernel.Lists
