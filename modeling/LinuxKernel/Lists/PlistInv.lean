import LinuxKernel.Lib.Grouped
import LinuxKernel.Lists.Plist
import LinuxKernel.Lists.Strand

/-!
# Priority lists stay in order

The nodes of a plist are ordered by priority, those of one priority as they came, and `prio_list`
links the first node of each priority.  `plist_add()`, `plist_del()` and `plist_requeue()` keep
this, and the last one does what the other two do.
-/

namespace LinuxKernel.Lists

open Lib List PlistMem

/-- The lists of a plist with the nodes `es`. -/
structure PlistHolds (mem : PlistMem) (head : Nat) (known es : List Nat) : Prop where
  nodes : Strand mem.nodeList (· ∈ known) (head :: es)
  leaders : Strand mem.prioList (· ∈ known) (leaders mem.prio es)
  sorted : KeySorted mem.prio es
  subset : ∀ n ∈ es, n ∈ known
  head : head ∉ known

namespace PlistHolds

variable {mem : PlistMem} {head node n p first fuel : Nat} {known es a b : List Nat}

theorem nodup (h : PlistHolds mem head known es) : es.Nodup :=
  (nodup_cons.mp h.nodes.nodup).2

theorem ne_head (h : PlistHolds mem head known es) (hn : n ∈ known) : n ≠ head :=
  fun heq => h.head (heq ▸ hn)

theorem subset_insertLast {key : Nat → Int} (h : PlistHolds mem head known es)
    (hnode : node ∈ known) : ∀ n ∈ insertLast key node es, n ∈ known := by
  intro n hn
  obtain rfl | hn := mem_cons.mp ((insertLast_perm node es).mem_iff.mp hn)
  · exact hnode
  · exact h.subset n hn

section Del

variable (h : PlistHolds mem head known (a ++ node :: b))

include h

theorem around : (∀ m ∈ a, mem.prio m ≤ mem.prio node) ∧ ∀ m ∈ b, mem.prio node ≤ mem.prio m := by
  obtain ⟨-, hnode, hcross⟩ := pairwise_append.mp h.sorted
  exact ⟨fun m hm => hcross m hm node mem_cons_self, (pairwise_cons.mp hnode).1⟩

theorem path : (node :: (b ++ [head])).IsChain (fun x y => mem.nodeList.next x = y) := by
  have hring := ring_iff_chained.mp (h.nodes.ring (cons_ne_nil _ _))
  have hsplit : head :: (a ++ node :: b ++ [head]) = (head :: a) ++ node :: (b ++ [head]) := by
    simp
  rw [hsplit, Chained, isChain_append] at hring
  exact hring.2.1.imp fun _ _ hlink => hlink.1

theorem next_eq : mem.nodeList.next node = b.head?.getD head := by
  have hpath := h.path
  cases b with
  | nil => exact (isChain_cons_cons.mp hpath).1
  | cons m b => exact (isChain_cons_cons.mp hpath).1

/-- `prio_list` after the part of `plist_del()` that is about it. -/
def delPrioList (mem : PlistMem) (node head : Nat) : ListMem :=
  if !mem.prioList.listEmpty node then
    (if mem.nodeList.next node ≠ head ∧ mem.prioList.listEmpty (mem.nodeList.next node) then
      mem.prioList.listAdd (mem.nodeList.next node) node
    else
      mem.prioList).listDelInit node
  else
    mem.prioList

omit h in
theorem plistDel_eq : mem.plistDel node head =
      { mem with prioList := delPrioList mem node head,
                 nodeList := mem.nodeList.listDelInit node } := by
  rw [plistDel, delPrioList]
  split
  · rfl
  · rfl

omit h in
theorem prio_plistDel (mem : PlistMem) (node head : Nat) :
    (mem.plistDel node head).prio = mem.prio := by
  rw [plistDel_eq]

theorem delPrioList_follower (hbefore : ∃ m ∈ a, mem.prio m = mem.prio node) :
    Strand (delPrioList mem node head) (· ∈ known) (Lib.leaders mem.prio (a ++ b)) := by
  have hlead := leaders_follower (t := b) hbefore
  have hout : node ∉ Lib.leaders mem.prio (a ++ node :: b) := by
    rw [hlead]
    intro hmem
    have hmem' := (leaders_sublist mem.prio (a ++ b)).subset hmem
    exact (nodup_middle.mp h.nodup |> nodup_cons.mp).1 hmem'
  have hknown : node ∈ known := h.subset node (mem_append_right a mem_cons_self)
  rw [delPrioList, h.leaders.listEmpty_of_notMem hknown hout, ← hlead]
  exact h.leaders

theorem delPrioList_single (hbefore : ∀ m ∈ a, mem.prio m ≠ mem.prio node)
    (hafter : ∀ m ∈ b, mem.prio m ≠ mem.prio node) :
    Strand (delPrioList mem node head) (· ∈ known) (Lib.leaders mem.prio (a ++ b)) := by
  obtain ⟨rest, hold, hnew⟩ := leaders_single hbefore hafter
  have hlead := h.leaders
  rw [hold] at hlead
  rw [delPrioList, hnew, hlead.listEmpty_eq]
  by_cases hnil : rest ++ Lib.leaders mem.prio a = []
  · obtain ⟨rfl, hnil'⟩ := append_eq_nil_iff.mp hnil
    rw [hnil'] at hlead ⊢
    exact hlead.of_singleton
  have hskip : ¬ (mem.nodeList.next node ≠ head ∧
      mem.prioList.listEmpty (mem.nodeList.next node)) := by
    rw [h.next_eq]
    rintro ⟨hne, hempty⟩
    cases b with
    | nil => exact hne rfl
    | cons m b =>
      -- The next node leads a group of its own, and there is another group.
      have hm : m ∈ Lib.leaders mem.prio ((a ++ [node]) ++ m :: b) := by
        have hnm : mem.prio node < mem.prio m := lt_of_le_of_ne (h.around.2 m mem_cons_self)
            (.symm (hafter m mem_cons_self))
        refine mem_leaders_of_forall_ne (forall_mem_append.mpr
          ⟨fun x hx => ?_, forall_mem_singleton.mpr (ne_of_lt hnm)⟩)
        exact ne_of_lt (lt_of_le_of_lt (h.around.1 x hx) hnm)
      rw [append_assoc, singleton_append, hold] at hm
      obtain ⟨c, d, hsplit⟩ := append_of_mem hm
      have hlead' := hlead
      rw [hsplit] at hlead'
      rw [head?_cons, Option.getD_some, hlead'.listEmpty_eq,
        List.isEmpty_iff, append_eq_nil_iff] at hempty
      rw [hempty.1, hempty.2, nil_append] at hsplit
      have hlen := congrArg List.length hsplit
      have hpos := length_pos_of_ne_nil hnil
      simp only [length_append, length_cons, length_nil] at hlen hpos
      omega
  rw [if_neg hskip, if_pos (by simpa using hnil)]
  exact hlead.delInit

omit h in
theorem delPrioList_first {m : Nat} (h : PlistHolds mem head known (a ++ node :: m :: b))
    (hbefore : ∀ x ∈ a, mem.prio x ≠ mem.prio node) (hprio : mem.prio m = mem.prio node) :
    Strand (delPrioList mem node head) (· ∈ known) (Lib.leaders mem.prio (a ++ m :: b)) := by
  obtain ⟨rest, hold, hnew⟩ := leaders_succ (t := b) hbefore hprio
  have hlead := h.leaders
  rw [hold] at hlead
  have hm : m ∈ known := h.subset m (by simp)
  rw [delPrioList, hnew, hlead.listEmpty_eq]
  by_cases hnil : rest ++ Lib.leaders mem.prio a = []
  · obtain ⟨rfl, hnil'⟩ := append_eq_nil_iff.mp hnil
    rw [hnil'] at hlead ⊢
    exact hlead.of_singleton.singleton hm
  have hout : m ∉ Lib.leaders mem.prio a ++ node :: rest := by
    have hpair := @leaders_pairwise _ _ _ mem.prio (a ++ node :: m :: b)
    rw [hold, pairwise_append, pairwise_cons] at hpair
    rw [mem_append, mem_cons]
    rintro (hma | rfl | hmr)
    · exact hbefore m ((leaders_sublist mem.prio a).subset hma) hprio
    · have hnodup := (nodup_append.mp h.nodup).2.1
      exact (nodup_cons.mp hnodup).1 mem_cons_self
    · exact hpair.2.1.1 m hmr hprio.symm
  have hnext : mem.nodeList.next node = m := h.next_eq
  have hjoin : mem.nodeList.next node ≠ head ∧ mem.prioList.listEmpty (mem.nodeList.next node) := by
    rw [hnext]
    exact ⟨h.ne_head hm, hlead.listEmpty_of_notMem hm hout⟩
  rw [if_pos hjoin, hnext, if_pos (by simpa using hnil)]
  have hring := hlead.ring (by simp)
  have hadd := hlead.add_of_placed ((SplicedAfter.intro _ rest).placed hring) hout
  exact hadd.delInit

theorem plistDel : PlistHolds (mem.plistDel node head) head known (a ++ b) := by
  have hprio : Strand (delPrioList mem node head) (· ∈ known) (Lib.leaders mem.prio (a ++ b)) := by
    by_cases hbefore : ∃ m ∈ a, mem.prio m = mem.prio node
    · exact h.delPrioList_follower hbefore
    have hbefore' : ∀ m ∈ a, mem.prio m ≠ mem.prio node := fun m hm heq => hbefore ⟨m, hm, heq⟩
    cases b with
    | nil => exact h.delPrioList_single hbefore' nofun
    | cons m b =>
      by_cases hm : mem.prio m = mem.prio node
      · exact h.delPrioList_first hbefore' hm
      · refine h.delPrioList_single hbefore' (forall_mem_cons.mpr ⟨hm, fun x hx => ?_⟩)
        have hmb := (pairwise_append.mp h.sorted).2.1
        have hmx := (pairwise_cons.mp (pairwise_cons.mp hmb).2).1 x hx
        have hnm := h.around.2 m mem_cons_self
        exact ne_of_gt (lt_of_lt_of_le (lt_of_le_of_ne hnm (.symm hm)) hmx)
  have hsub : (a ++ b).Sublist (a ++ node :: b) :=
    .append_left (sublist_cons_self node b) a
  rw [plistDel_eq]
  refine ⟨?_, hprio, h.sorted.sublist hsub, fun n hn => h.subset n (hsub.subset hn), h.head⟩
  exact .delInit (a := head :: a) h.nodes

end Del

theorem placed_before {mem : ListMem} (ls : List Nat) (h : mem.IsRing (a ++ p :: b)) :
    Placed (mem.prev p) p ls (a ++ p :: b) (a ++ (ls ++ p :: b)) := by
  have hrot : (a ++ p :: b) ~r (p :: b ++ a) := isRotated_append
  obtain ⟨-, z, -, hz, -⟩ := @exists_ends _ (p :: b ++ a) (by simp)
  have hprev : mem.prev p = z := ((h.of_isRotated hrot).ends rfl hz).2
  refine ⟨p :: b ++ a, hrot, ?_, rfl, hprev ▸ hz⟩
  rw [← append_assoc]
  exact isRotated_append

/-- The loop of `plist_add()` goes to the first larger priority. -/
theorem plistAddLoop_eq {first iter : Nat} {prev : Option Nat} {post : List Nat}
    (hpath : (iter :: (post ++ [first])).IsChain (fun a b => mem.prioList.next a = b))
    (hfirst : first ∉ post) :
    Returns (fun fuel => mem.plistAddLoop node head first fuel prev iter)
      { prev := ((iter :: post).takeWhile fun m => mem.prio m ≤ mem.prio node).getLast?.or prev
        iter := ((iter :: post).dropWhile fun m => mem.prio m ≤ mem.prio node).head?.getD first
        nodeNext :=
          ((iter :: post).dropWhile fun m => mem.prio m ≤ mem.prio node).head?.getD head } := by
  induction post generalizing iter prev with
  | nil =>
    obtain ⟨hnext, -⟩ := isChain_cons_cons.mp hpath
    refine .of_end fun fuel => ?_
    by_cases hlt : mem.prio node < mem.prio iter
    · have hle : ¬ mem.prio iter ≤ mem.prio node := not_le.mpr hlt
      simp [plistAddLoop, hlt, hle]
    · have hle : mem.prio iter ≤ mem.prio node := not_lt.mp hlt
      simp [plistAddLoop, hlt, hle, hnext]
  | cons e post ih =>
    obtain ⟨hnext, hrest⟩ := isChain_cons_cons.mp hpath
    rw [mem_cons, not_or] at hfirst
    by_cases hlt : mem.prio node < mem.prio iter
    · have hle : ¬ mem.prio iter ≤ mem.prio node := not_le.mpr hlt
      refine .of_end fun fuel => ?_
      simp [plistAddLoop, hlt, hle]
    have hle : mem.prio iter ≤ mem.prio node := not_lt.mp hlt
    have hne : e ≠ first := .symm hfirst.1
    have hrec := @ih e (some iter) hrest hfirst.2
    have hlast : ∀ l : List Nat, (iter :: l).getLast?.or prev = l.getLast?.or (some iter) := by
      intro l
      cases l with
      | nil => rfl
      | cons x l => simp [getLast?_cons]
    rw [takeWhile_cons, dropWhile_cons, if_pos (decide_eq_true hle),
      if_pos (decide_eq_true hle), hlast]
    refine hrec.of_pass fun fuel => ?_
    rw [plistAddLoop, if_neg hlt, hnext, if_pos hne]

theorem addNode {mem : ListMem} {known : Nat → Prop} (h : Strand mem known (head :: (a ++ b)))
    (hout : node ∉ head :: (a ++ b)) :
    Strand (mem.listAddTail node (b.head?.getD head)) known (head :: (a ++ node :: b)) := by
  have hring := h.ring (cons_ne_nil _ _)
  cases b with
  | nil =>
    rw [append_nil] at h hring hout
    exact h.add_of_placed ((SplicedBefore.head a).placed hring) hout
  | cons m b =>
    exact h.add_of_placed ((SplicedBefore.entry head a b).placed hring) hout

section Place

variable (h : PlistHolds mem head known (a ++ b)) (hlow : ∀ x ∈ a, mem.prio x ≤ mem.prio node)
    (hhigh : ∀ x ∈ b, mem.prio node < mem.prio x)

include hlow hhigh in
theorem leaders_split :
    Lib.leaders mem.prio (a ++ b) = Lib.leaders mem.prio a ++ Lib.leaders mem.prio b := by
  rw [leaders_append, filter_eq_self.mpr]
  intro y hy
  have hlt := hhigh y ((leaders_sublist mem.prio b).subset hy)
  simpa using fun x hx => ne_of_lt (lt_of_le_of_lt (hlow x hx) hlt)

theorem head?_leaders : (Lib.leaders mem.prio b).head? = b.head? := by
  cases b with
  | nil => rfl
  | cons m b => rfl

include h hlow hhigh in
theorem plistAddLoop_place (hfirst : (a ++ b).head? = some first) :
    Returns (fun fuel => mem.plistAddLoop node head first fuel none first)
      { prev := (Lib.leaders mem.prio a).getLast?
        iter := b.head?.getD first
        nodeNext := b.head?.getD head } := by
  have hsplit := leaders_split hlow hhigh
  have hne : Lib.leaders mem.prio (a ++ b) ≠ [] := by
    rw [ne_eq, leaders_eq_nil_iff]
    exact ne_nil_of_mem (mem_of_head? hfirst)
  have hhead : (Lib.leaders mem.prio (a ++ b)).head? = some first := by
    rw [head?_leaders, hfirst]
  obtain ⟨post, hpost⟩ : ∃ post, Lib.leaders mem.prio (a ++ b) = first :: post := by
    obtain ⟨x, post, hx⟩ := exists_cons_of_ne_nil hne
    rw [hx] at hhead
    cases hhead
    exact ⟨post, hx⟩
  have hnodup := h.leaders.nodup
  have hring := h.leaders.ring hne
  rw [hpost] at hnodup hring
  have hpath := (ring_iff_chained.mp hring).imp fun _ _ hlink => hlink.1
  have hlow' : ∀ x ∈ Lib.leaders mem.prio a, mem.prio x ≤ mem.prio node :=
    fun x hx => hlow x ((leaders_sublist mem.prio a).subset hx)
  have hhigh' : ∀ x ∈ (Lib.leaders mem.prio b).head?, mem.prio node < mem.prio x := by
    intro x hx
    exact hhigh x ((leaders_sublist mem.prio b).subset (mem_of_head? hx))
  obtain ⟨htake, hdrop⟩ := split_at_key hlow' hhigh'
  have hloop := @plistAddLoop_eq mem head node first first none post hpath (nodup_cons.mp hnodup).1
  rwa [← hpost, hsplit, htake, hdrop, head?_leaders, Option.or_none] at hloop

include h hlow hhigh in
/-- `prio_list` with a new node, linked if it is the first of its priority. -/
theorem addPrioList (hfirst : (a ++ b).head? = some first) (hout : node ∉ a ++ b) :
    Strand
      (if ∀ prev ∈ (Lib.leaders mem.prio a).getLast?, mem.prio prev ≠ mem.prio node then
        mem.prioList.listAddTail node (b.head?.getD first)
      else
        mem.prioList)
      (· ∈ known) (Lib.leaders mem.prio (a ++ node :: b)) := by
  have hsorted := (pairwise_append.mp h.sorted).1
  have hlast := exists_key_iff_last_leader hsorted hlow
  have hsplit := leaders_split hlow hhigh
  have hout' : node ∉ Lib.leaders mem.prio (a ++ b) :=
    fun hmem => hout ((leaders_sublist mem.prio (a ++ b)).subset hmem)
  by_cases hgroup : ∃ x ∈ a, mem.prio x = mem.prio node
  · obtain ⟨l, hl, hkey⟩ := hlast.mp hgroup
    rw [if_neg fun hall => hall l hl hkey, leaders_follower hgroup]
    exact h.leaders
  have hall : ∀ prev ∈ (Lib.leaders mem.prio a).getLast?, mem.prio prev ≠ mem.prio node :=
    fun prev hprev heq => hgroup (hlast.mpr ⟨prev, hprev, heq⟩)
  have hbefore : ∀ x ∈ a, mem.prio x ≠ mem.prio node := fun x hx heq => hgroup ⟨x, hx, heq⟩
  have hafter : ∀ x ∈ b, mem.prio x ≠ mem.prio node := fun x hx => ne_of_gt (hhigh x hx)
  obtain ⟨rest, hres, hold⟩ := leaders_single hbefore hafter
  obtain rfl : rest = Lib.leaders mem.prio b := append_cancel_left (hold.symm.trans hsplit)
  have hlead := h.leaders
  rw [if_pos hall, hres]
  rw [hsplit] at hlead hout'
  cases b with
  | nil =>
    have ha : (Lib.leaders mem.prio a).head? = some first := by
      rw [head?_leaders, ← append_nil a, hfirst]
    obtain ⟨x, post, hx⟩ := exists_cons_of_ne_nil (ne_nil_of_mem (mem_of_head? ha))
    rw [hx] at ha hlead hout' ⊢
    cases ha
    rw [Lib.leaders, append_nil] at hlead hout'
    have hring := hlead.ring (cons_ne_nil _ _)
    exact hlead.add_of_placed ((SplicedBefore.head post).placed hring) hout'
  | cons m b =>
    have hring := hlead.ring (by simp [Lib.leaders])
    exact hlead.add_of_placed (placed_before [node] hring) hout'

end Place

theorem plistAdd_eq {place : PlistMem.Place} (hempty : mem.plistHeadEmpty head = false)
    (hloop : mem.plistAddLoop node head (mem.plistFirst head) fuel none
      (mem.plistFirst head) = some place) :
    mem.plistAdd node head fuel = some
      { mem with
        prioList :=
          if ∀ prev ∈ place.prev, mem.prio prev ≠ mem.prio node then
            mem.prioList.listAddTail node place.iter
          else
            mem.prioList
        nodeList := mem.nodeList.listAddTail node place.nodeNext } := by
  rw [plistAdd, hempty, if_neg Bool.false_ne_true]
  refine Option.bind_eq_some_iff.mpr ⟨place, hloop, ?_⟩
  by_cases hprev : ∀ prev ∈ place.prev, mem.prio prev ≠ mem.prio node
  · simp only [if_pos hprev, Option.pure_def]
  · simp only [if_neg hprev, Option.pure_def]

theorem plistAdd (h : PlistHolds mem head known es) (hnode : node ∈ known) (hout : node ∉ es) :
    ∃ mem', Returns (mem.plistAdd node head) mem' ∧ mem'.prio = mem.prio ∧
      PlistHolds mem' head known (insertLast mem.prio node es) := by
  have hnodes : node ∉ head :: es := by
    rw [mem_cons, not_or]
    exact ⟨h.ne_head hnode, hout⟩
  have hempty : mem.plistHeadEmpty head = es.isEmpty :=
    (h.nodes.ring (cons_ne_nil _ _)).listEmpty_eq h.nodes.nodup
  have hsorted := keySorted_insertLast h.sorted node
  have hsub : ∀ n ∈ insertLast mem.prio node es, n ∈ known := h.subset_insertLast hnode
  cases es with
  | nil =>
    have hrun : ∀ fuel, mem.plistAdd node head fuel =
        some { mem with nodeList := mem.nodeList.listAddTail node head } := by
      intro fuel
      rw [plistAdd, hempty]
      rfl
    refine ⟨_, .of_end fun fuel => hrun (fuel + 1), rfl, ?_, ?_, hsorted, hsub, h.head⟩
    · exact addNode (a := []) (b := []) h.nodes hnodes
    · exact h.leaders.singleton hnode
  | cons first es =>
    obtain ⟨hlow, hhigh⟩ := keySorted_split h.sorted node
    have hfirst : mem.plistFirst head = first := by
      have hchain := (h.nodes.ring (cons_ne_nil _ _)).chain
      exact (isChain_cons_cons.mp hchain).1.1
    have hcut := @takeWhile_append_dropWhile _
      (fun m => decide (mem.prio m ≤ mem.prio node)) (first :: es)
    rw [insertLast] at hsorted hsub ⊢
    generalize (first :: es).takeWhile (fun m => mem.prio m ≤ mem.prio node) = a at *
    generalize (first :: es).dropWhile (fun m => mem.prio m ≤ mem.prio node) = b at *
    rw [← hcut] at h hout hnodes
    have hhead : (a ++ b).head? = some first := by rw [hcut, head?_cons]
    obtain ⟨n, hn⟩ := h.plistAddLoop_place hlow hhigh hhead
    rw [← hfirst] at hn
    refine ⟨_, ⟨n, fun fuel hfuel => plistAdd_eq hempty (hn fuel hfuel)⟩, rfl, ?_, ?_,
      hsorted, hsub, h.head⟩
    · exact addNode h.nodes hnodes
    · rw [hfirst]
      exact h.addPrioList hlow hhigh hhead hout

/-- The loop of `plist_requeue()` goes to the end of the group. -/
theorem plistRequeueLoop_eq {iter : Nat}
    (hpath : (iter :: (b ++ [head])).IsChain (fun x y => mem.nodeList.next x = y))
    (hhead : head ∉ b) :
    Returns (fun fuel => mem.plistRequeueLoop node head fuel (mem.nodeList.next iter))
      ((b.dropWhile fun m => mem.prio node = mem.prio m).head?.getD head) := by
  induction b generalizing iter with
  | nil =>
    obtain ⟨hnext, -⟩ := isChain_cons_cons.mp hpath
    refine .of_end fun fuel => ?_
    rw [hnext, plistRequeueLoop, if_pos rfl]
    rfl
  | cons m b ih =>
    obtain ⟨hnext, hrest⟩ := isChain_cons_cons.mp hpath
    rw [mem_cons, not_or] at hhead
    have hne : m ≠ head := .symm hhead.1
    rw [hnext, dropWhile_cons]
    by_cases hprio : mem.prio node = mem.prio m
    · rw [if_pos (decide_eq_true hprio)]
      refine (ih hrest hhead.2).of_pass fun fuel => ?_
      rw [plistRequeueLoop, if_neg hne, if_neg (not_not.mpr hprio)]
    · rw [if_neg (by simpa using hprio)]
      refine .of_end fun fuel => ?_
      rw [plistRequeueLoop, if_neg hne, if_pos hprio]
      rfl

theorem insertLast_self (h : PlistHolds mem head known (a ++ node :: b))
    (hafter : ∀ m ∈ b.head?, mem.prio node ≠ mem.prio m) :
    insertLast mem.prio node (a ++ b) = a ++ node :: b := by
  refine insertLast_eq h.around.1 fun m hm => ?_
  exact lt_of_le_of_ne (h.around.2 m (mem_of_head? hm)) (hafter m hm)

variable {m : Nat} (h : PlistHolds mem head known (a ++ node :: m :: b))

include h

theorem ne_plistLast : node ≠ mem.plistLast head := by
  obtain ⟨-, z, -, hz, -, hmem⟩ := @exists_ends _ (m :: b) (cons_ne_nil m b)
  have hlast : (head :: (a ++ node :: m :: b)).getLast? = some z := by
    rw [getLast?_cons, getLast?_append, getLast?_cons_cons, hz]
    rfl
  have hprev : mem.plistLast head = z := ((h.nodes.ring (cons_ne_nil _ _)).ends rfl hlast).2
  have hnodup := (nodup_append.mp h.nodup).2.1
  rw [hprev]
  exact fun heq => (nodup_cons.mp hnodup).1 (heq ▸ hmem)

theorem requeueGroup (hprio : mem.prio node = mem.prio m) :
    let mem₁ := mem.plistDel node head
    let nodeNext := (b.dropWhile fun x => mem.prio node = mem.prio x).head?.getD head
    Returns (fun fuel => mem₁.plistRequeueLoop node head fuel (mem₁.nodeList.next m)) nodeNext ∧
      PlistHolds { mem₁ with nodeList := mem₁.nodeList.listAddTail node nodeNext } head known
        (insertLast mem.prio node (a ++ m :: b)) := by
  intro mem₁ nodeNext
  have hdel : PlistHolds mem₁ head known (a ++ m :: b) := h.plistDel
  have hsame : mem₁.prio = mem.prio := prio_plistDel mem node head
  have hknown : node ∈ known := h.subset node (mem_append_right a mem_cons_self)
  have hout : node ∉ head :: (a ++ m :: b) := by
    rw [mem_cons, not_or]
    exact ⟨h.ne_head hknown, (nodup_cons.mp (nodup_middle.mp h.nodup)).1⟩
  have hsorted := keySorted_insertLast hdel.sorted node
  have hsub : ∀ x ∈ insertLast mem.prio node (a ++ m :: b), x ∈ known :=
    hdel.subset_insertLast hknown
  constructor
  · have hhead : head ∉ b := by
      have hnot := (nodup_cons.mp hdel.nodes.nodup).1
      exact fun hmem => hnot (mem_append_right a (mem_cons_of_mem m hmem))
    have hloop := @plistRequeueLoop_eq mem₁ head node b m hdel.path hhead
    rwa [hsame] at hloop
  -- The group of the node ends where the nodes of another priority start.
  have hcut := @takeWhile_append_dropWhile _ (fun x => decide (mem.prio node = mem.prio x)) b
  have hsplit : a ++ m :: b = (a ++ m :: b.takeWhile fun x => mem.prio node = mem.prio x) ++
      b.dropWhile fun x => mem.prio node = mem.prio x := by
    rw [append_assoc, cons_append, hcut]
  have hinsert : insertLast mem.prio node (a ++ m :: b) =
      (a ++ m :: b.takeWhile fun x => mem.prio node = mem.prio x) ++
        node :: b.dropWhile fun x => mem.prio node = mem.prio x := by
    rw [hsplit]
    refine insertLast_eq (forall_mem_append.mpr
      ⟨h.around.1, forall_mem_cons.mpr ⟨hprio.ge, fun x hx => ?_⟩⟩) fun x hx => ?_
    · have heq := mem_takeWhile_imp hx
      exact (of_decide_eq_true heq).ge
    · have hmem : x ∈ b := (dropWhile_sublist _).subset (mem_of_head? hx)
      have hne := head?_dropWhile_not (fun x => decide (mem.prio node = mem.prio x)) b
      rw [hx] at hne
      refine lt_of_le_of_ne (h.around.2 x (mem_cons_of_mem m hmem)) ?_
      simpa using hne
  rw [hsame] at hsorted
  have hnodes := hdel.nodes
  have hlead := hdel.leaders
  rw [hinsert] at hsorted hsub ⊢
  rw [hsplit] at hnodes hout hlead
  refine ⟨addNode hnodes hout, ?_, ?_, hsub, h.head⟩
  · have hgroup : ∃ x ∈ a ++ m :: b.takeWhile fun x => mem.prio node = mem.prio x,
        mem₁.prio x = mem₁.prio node := by
      refine ⟨m, mem_append_right a mem_cons_self, ?_⟩
      rw [hsame, hprio]
    rw [leaders_follower hgroup]
    exact hlead
  · rw [hsame]
    exact hsorted

omit h

theorem plistRequeue (h : PlistHolds mem head known (a ++ node :: b)) :
    ∃ mem', Returns (mem.plistRequeue node head) mem' ∧ mem'.prio = mem.prio ∧
      PlistHolds mem' head known (insertLast mem.prio node (a ++ b)) := by
  have hring := h.nodes.ring (cons_ne_nil _ _)
  have hnotBug : ¬ (mem.plistHeadEmpty head ∨ mem.plistNodeEmpty node) := by
    have hnode := Strand.listEmpty_eq (a := head :: a) h.nodes
    have hhead := Strand.listEmpty_eq (a := []) h.nodes
    simp [plistHeadEmpty, plistNodeEmpty, hnode, hhead]
  cases b with
  | nil =>
    have hz : (head :: (a ++ [node])).getLast? = some node := by
      rw [← cons_append, getLast?_concat]
    have hlast : node = mem.plistLast head := (hring.ends rfl hz).2.symm
    refine ⟨mem, Returns.of_end fun fuel => ?_, rfl, ?_⟩
    · rw [plistRequeue, if_neg hnotBug, if_pos hlast]
      rfl
    · rwa [h.insertLast_self nofun]
  | cons m b =>
    have hlast : node ≠ mem.plistLast head := h.ne_plistLast
    have hnext : mem.plistNext node = m := h.next_eq
    by_cases hprio : mem.prio node = mem.prio m
    · obtain ⟨hrun, hholds⟩ := h.requeueGroup hprio
      refine ⟨_, ?_, ?_, hholds⟩
      · unfold plistRequeue
        simp only [if_neg hnotBug, if_neg hlast, hnext, if_neg (not_not.mpr hprio)]
        exact hrun.bind (.of_some _)
      · exact prio_plistDel mem node head
    · refine ⟨mem, .of_end fun fuel => ?_, rfl, ?_⟩
      · rw [plistRequeue, if_neg hnotBug, if_neg hlast, hnext, if_pos hprio]
        rfl
      · rwa [h.insertLast_self fun x hx => by cases hx; exact hprio]

end PlistHolds

end LinuxKernel.Lists
