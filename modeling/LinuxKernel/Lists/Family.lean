import LinuxKernel.Lib.Returns
import LinuxKernel.Lists.ListRings

/-!
# Families of lists

Several lists share one memory.  A family says, for each of them, its head and its entries in
order.  Walking from a head visits the entries, `next` and `prev` are inverse to each other and no
node is used twice.  This is the same as each list being a ring of its own.
-/

namespace LinuxKernel.Lists

open Lib List

/-- Lists, each with its head as the first node. -/
abbrev Family := List (List Nat)

section WellFormed

variable {mem mem' : ListMem} {fam fam' chains : Family}

/-- Each list is a ring, and the rings are disjoint. -/
structure WellFormed (mem : ListMem) (fam : Family) : Prop where
  ring : ∀ s ∈ fam, s ≠ [] ∧ mem.IsRing s
  nodup : fam.flatten.Nodup

theorem WellFormed.of_perm (h : WellFormed mem fam) (hperm : fam.Perm fam') : WellFormed mem fam' :=
  ⟨fun s hs => h.ring s (hperm.mem_iff.mpr hs), hperm.flatten.nodup_iff.mp h.nodup⟩

variable {s t : List Nat}

theorem WellFormed.tail (h : WellFormed mem (s :: fam)) : WellFormed mem fam :=
  ⟨fun t ht => h.ring t (mem_cons_of_mem s ht), (nodup_append.mp h.nodup).2.1⟩

theorem WellFormed.of_isRotated (h : WellFormed mem (s :: fam)) (hrot : s ~r t) :
    WellFormed mem (t :: fam) := by
  refine ⟨fun v hv => ?_, ?_⟩
  · obtain rfl | hv := mem_cons.mp hv
    · obtain ⟨hne, hring⟩ := h.ring s mem_cons_self
      refine ⟨fun hnil => hne ?_, hring.of_isRotated hrot⟩
      exact isRotated_nil_iff.mp (hnil ▸ hrot)
    · exact h.ring v (mem_cons_of_mem s hv)
  · have hperm := hrot.perm.append_right fam.flatten
    exact hperm.nodup_iff.mp h.nodup

/-- Rings are made of the rewired chains, and the others stay. -/
theorem WellFormed.rewire (h : WellFormed mem fam) (fam' : Family)
    (hrew : mem.Rewired mem' chains) (hnodup : (chains ++ fam).flatten.Nodup)
    (hsub : fam'.flatten <+ chains.flatten)
    (hring : chains.flatten.Nodup → ∀ s ∈ fam', s ≠ [] ∧ mem'.IsRing s) :
    WellFormed mem' (fam' ++ fam) := by
  rw [flatten_append, nodup_append] at hnodup
  obtain ⟨hchains, hfam, hdisj⟩ := hnodup
  refine ⟨forall_mem_append.mpr ⟨hring hchains, fun s hs => ?_⟩, ?_⟩
  · obtain ⟨hne, hs'⟩ := h.ring s hs
    exact ⟨hne, hrew.ring hs' fun x hx hxc => hdisj x hxc x (mem_flatten_of_mem hs hx) rfl⟩
  · rw [flatten_append, nodup_append]
    exact ⟨hchains.sublist hsub, hfam, fun x hx => hdisj x (hsub.subset hx)⟩

end WellFormed

variable {mem : ListMem} {fam : Family} {head x fuel : Nat} {es : List Nat}

theorem path_of_forEach (h : mem.listForEachFrom head fuel (mem.next x) = some es) :
    (x :: (es ++ [head])).IsChain (fun a b => mem.next a = b) := by
  induction fuel generalizing x es with
  | zero => cases h
  | succ fuel ih =>
    rw [ListMem.listForEachFrom] at h
    split at h
    · next hend =>
        cases h
        exact isChain_pair.mpr hend
    · obtain ⟨rest, hrest, hes⟩ := Option.bind_eq_some_iff.mp h
      cases hes
      exact isChain_cons_cons.mpr ⟨rfl, ih hrest⟩

theorem forEach_of_path (hpath : (x :: (es ++ [head])).IsChain (fun a b => mem.next a = b))
    (hhead : head ∉ es) : Returns (fun fuel => mem.listForEachFrom head fuel (mem.next x)) es := by
  induction es generalizing x with
  | nil =>
    obtain ⟨hnext, -⟩ := isChain_cons_cons.mp hpath
    refine .of_end fun fuel => ?_
    simp only [ListMem.listForEachFrom, if_pos hnext]
  | cons e es ih =>
    obtain ⟨hnext, hrest⟩ := isChain_cons_cons.mp hpath
    rw [mem_cons, not_or] at hhead
    have hne : e ≠ head := .symm hhead.1
    refine .of_succ ?_
    simp only [hnext, ListMem.listForEachFrom, if_neg hne]
    exact (ih hrest hhead.2).bind (.of_some _)

/-- The memory holds the lists of the family, as in `list.h`. -/
structure Represents (mem : ListMem) (fam : Family) : Prop where
  nonempty : ∀ s ∈ fam, s ≠ []
  nodup : fam.flatten.Nodup
  inverse : ∀ x ∈ fam.flatten, mem.prev (mem.next x) = x ∧ mem.next (mem.prev x) = x
  traverse : ∀ head es, head :: es ∈ fam → Returns (mem.listForEach head) es

theorem WellFormed.represents (h : WellFormed mem fam) : Represents mem fam := by
  refine ⟨fun s hs => (h.ring s hs).1, h.nodup, fun x hx => ?_, fun head es hmem => ?_⟩
  · obtain ⟨s, hs, hxs⟩ := mem_flatten.mp hx
    exact (h.ring s hs).2.prev_next hxs
  · have hring := ring_iff_chained.mp (h.ring _ hmem).2
    have hnodup := (nodup_flatten.mp h.nodup).1 _ hmem
    exact forEach_of_path (hring.imp fun _ _ hlink => hlink.1) (nodup_cons.mp hnodup).1

theorem Represents.wellFormed (h : Represents mem fam) : WellFormed mem fam := by
  refine ⟨fun s hs => ⟨h.nonempty s hs, ?_⟩, h.nodup⟩
  cases s with
  | nil => exact absurd rfl (h.nonempty [] hs)
  | cons head es =>
    obtain ⟨n, hn⟩ := h.traverse head es hs
    have hpath := path_of_forEach (hn n (le_refl n))
    refine ring_iff_chained.mpr (.imp_of_mem_imp ?_ hpath)
    rintro a b ha - rfl
    refine ⟨rfl, (h.inverse a (mem_flatten_of_mem hs ?_)).1⟩
    rw [mem_cons, mem_append, mem_singleton] at ha
    obtain rfl | ha | rfl := ha
    · exact mem_cons_self
    · exact mem_cons_of_mem head ha
    · exact mem_cons_self

section Arp

variable {ip : Nat → UInt32} {hwAddr : Nat → Nat} {dip : UInt32}

theorem htGetDstMacaddrFrom_eq (h : mem.listForEachFrom head fuel x = some es) :
    mem.htGetDstMacaddrFrom ip hwAddr head dip fuel x =
      some ((es.find? fun e => dip = ip e).map hwAddr) := by
  induction fuel generalizing x es with
  | zero => cases h
  | succ fuel ih =>
    rw [ListMem.listForEachFrom] at h
    rw [ListMem.htGetDstMacaddrFrom]
    split at h
    · next hend =>
        cases h
        rw [if_pos hend, find?_nil, Option.map_none]
    next hend =>
      obtain ⟨rest, hrest, hes⟩ := Option.bind_eq_some_iff.mp h
      cases hes
      rw [if_neg hend]
      by_cases hip : dip = ip x
      · rw [if_pos hip, find?_cons_of_pos (by simpa using hip), Option.map_some]
      · rw [if_neg hip, ih hrest, find?_cons_of_neg (by simpa using hip)]

theorem Represents.htGetDstMacaddr (h : Represents mem fam) (hmem : head :: es ∈ fam) :
    Returns (mem.htGetDstMacaddr ip hwAddr head dip)
      ((es.find? fun e => dip = ip e).map hwAddr) := by
  obtain ⟨n, hn⟩ := h.traverse head es hmem
  exact ⟨n, fun fuel hfuel => htGetDstMacaddrFrom_eq (hn fuel hfuel)⟩

end Arp

end LinuxKernel.Lists
