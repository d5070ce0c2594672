import LinuxKernel.Lists.ListOps

/-!
# One ring among nodes by themselves

The shape of the lists of a plist: some of the nodes that are in use form one ring, and
each of the other ones is a ring by itself.  The ring need not have a head; a ring
without nodes is one as well.
-/

namespace LinuxKernel.Lists

open Lib List

/-- The nodes of `s` form a ring, and other known nodes one each. -/
structure Strand (mem : ListMem) (known : Nat → Prop) (s : List Nat) : Prop where
  nodup : s.Nodup
  ring : s ≠ [] → mem.IsRing s
  alone : ∀ n, known n → n ∉ s → mem.IsRing [n]

namespace Strand

variable {mem : ListMem} {known : Nat → Prop} {s s' a b : List Nat} {new n x z f : Nat}

theorem of_isRotated (h : Strand mem known s) (hrot : s ~r s') : Strand mem known s' := by
  refine ⟨hrot.nodup_iff.mp h.nodup, fun hne => ?_, fun n hn hns => ?_⟩
  · refine (h.ring fun hnil => hne ?_).of_isRotated hrot
    exact isRotated_nil_iff.mp (hnil ▸ hrot.symm)
  · exact h.alone n hn fun hmem => hns (hrot.mem_iff.mp hmem)

theorem singleton (h : Strand mem known []) (hn : known n) : Strand mem known [n] :=
  ⟨nodup_singleton n, fun _ => h.alone n hn not_mem_nil, fun m hm _ => h.alone m hm not_mem_nil⟩

theorem of_singleton (h : Strand mem known [n]) : Strand mem known [] := by
  refine ⟨nodup_nil, fun hne => absurd rfl hne, fun m hm _ => ?_⟩
  by_cases hmn : m = n
  · exact hmn ▸ h.ring (cons_ne_nil _ _)
  · exact h.alone m hm fun hmem => hmn (mem_singleton.mp hmem)

theorem listEmpty_eq (h : Strand mem known (a ++ n :: b)) : mem.listEmpty n = (b ++ a).isEmpty := by
  have hrot : (a ++ n :: b) ~r (n :: (b ++ a)) := @isRotated_append _ a (n :: b)
  have hring : mem.IsRing (n :: (b ++ a)) := (h.ring (by simp)).of_isRotated hrot
  exact hring.listEmpty_eq (hrot.nodup_iff.mp h.nodup)

theorem listEmpty_of_notMem (h : Strand mem known s) (hn : known n) (hns : n ∉ s) :
    mem.listEmpty n = true :=
  (h.alone n hn hns).listEmpty_eq (nodup_singleton n)

theorem init (h : Strand mem known s) (hn : n ∉ s) :
    Strand (mem.initListHead n) (fun m => m = n ∨ known m) s := by
  refine ⟨h.nodup, fun hne => ?_, fun m hm hms => ?_⟩
  · refine (mem.rewired_write n n n).ring (h.ring hne) fun x hx hxn => ?_
    exact hn (mem_singleton.mp hxn ▸ hx)
  · by_cases hmn : m = n
    · exact hmn ▸ mem.isRing_init n
    · exact (mem.rewired_write n n n).ring (h.alone m (hm.resolve_left hmn) hms) (by simpa)

theorem add_of_placed (h : Strand mem known s) (hplace : Placed z f [new] s s') (hnew : new ∉ s) :
    Strand (mem.listAddBetween new z f) known s' := by
  obtain ⟨t, hst, hts, hf, hz⟩ := hplace
  have ht := h.of_isRotated hst
  have hcons : (new :: t).Nodup :=
    nodup_cons.mpr ⟨fun hmem => hnew (hst.mem_iff.mpr hmem), ht.nodup⟩
  refine of_isRotated ⟨hcons, fun _ => ?_, fun m hm hmt => ?_⟩ hts
  · exact (ht.ring (ne_nil_of_mem (mem_of_head? hf))).addBetween hf hz (by simpa using hcons)
  · have halone := ht.alone m hm fun hmem => hmt (mem_cons_of_mem new hmem)
    exact (ListMem.rewired_addBetween hf hz).ring halone (by simpa using hmt)

theorem delInit (h : Strand mem known (a ++ x :: b)) :
    Strand (mem.listDelInit x) known (a ++ b) := by
  have hrot : (a ++ x :: b) ~r (x :: (b ++ a)) := @isRotated_append _ a (x :: b)
  have ht := h.of_isRotated hrot
  obtain ⟨hx, hnodup⟩ := nodup_cons.mp ht.nodup
  have hring := ht.ring (cons_ne_nil _ _)
  have hinit := (mem.listDelEntry x).rewired_write x x x
  have hdel : Strand (mem.listDelInit x) known (b ++ a) := by
    refine ⟨hnodup, fun hne => ?_, fun m hm hmt => ?_⟩
    · refine hinit.ring (hring.delEntry (by simpa using ht.nodup) hne) fun y hy hyx => ?_
      exact hx (mem_singleton.mp hyx ▸ hy)
    by_cases hmx : m = x
    · exact hmx ▸ (mem.listDelEntry x).isRing_init x
    have hmem : m ∉ x :: (b ++ a) := fun hmem => hmt ((mem_cons.mp hmem).resolve_left hmx)
    have halone := hring.rewired_delEntry.ring (ht.alone m hm hmem) (by simpa using hmem)
    exact hinit.ring halone (by simpa)
  exact hdel.of_isRotated isRotated_append

end Strand

end LinuxKernel.Lists
