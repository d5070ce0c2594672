import Mathlib.Data.List.Chain
import Mathlib.Data.List.Rotate

/-!
# Rings of linked nodes

In a ring each node is linked to the one after it and the last one to the first one.  Rings are cut
and joined at the ends of chains: a chain stays one while only the outer links of its ends are
written.
-/

namespace LinuxKernel.Lib

open List

variable {α : Type} {next prev next' prev' : α → α} {s t : List α} {x y z f : α}

def Linked (next prev : α → α) (x y : α) : Prop :=
  next x = y ∧ prev y = x

/-- Each node of the sequence is linked to the next one. -/
abbrev Chained (next prev : α → α) (s : List α) : Prop :=
  s.IsChain (Linked next prev)

/-- The chain is closed by a link from its last to its first node. -/
structure Ring (next prev : α → α) (s : List α) : Prop where
  chain : Chained next prev s
  close : ∀ z ∈ s.getLast?, ∀ f ∈ s.head?, Linked next prev z f

theorem ring_append (hs : s ≠ []) (ht : t ≠ []) :
    Ring next prev (s ++ t) ↔ Chained next prev s ∧ Chained next prev t ∧
      (∀ z ∈ s.getLast?, ∀ f ∈ t.head?, Linked next prev z f) ∧
      ∀ z ∈ t.getLast?, ∀ f ∈ s.head?, Linked next prev z f := by
  have hlast : (s ++ t).getLast? = t.getLast? := getLast?_append_of_ne_nil s ht
  have hhead : (s ++ t).head? = s.head? := head?_append_of_ne_nil s hs
  constructor
  · rintro ⟨hchain, hclose⟩
    rw [hlast, hhead] at hclose
    obtain ⟨hcs, hct, hmid⟩ := isChain_append.mp hchain
    exact ⟨hcs, hct, hmid, hclose⟩
  · rintro ⟨hcs, hct, hmid, hclose⟩
    refine ⟨isChain_append.mpr ⟨hcs, hct, hmid⟩, ?_⟩
    rw [hlast, hhead]
    exact hclose

theorem ring_rotate : Ring next prev (s ++ t) ↔ Ring next prev (t ++ s) := by
  by_cases hs : s = []
  · rw [hs, nil_append, append_nil]
  by_cases ht : t = []
  · rw [ht, nil_append, append_nil]
  rw [ring_append hs ht, ring_append ht hs]
  constructor
  · rintro ⟨hcs, hct, hmid, hclose⟩
    exact ⟨hct, hcs, hclose, hmid⟩
  · rintro ⟨hct, hcs, hclose, hmid⟩
    exact ⟨hcs, hct, hmid, hclose⟩

theorem Ring.of_isRotated (h : Ring next prev s) (hrot : s ~r t) : Ring next prev t := by
  obtain ⟨n, rfl⟩ := hrot
  rw [rotate_eq_drop_append_take_mod, ← ring_rotate, take_append_drop]
  exact h

theorem ring_singleton : Ring next prev [x] ↔ next x = x ∧ prev x = x := by
  constructor
  · intro h
    exact h.close x rfl x rfl
  · intro h
    refine ⟨isChain_singleton x, ?_⟩
    rintro z ⟨⟩ f ⟨⟩
    exact h

variable (hf : s.head? = some f) (hz : s.getLast? = some z)

include hf hz

theorem ring_cons : Ring next prev (x :: s) ↔
    Chained next prev s ∧ Linked next prev x f ∧ Linked next prev z x := by
  have hs : s ≠ [] := by
    rintro rfl
    cases hf
  have happ := @ring_append _ next prev [x] s (cons_ne_nil _ _) hs
  rw [singleton_append] at happ
  rw [happ, hf, hz]
  constructor
  · rintro ⟨-, hchain, hfirst, hlast⟩
    exact ⟨hchain, hfirst x rfl f rfl, hlast z rfl x rfl⟩
  rintro ⟨hchain, hfirst, hlast⟩
  refine ⟨isChain_singleton x, hchain, ?_, ?_⟩
  · rintro _ ⟨⟩ _ ⟨⟩
    exact hfirst
  · rintro _ ⟨⟩ _ ⟨⟩
    exact hlast

theorem ring_of_ends (hchain : Chained next prev s) (hlink : Linked next prev z f) :
    Ring next prev s := by
  refine ⟨hchain, ?_⟩
  rw [hf, hz]
  rintro _ ⟨⟩ _ ⟨⟩
  exact hlink

theorem Ring.ends (h : Ring next prev s) : Linked next prev z f :=
  h.close z hz f hf

omit hf hz

theorem exists_ends (hs : s ≠ []) :
    ∃ f z, s.head? = some f ∧ s.getLast? = some z ∧ f ∈ s ∧ z ∈ s := by
  refine ⟨s.head hs, s.getLast hs, head?_eq_some_head hs, getLast?_eq_some_getLast hs,
    head_mem hs, getLast_mem hs⟩

theorem Ring.links_mem (h : Ring next prev (x :: s)) :
    next x ∈ [[x], s].filterMap head? ∧ prev x ∈ [[x], s].filterMap getLast? := by
  by_cases hs : s = []
  · simp [hs, ring_singleton.mp (hs ▸ h)]
  obtain ⟨f, z, hf, hz, -⟩ := exists_ends hs
  obtain ⟨-, hfirst, hlast⟩ := (ring_cons hf hz).mp h
  simp [hf, hz, hfirst.1, hlast.2]

theorem Chained.congr (h : Chained next prev s) (hnext : ∀ x ∈ s.dropLast, next' x = next x)
    (hprev : ∀ x ∈ s.tail, prev' x = prev x) : Chained next' prev' s := by
  induction s with
  | nil => exact .nil
  | cons x s ih =>
    cases s with
    | nil => exact isChain_singleton x
    | cons y s =>
      obtain ⟨hlink, hrest⟩ := isChain_cons_cons.mp h
      refine isChain_cons_cons.mpr ⟨⟨?_, ?_⟩, ih hrest ?_ ?_⟩
      · rw [hnext x (by simp [List.dropLast]), hlink.1]
      · rw [hprev y (by simp), hlink.2]
      · exact fun w hw => hnext w (by simp [List.dropLast, hw])
      · intro w hw
        exact hprev w (mem_cons_of_mem _ hw)

theorem Ring.congr (h : Ring next prev s) (hnext : ∀ x ∈ s, next' x = next x)
    (hprev : ∀ x ∈ s, prev' x = prev x) : Ring next' prev' s := by
  refine ⟨h.chain.congr (fun x hx => hnext x (dropLast_subset s hx))
    (fun x hx => hprev x (mem_of_mem_tail hx)), fun z hz f hf => ?_⟩
  obtain ⟨hlink, hback⟩ := h.close z hz f hf
  exact ⟨(hnext z (mem_of_getLast? hz)).trans hlink, (hprev f (mem_of_head? hf)).trans hback⟩

theorem ne_of_mem_dropLast (h : s.Nodup) (hz : s.getLast? = some z) (hx : x ∈ s.dropLast) :
    x ≠ z := by
  obtain ⟨i, rfl⟩ := getLast?_eq_some_iff.mp hz
  rw [dropLast_concat] at hx
  rintro rfl
  exact (disjoint_of_nodup_append h) hx (mem_singleton.mpr rfl)

theorem ne_of_mem_tail (h : s.Nodup) (hf : s.head? = some f) (hx : x ∈ s.tail) : x ≠ f := by
  cases s with
  | nil => cases hf
  | cons y s =>
    cases hf
    rintro rfl
    exact (nodup_cons.mp h).1 hx

/-- Only the outer links of the ends of the chains are written. -/
structure Rewired (next prev next' prev' : α → α) (chains : List (List α)) : Prop where
  next : ∀ x ∉ chains.filterMap getLast?, next' x = next x
  prev : ∀ x ∉ chains.filterMap head?, prev' x = prev x

section Rewired

variable {chains : List (List α)} (h : Rewired next prev next' prev' chains)

include h

/-- A ring apart from the rewired chains stays a ring. -/
theorem Rewired.ring (hring : Ring next prev s) (hs : ∀ x ∈ s, x ∉ chains.flatten) :
    Ring next' prev' s := by
  refine hring.congr (fun x hx => h.next x fun hz => ?_) fun x hx => h.prev x fun hf => ?_
  · obtain ⟨t, ht, hz⟩ := mem_filterMap.mp hz
    exact hs x hx (mem_flatten_of_mem ht (mem_of_getLast? hz))
  · obtain ⟨t, ht, hf⟩ := mem_filterMap.mp hf
    exact hs x hx (mem_flatten_of_mem ht (mem_of_head? hf))

theorem Rewired.chained (hnodup : chains.flatten.Nodup) (hs : s ∈ chains)
    (hchain : Chained next prev s) : Chained next' prev' s := by
  obtain ⟨hone, hpair⟩ := nodup_flatten.mp hnodup
  have hsame : ∀ t ∈ chains, ∀ x ∈ s, x ∈ t → t = s := by
    intro t ht x hxs hxt
    by_contra hne
    have : Std.Symm (@List.Disjoint α) := ⟨fun _ _ => disjoint_symm⟩
    exact hpair.forall ht hs hne hxt hxs
  refine hchain.congr (fun x hx => h.next x fun hz => ?_) fun x hx => h.prev x fun hf => ?_
  · obtain ⟨t, ht, hz⟩ := mem_filterMap.mp hz
    obtain rfl := hsame t ht x (dropLast_subset s hx) (mem_of_getLast? hz)
    exact ne_of_mem_dropLast (hone t ht) hz hx rfl
  · obtain ⟨t, ht, hf⟩ := mem_filterMap.mp hf
    obtain rfl := hsame t ht x (mem_of_mem_tail hx) (mem_of_head? hf)
    exact ne_of_mem_tail (hone t ht) hf hx rfl

end Rewired

theorem ring_iff_chained : Ring next prev (x :: s) ↔ Chained next prev (x :: (s ++ [x])) := by
  rw [← cons_append, Chained, isChain_append]
  constructor
  · rintro ⟨hchain, hclose⟩
    exact ⟨hchain, isChain_singleton x, fun z hz f hf => hclose z hz f hf⟩
  · rintro ⟨hchain, -, hclose⟩
    exact ⟨hchain, fun z hz f hf => hclose z hz f hf⟩

theorem Ring.prev_next (h : Ring next prev s) (hx : x ∈ s) :
    prev (next x) = x ∧ next (prev x) = x := by
  obtain ⟨a, b, rfl⟩ := append_of_mem hx
  constructor
  · have hrot : Ring next prev (b ++ (a ++ [x])) := by
      rw [← ring_rotate, append_assoc]
      exact h
    obtain ⟨f, z, hf, hz, -⟩ := @exists_ends _ (b ++ (a ++ [x])) (by simp)
    have hlast : (b ++ (a ++ [x])).getLast? = some x := by
      rw [← append_assoc, getLast?_concat]
    obtain ⟨hnext, hprev⟩ := hrot.ends hf hlast
    rw [hnext, hprev]
  · have hrot : Ring next prev ((x :: b) ++ a) := ring_rotate.mp h
    obtain ⟨f, z, hf, hz, -⟩ := @exists_ends _ ((x :: b) ++ a) (by simp)
    obtain ⟨hnext, hprev⟩ := hrot.ends (f := x) rfl hz
    rw [hprev, hnext]

end LinuxKernel.Lib
