import Mathlib.Algebra.Ring.Nat
import LinuxKernel.Range.RangeSets

/-!
# Compacting and sorting an array of ranges

`clean_sort_range` moves the slots in use to the front, counts them and sorts them by
their starts.  The list of the slots in use is only permuted.
-/

namespace LinuxKernel.Ranges

open Sorting
open List hiding swap
open Function (update update_of_ne update_self)

section Compact

variable {range range' : Nat → Range} {az i j k : Nat}

/-- The ranges of the slots in use, in the order of the slots. -/
def inUse (range : Nat → Range) (az : Nat) : List Range :=
  ((List.range az).map range).filter fun r => r.stop ≠ 0

/-- The slots before `m` are in use, the others are not. -/
def Packed (range : Nat → Range) (az m : Nat) : Prop :=
  m ≤ az ∧ (∀ l, l < m → (range l).stop ≠ 0) ∧ ∀ l, m ≤ l → l < az → (range l).stop = 0

theorem inUse_congr
    (h : ∀ l, l < az → range' l = range l ∨ (range' l).stop = 0 ∧ (range l).stop = 0) :
    inUse range' az = inUse range az := by
  unfold inUse
  induction az with
  | zero => rfl
  | succ n ih =>
    rw [range_succ, map_append, map_append, filter_append,
      filter_append, ih fun l hl => h l (by omega)]
    congr 1
    obtain heq | ⟨hempty', hempty⟩ := h n (by omega)
    · rw [map_singleton, map_singleton, heq]
    · simp [hempty', hempty]

theorem inUse_move (hij : i < j) (hj : j < az) (hempty : (range i).stop = 0) :
    (inUse (update (update range i (range j)) j Range.zero) az).Perm (inUse range az) := by
  have hswap : inUse (update (update range i (range j)) j .zero) az =
      inUse (swap range i j) az := by
    refine inUse_congr fun l _ => ?_
    unfold swap
    by_cases hlj : l = j
    · rw [hlj, update_self, if_neg hij.ne', if_pos rfl]
      exact .inr ⟨rfl, hempty⟩
    rw [update_of_ne hlj, if_neg hlj]
    by_cases hli : l = i
    · rw [hli, update_self, if_pos rfl]
      exact .inl rfl
    · rw [update_of_ne hli, if_neg hli]
      exact .inl rfl
  rw [hswap]
  exact (rearranged_swap range (hij.trans hj) hj).perm.filter _

/-- The loop's invariant: in use before `i`, empty after `k`. -/
structure Compacting (range : Nat → Range) (az i k : Nat) : Prop where
  before : ∀ l, l < i → (range l).stop ≠ 0
  after : ∀ l, k < l → l < az → (range l).stop = 0
  order : i ≤ k + 1

theorem Compacting.next (h : Compacting range az i k) (hik : i < k) (hfull : (range i).stop ≠ 0) :
    Compacting range az (i + 1) k := by
  refine ⟨fun l hl => ?_, h.after, by omega⟩
  by_cases hli : l = i
  · rw [hli]
    exact hfull
  · exact h.before l (by omega)

theorem Compacting.move (h : Compacting range az i k) (hfind : findLast range i k = some j) :
    Compacting (update (update range i (range j)) j Range.zero) az (i + 1) (j - 1) := by
  obtain ⟨hij, hjk, hfull, habove⟩ := findLast_some hfind
  refine ⟨fun l hl => ?_, fun l hl hlaz => ?_, by omega⟩
  · rw [update_of_ne (by omega)]
    by_cases hli : l = i
    · rw [hli, update_self]
      exact hfull
    · rw [update_of_ne hli]
      exact h.before l (by omega)
  by_cases hlj : l = j
  · rw [hlj, update_self]
    rfl
  · rw [update_of_ne hlj, update_of_ne (by omega)]
    by_cases hlk : l ≤ k
    · exact habove l (by omega) hlk
    · exact h.after l (by omega) hlaz

/-- The loop packs the slots in use and only permutes them. -/
theorem compact_spec (h : Compacting range az i k) (hk : k < az) :
    (∃ m, Packed (compact range i k) az m) ∧
      (inUse (compact range i k) az).Perm (inUse range az) := by
  fun_induction compact range i k with
  | case1 range i k hik hfull ih => exact ih (h.next hik hfull) hk
  | case2 range i k hik hempty hfind =>
    have hnone := findLast_none hfind
    refine ⟨⟨i, by omega, h.before, fun l hl hlaz => ?_⟩, .refl _⟩
    by_cases hli : l = i
    · rw [hli]
      exact not_not.mp hempty
    · by_cases hlk : l ≤ k
      · exact hnone l (by omega) hlk
      · exact h.after l (by omega) hlaz
  | case3 range i k hik hempty j hfind ih =>
    obtain ⟨hij, hjk, -, -⟩ := findLast_some hfind
    obtain ⟨hpacked, hperm⟩ := ih (h.move hfind) (by omega)
    exact ⟨hpacked, hperm.trans (inUse_move hij (by omega) (not_not.mp hempty))⟩
  | case4 range i k hik =>
    refine ⟨?_, .refl _⟩
    have horder := h.order
    -- The cursors have met: only the slot `k` may be in use or not.
    by_cases hlast : i = k ∧ (range k).stop = 0
    · refine ⟨k, hk.le, fun l hl => h.before l (by omega), fun l hl hlaz => ?_⟩
      by_cases hlk : l = k
      · rw [hlk]
        exact hlast.2
      · exact h.after l (by omega) hlaz
    refine ⟨k + 1, hk, fun l hl => ?_, fun l hl hlaz => h.after l (by omega) hlaz⟩
    by_cases hli : l < i
    · exact h.before l hli
    · have hlk : l = k := by omega
      rw [hlk]
      exact fun hzero => hlast ⟨by omega, hzero⟩

variable {m : Nat}

theorem findEmpty_packed (h : Packed range az m) : (findEmpty range az).getD az = m := by
  obtain ⟨hm, hfull, hempty⟩ := h
  cases hfind : findEmpty range az with
  | none =>
    by_contra hne
    have hlt : m < az := lt_of_le_of_ne hm fun heq => hne heq.symm
    exact findEmpty_none hfind hlt (hempty m le_rfl hlt)
  | some i =>
    obtain ⟨hi, hzero⟩ := findEmpty_some hfind
    have hmi : m ≤ i := by
      by_contra hlt
      exact hfull i (by omega) hzero
    -- The search returns the first empty slot.
    by_contra hne
    unfold findEmpty at hfind
    obtain ⟨-, -, hfirst⟩ := List.find?_range_eq_some.mp hfind
    have hgt : m < i := lt_of_le_of_ne hmi fun heq => hne heq.symm
    have hm0 := hempty m le_rfl (by omega)
    have := hfirst m hgt
    simp [hm0] at this

theorem inUse_packed (h : Packed range az m) : inUse range az = (List.range m).map range := by
  obtain ⟨hm, hfull, hempty⟩ := h
  obtain ⟨d, rfl⟩ := Nat.exists_eq_add_of_le hm
  have hfront : ((List.range m).map range).filter (fun r => r.stop ≠ 0) =
      (List.range m).map range := by
    refine filter_eq_self.mpr fun r hr => ?_
    obtain ⟨l, hl, rfl⟩ := mem_map.mp hr
    exact decide_eq_true (hfull l (mem_range.mp hl))
  have hback : (((List.range d).map (m + ·)).map range).filter (fun r => r.stop ≠ 0) = [] := by
    refine filter_eq_nil_iff.mpr fun r hr => ?_
    obtain ⟨l, hl, rfl⟩ := mem_map.mp hr
    obtain ⟨t, ht, rfl⟩ := mem_map.mp hl
    have hlt := mem_range.mp ht
    simp [hempty (m + t) (by omega) (by omega)]
  unfold inUse
  rw [range_add, map_append, filter_append, hfront, hback, append_nil]

theorem compares_cmpRange : Compares cmpRange Range.start := by
  refine ⟨fun x y => ?_, fun x y => ?_⟩
  all_goals
    unfold cmpRange
    split_ifs <;> omega

theorem cleanSortRange_spec (range : Nat → Range) (az : Nat) :
    Packed (cleanSortRange range az).1 az (cleanSortRange range az).2 ∧
      (cleanSortRange range az).2 = (inUse range az).length ∧
      (inUse (cleanSortRange range az).1 az).Perm (inUse range az) ∧
      (inUse (cleanSortRange range az).1 az).Pairwise fun r s => r.start ≤ s.start := by
  have hstart : Compacting range az 0 (az - 1) :=
    ⟨fun l hl => absurd hl (Nat.not_lt_zero l), fun l hl hlaz => absurd hl (by omega),
      Nat.zero_le _⟩
  have hcompact : (∃ m, Packed (compact range 0 (az - 1)) az m) ∧
      (inUse (compact range 0 (az - 1)) az).Perm (inUse range az) := by
    by_cases haz : az = 0
    · subst haz
      exact ⟨⟨0, le_rfl, fun l hl => absurd hl (Nat.not_lt_zero l),
        fun l _ hl => absurd hl (Nat.not_lt_zero l)⟩, .refl _⟩
    · exact compact_spec hstart (by omega)
  obtain ⟨⟨m, hpacked⟩, hperm⟩ := hcompact
  have hcount := findEmpty_packed hpacked
  obtain ⟨hrearranged, hsorted⟩ := sort_spec compares_cmpRange (compact range 0 (az - 1)) m
  have hresult : cleanSortRange range az = (sort cmpRange (compact range 0 (az - 1)) m, m) := by
    unfold cleanSortRange
    simp only
    rw [hcount]
  -- Sorting permutes the packed slots, so they stay packed.
  have hkeep : Packed (sort cmpRange (compact range 0 (az - 1)) m) az m := by
    obtain ⟨hm, hfull, hempty⟩ := hpacked
    refine ⟨hm, fun l hl => ?_, fun l hl hlaz => ?_⟩
    · obtain ⟨l', hl', heq⟩ := hrearranged.below hl
      rw [heq]
      exact hfull l' hl'
    · rw [hrearranged.above hl]
      exact hempty l hl hlaz
  rw [hresult]
  refine ⟨hkeep, ?_, ?_, ?_⟩
  · rw [← hperm.length_eq, inUse_packed hpacked, length_map, length_range]
  · rw [inUse_packed hkeep]
    exact (hrearranged.perm.trans (inUse_packed hpacked ▸ .refl _)).trans hperm
  · rw [inUse_packed hkeep, pairwise_map]
    refine .imp_of_mem (fun {j k} hj hk hlt => ?_) (pairwise_lt_range)
    exact hsorted j k (le_of_lt hlt) (mem_range.mp hk)

end Compact

/-- Adding with merging keeps the ranges separate and adds the values when a slot is left;
subtracting takes the values away when there is a slot at each split (one empty slot is enough when
the ranges are separate); cleaning packs, sorts and counts the ranges, of 16 bytes, as long as their
size fits in the `int` of `sort()`. -/
theorem range_arrays (range : Nat → Range) (az start stop : Nat) :
    (∀ nrRange, Separate range az nrRange →
      Separate (addRangeWithMerge range az nrRange start stop).1 az
          (addRangeWithMerge range az nrRange start stop).2 ∧
        (SlotLeft range az nrRange start stop →
          denotes (addRangeWithMerge range az nrRange start stop).1 az =
            denotes range az ∪ Set.Ico start stop)) ∧
      ((start < stop → SpareAtSplits range az start stop) →
        denotes (subtractRange range az start stop) az = denotes range az \ Set.Ico start stop) ∧
      (∀ nrRange, Separate range az nrRange →
        (∀ j, j < az → (range j).NeedsSplit start stop → ∃ i, i < az ∧ (range i).stop = 0) →
        denotes (subtractRange range az start stop) az = denotes range az \ Set.Ico start stop) ∧
      ((inUse range az).length * 16 < 2 ^ 31 →
        Packed (cleanSortRange range az).1 az (cleanSortRange range az).2 ∧
          (cleanSortRange range az).2 = (inUse range az).length ∧
          (inUse (cleanSortRange range az).1 az).Perm (inUse range az) ∧
          (inUse (cleanSortRange range az).1 az).Pairwise fun r s => r.start ≤ s.start) := by
  refine ⟨fun nrRange hsep => addRangeWithMerge_spec hsep start stop, subtractRange_denotes,
    fun nrRange hsep hspare => ?_, fun _ => cleanSortRange_spec range az⟩
  exact subtractRange_denotes fun hproper => hsep.spareAtSplits hproper hspare

/-- One range in two slots, joined with the range behind it and split. -/
def oneOfTwo : Nat → Range :=
  fun i => if i = 0 then ⟨1, 6⟩ else Range.zero

theorem range_arrays_oneOfTwo :
    denotes (addRangeWithMerge oneOfTwo 2 1 6 8).1 2 = denotes oneOfTwo 2 ∪ Set.Ico 6 8 ∧
      denotes (subtractRange oneOfTwo 2 3 5) 2 = denotes oneOfTwo 2 \ Set.Ico 3 5 ∧
      (cleanSortRange oneOfTwo 2).2 = 1 := by
  have hsep : Separate oneOfTwo 2 1 := by
    refine ⟨by decide, fun i hi _ => ?_, fun i j hi hj hne => absurd hne (by omega),
      fun i hi _ => ?_⟩
    · obtain rfl : i = 0 := by omega
      decide
    · unfold oneOfTwo
      rw [if_neg (by omega)]
      rfl
  exact ⟨((range_arrays oneOfTwo 2 6 8).1 1 hsep).2 (.inl (by decide)),
    (range_arrays oneOfTwo 2 3 5).2.2.1 1 hsep fun _ _ _ => ⟨1, by decide, rfl⟩,
    ((range_arrays oneOfTwo 2 3 5).2.2.2 (by decide)).2.1⟩

end LinuxKernel.Ranges
