import Mathlib.Data.Set.Lattice
import Mathlib.Order.CompletePartialOrder
import LinuxKernel.Range.RangeArray

/-!
# The set that an array of ranges denotes

Adding a range with merging keeps the ranges apart and adds its values to the set.
Subtracting a range takes its values away, as long as there is an empty slot at each
split.
-/

namespace LinuxKernel.Ranges

open List Function

def Range.toSet (r : Range) : Set Nat :=
  Set.Ico r.start r.stop

/-- The values in the first `az` slots; a slot with end `0` has none. -/
def denotes (range : Nat → Range) (az : Nat) : Set Nat :=
  {x | ∃ i, i < az ∧ x ∈ (range i).toSet}

/-- There is a value, or room for one, between the two ranges. -/
def Range.Apart (r s : Range) : Prop :=
  r.stop < s.start ∨ s.stop < r.start

/-- The slots in use, all below `nrRange`, hold proper ranges that do not touch. -/
structure Separate (range : Nat → Range) (az nrRange : Nat) : Prop where
  fits : nrRange ≤ az
  proper : ∀ i, i < nrRange → (range i).stop ≠ 0 → (range i).start < (range i).stop
  apart : ∀ i j, i < nrRange → j < nrRange → i ≠ j → (range i).stop ≠ 0 → (range j).stop ≠ 0 →
    (range i).Apart (range j)
  rest : ∀ i, nrRange ≤ i → i < az → (range i).stop = 0

variable {range : Nat → Range} {az nrRange i start stop k : Nat}

section Add

variable {r : Range}

theorem Range.toSet_empty (h : r.stop = 0) : r.toSet = ∅ := by
  unfold Range.toSet
  rw [h]
  exact Set.Ico_eq_empty (Nat.not_lt_zero _)

theorem denotes_eq (h : Separate range az nrRange) : denotes range az = denotes range nrRange := by
  ext x
  constructor
  · rintro ⟨i, hi, hx⟩
    by_cases hin : i < nrRange
    · exact ⟨i, hin, hx⟩
    · rw [Range.toSet_empty (h.rest i (by omega) hi)] at hx
      exact absurd hx (Set.notMem_empty x)
  · rintro ⟨i, hi, hx⟩
    exact ⟨i, hi.trans_le h.fits, hx⟩

theorem denotes_update {j : Nat} (hj : j < az) (r : Range) (x : Nat) :
    x ∈ denotes (update range j r) az ↔
      x ∈ r.toSet ∨ ∃ i, i < az ∧ i ≠ j ∧ x ∈ (range i).toSet := by
  constructor
  · rintro ⟨i, hi, hx⟩
    by_cases hij : i = j
    · rw [hij, update_self] at hx
      exact .inl hx
    · rw [update_of_ne hij] at hx
      exact .inr ⟨i, hi, hij, hx⟩
  rintro (hx | ⟨i, hi, hij, hx⟩)
  · refine ⟨j, hj, ?_⟩
    rw [update_self]
    exact hx
  · refine ⟨i, hi, ?_⟩
    rw [update_of_ne hij]
    exact hx

/-- Where a slot comes from when the slot `i` is taken out. -/
def skip (i k : Nat) : Nat :=
  if k < i then k else k + 1

theorem removeSlot_below (k : Nat) (hk : k < nrRange - 1) :
    removeSlot range nrRange i k = range (skip i k) := by
  unfold removeSlot skip
  rw [if_neg hk.ne]
  by_cases hki : k < i
  · rw [if_neg (by omega), if_pos hki]
  · rw [if_pos ⟨by omega, hk⟩, if_neg hki]

theorem Separate.removeSlot (h : Separate range az nrRange) (hi : i < nrRange) :
    Separate (removeSlot range nrRange i) az (nrRange - 1) := by
  have hskip : ∀ k, k < nrRange - 1 → skip i k < nrRange := by
    intro k hk
    unfold skip
    split_ifs <;> omega
  have hfits := h.fits
  refine ⟨by omega, fun k hk => ?_, fun j k hj hk hne => ?_, fun k hk hkaz => ?_⟩
  · rw [removeSlot_below k hk]
    exact h.proper _ (hskip k hk)
  · rw [removeSlot_below j hj, removeSlot_below k hk]
    refine h.apart _ _ (hskip j hj) (hskip k hk) ?_
    unfold skip
    split_ifs <;> omega
  · unfold Ranges.removeSlot
    split_ifs with hlast hmove
    · rfl
    · omega
    · exact h.rest k (by omega) hkaz

theorem denotes_removeSlot (hi : i < nrRange) :
    denotes range nrRange =
      denotes (removeSlot range nrRange i) (nrRange - 1) ∪ (range i).toSet := by
  ext x
  constructor
  · rintro ⟨k, hk, hx⟩
    obtain hlt | rfl | hgt := Nat.lt_trichotomy k i
    · refine .inl ⟨k, by omega, ?_⟩
      rw [removeSlot_below k (by omega), skip, if_pos hlt]
      exact hx
    · exact .inr hx
    · refine .inl ⟨k - 1, by omega, ?_⟩
      rw [removeSlot_below (k - 1) (by omega), skip, if_neg (by omega),
        Nat.sub_add_cancel (by omega)]
      exact hx
  rintro (⟨k, hk, hx⟩ | hx)
  · rw [removeSlot_below k hk] at hx
    refine ⟨skip i k, ?_, hx⟩
    unfold skip
    split_ifs <;> omega
  · exact ⟨i, hi, hx⟩

/-- What the loop found at the slot `i`: those before are apart from the range. -/
def PassedBy (range : Nat → Range) (i start stop : Nat) : Prop :=
  ∀ k, k < i → (range k).stop ≠ 0 → (range k).Apart ⟨start, stop⟩

/-- What the loop leaves. -/
structure MergeSpec (range : Nat → Range) (az nrRange start stop : Nat) (m : Merge) : Prop where
  separate : Separate m.range az m.nrRange
  proper : m.start < m.stop
  apart : PassedBy m.range m.nrRange m.start m.stop
  denotes : denotes m.range m.nrRange ∪ Set.Ico m.start m.stop =
    denotes range nrRange ∪ Set.Ico start stop

theorem PassedBy.next (h : PassedBy range i start stop)
    (hi : (range i).stop ≠ 0 → (range i).Apart ⟨start, stop⟩) :
    PassedBy range (i + 1) start stop := by
  intro k hk hfull
  by_cases hki : k = i
  · rw [hki] at hfull ⊢
    exact hi hfull
  · exact h k (by omega) hfull

variable (hsep : Separate range az nrRange)

include hsep

/-- A slot apart from two touching ranges is apart from what they cover. -/
theorem PassedBy.merged (hi : i < nrRange) (hfull : (range i).stop ≠ 0)
    (htouch : ¬ max (range i).start start > min (range i).stop stop)
    (h : PassedBy range i start stop) :
    PassedBy (removeSlot range nrRange i) i
      (min (range i).start start) (max (range i).stop stop) := by
  intro k hk
  rw [removeSlot_below k (by omega), skip, if_pos hk]
  intro hkfull
  have hold := h k hk hkfull
  have hpair := hsep.apart k i (by omega) hi hk.ne hkfull hfull
  have hproper := hsep.proper k (by omega) hkfull
  unfold Range.Apart at hold hpair ⊢
  simp only at hold ⊢
  omega

/-- The loop takes out all ranges that touch the new one. -/
theorem mergeLoop_spec (hproper : start < stop) (hi : i ≤ nrRange)
    (hpassed : PassedBy range i start stop) :
    MergeSpec range az nrRange start stop (mergeLoop range nrRange i start stop) := by
  fun_induction mergeLoop range nrRange i start stop with
  | case1 range nrRange i start stop hin hempty ih =>
    exact ih hsep hproper hin (hpassed.next fun hfull => absurd hempty hfull)
  | case2 range nrRange i start stop hin hempty haway ih =>
    refine ih hsep hproper hin (hpassed.next fun _ => ?_)
    have hown := hsep.proper i hin hempty
    unfold Range.Apart
    simp only
    omega
  | case3 range nrRange i start stop hin hempty haway ih =>
    have hrest := ih (hsep.removeSlot hin) (by omega) (by omega)
      (.merged hsep hin hempty haway hpassed)
    refine ⟨hrest.separate, hrest.proper, hrest.apart, ?_⟩
    rw [hrest.denotes, denotes_removeSlot hin, Set.union_assoc]
    congr 1
    ext x
    simp only [Range.toSet, Set.mem_union, Set.mem_Ico]
    omega
  | case4 range nrRange i start stop hin =>
    have heq : i = nrRange := by omega
    exact ⟨hsep, hproper, heq ▸ hpassed, rfl⟩

omit hsep in
theorem mergeLoop_count_le (range : Nat → Range) (nrRange i start stop : Nat) :
    (mergeLoop range nrRange i start stop).nrRange ≤ nrRange := by
  fun_induction mergeLoop range nrRange i start stop with
  | case1 _ _ _ _ _ _ _ ih => exact ih
  | case2 _ _ _ _ _ _ _ _ ih => exact ih
  | case3 _ _ _ _ _ _ _ _ ih => exact ih.trans (Nat.sub_le _ _)
  | case4 => exact le_rfl

theorem mergeLoop_count_lt (hproper : start < stop) (hi : i ≤ nrRange) (hik : i ≤ k)
    (hk : k < nrRange) (hfull : (range k).stop ≠ 0) (htouch : ¬ (range k).Apart ⟨start, stop⟩) :
    (mergeLoop range nrRange i start stop).nrRange < nrRange := by
  induction hm : nrRange - i using Nat.strongRecOn generalizing i with
  | ind m ih =>
    rw [mergeLoop, if_pos (by omega)]
    have hnext : i ≠ k →
        (mergeLoop range nrRange (i + 1) start stop).nrRange < nrRange := fun hne =>
      ih _ (by omega) (by omega) (by omega) rfl
    split_ifs with hempty haway
    · exact hnext fun heq => hfull (heq ▸ hempty)
    · refine hnext fun heq => htouch ?_
      have hown := hsep.proper k hk hfull
      rw [heq] at haway
      unfold Range.Apart
      simp only
      omega
    · have hle := mergeLoop_count_le (removeSlot range nrRange i) (nrRange - 1) i
        (min (range i).start start) (max (range i).stop stop)
      omega

theorem addRange_spec (hproper : start < stop) (hpassed : PassedBy range nrRange start stop) :
    Separate (addRange range az nrRange start stop).1 az (addRange range az nrRange start stop).2 ∧
      (nrRange < az → denotes (addRange range az nrRange start stop).1 az =
        denotes range nrRange ∪ Set.Ico start stop) := by
  rw [addRange, if_neg (by omega)]
  split_ifs with hfull
  · exact ⟨hsep, fun hlt => absurd hlt (by omega)⟩
  have hold : ∀ k, k ≠ nrRange → update range nrRange ⟨start, stop⟩ k = range k := fun k hk =>
    update_of_ne hk _ _
  have hnew : update range nrRange ⟨start, stop⟩ nrRange = ⟨start, stop⟩ :=
    update_self _ _ _
  have hsep' : Separate (update range nrRange ⟨start, stop⟩) az (nrRange + 1) := by
    refine ⟨by omega, fun i hi => ?_, fun i j hi hj hne => ?_, fun i hi hiaz => ?_⟩
    · by_cases hin : i = nrRange
      · rw [hin, hnew]
        exact fun _ => hproper
      · rw [hold i hin]
        exact hsep.proper i (by omega)
    · by_cases hin : i = nrRange
      · rw [hin, hnew, hold j (by omega)]
        exact fun _ hjfull => (hpassed j (by omega) hjfull).symm
      rw [hold i hin]
      by_cases hjn : j = nrRange
      · rw [hjn, hnew]
        exact fun hifull _ => hpassed i (by omega) hifull
      · rw [hold j hjn]
        exact hsep.apart i j (by omega) (by omega) hne
    · rw [hold i (by omega)]
      exact hsep.rest i (by omega) hiaz
  refine ⟨hsep', fun _ => ?_⟩
  rw [denotes_eq hsep']
  ext x
  rw [denotes_update (Nat.lt_succ_self nrRange), Set.mem_union, or_comm]
  refine or_congr_left (exists_congr fun i => ?_)
  rw [← and_assoc]
  exact and_congr_left fun _ => by omega

/-- A slot is left without the ranges that touch the new one. -/
def SlotLeft (range : Nat → Range) (az nrRange start stop : Nat) : Prop :=
  nrRange < az ∨ ∃ i, i < nrRange ∧ (range i).stop ≠ 0 ∧ ¬ (range i).Apart ⟨start, stop⟩

theorem addRangeWithMerge_spec (start stop : Nat) :
    Separate (addRangeWithMerge range az nrRange start stop).1 az
        (addRangeWithMerge range az nrRange start stop).2 ∧
      (SlotLeft range az nrRange start stop →
        denotes (addRangeWithMerge range az nrRange start stop).1 az =
          denotes range az ∪ Set.Ico start stop) := by
  rw [addRangeWithMerge]
  split_ifs with hempty
  · refine ⟨hsep, fun _ => ?_⟩
    rw [Set.Ico_eq_empty (by omega), Set.union_empty]
  have hmerge := mergeLoop_spec hsep (not_le.mp hempty) (Nat.zero_le _)
    fun k hk => absurd hk (Nat.not_lt_zero k)
  obtain ⟨hkeep, hunion⟩ := addRange_spec hmerge.separate hmerge.proper hmerge.apart
  refine ⟨hkeep, fun hleft => ?_⟩
  rw [denotes_eq hsep, ← hmerge.denotes]
  refine hunion ?_
  obtain hlt | ⟨i, hi, hfull, htouch⟩ := hleft
  · exact (mergeLoop_count_le range nrRange 0 start stop).trans_lt hlt
  · exact (mergeLoop_count_lt hsep (not_le.mp hempty) (Nat.zero_le _) (Nat.zero_le _) hi hfull
      htouch).trans_le hsep.fits

end Add

/-- The range goes on on both sides of `[start, stop)`. -/
def Range.NeedsSplit (start stop : Nat) (r : Range) : Prop :=
  r.start < start ∧ stop < r.stop

variable {j : Nat} {range₀ range' : Nat → Range}

theorem findEmpty_some (h : findEmpty range az = some i) : i < az ∧ (range i).stop = 0 := by
  unfold findEmpty at h
  have hmem := mem_of_find?_eq_some h
  have hprop := find?_some h
  exact ⟨mem_range.mp hmem, beq_iff_eq.mp hprop⟩

theorem findEmpty_none (h : findEmpty range az = none) (hi : i < az) : (range i).stop ≠ 0 := by
  unfold findEmpty at h
  intro hempty
  have hfull := find?_eq_none.mp h i (mem_range.mpr hi)
  exact hfull (beq_iff_eq.mpr hempty)

/-- One turn at a slot: the slot, and the slot for the part above. -/
inductive Turn (range : Nat → Range) (az start stop j : Nat) : (Nat → Range) → Prop
  | stay (hout : Disjoint (range j).toSet (Set.Ico start stop)) : Turn range az start stop j range
  | write (r : Range) (hone : ¬ (range j).NeedsSplit start stop)
      (hset : r.toSet = (range j).toSet \ Set.Ico start stop)
      (hfull : (range j).stop ≠ 0) :
      Turn range az start stop j (Function.update range j r)
  | split (i : Nat) (hi : i < az) (hempty : (range i).stop = 0) (hij : i ≠ j)
      (hsplit : (range j).NeedsSplit start stop) :
      Turn range az start stop j
        (Function.update (Function.update range i ⟨stop, (range j).stop⟩) j
          ⟨(range j).start, start⟩)

/-- One turn takes the values away from its slot. -/
theorem subtractSlot_turn (j : Nat)
    (hspare : (range j).NeedsSplit start stop → ∃ i, i < az ∧ (range i).stop = 0) :
    Turn range az start stop j (subtractSlot range az start stop j) := by
  have hdisjoint : ∀ r : Range, (∀ x, r.start ≤ x → x < r.stop → ¬ (start ≤ x ∧ x < stop)) →
      Disjoint r.toSet (Set.Ico start stop) := fun r h =>
    Set.disjoint_left.mpr fun x hx hin => h x hx.1 hx.2 hin
  have hwrite : (range j).stop ≠ 0 → ∀ r : Range,
      ¬ ((range j).start < start ∧ stop < (range j).stop) →
      (∀ x, r.start ≤ x ∧ x < r.stop ↔
        ((range j).start ≤ x ∧ x < (range j).stop) ∧ ¬ (start ≤ x ∧ x < stop)) →
      Turn range az start stop j (update range j r) := fun hfull r hone hset =>
    .write r hone (Set.ext hset) hfull
  rw [subtractSlot]
  split_ifs with hempty hcover hlow hhigh hsplit
  · refine .stay (hdisjoint _ fun x _ hx => ?_)
    omega
  · refine hwrite hempty .zero (by omega) fun x => ?_
    simp only [Range.zero]
    omega
  · exact hwrite hempty _ (by omega) fun x => by simp only; omega
  · exact hwrite hempty _ (by omega) fun x => by simp only; omega
  · have hneeds : (range j).NeedsSplit start stop := hsplit
    cases hfind : findEmpty range az with
    | none =>
      obtain ⟨i, hi, hfree⟩ := hspare hneeds
      exact absurd hfree (findEmpty_none hfind hi)
    | some i =>
      obtain ⟨hi, hfree⟩ := findEmpty_some hfind
      exact .split i hi hfree (fun heq => hempty (heq ▸ hfree)) hneeds
  · refine .stay (hdisjoint _ fun x hx hx' => ?_)
    omega

/-- The values outside `[start, stop)` are those of the first array; the slots passed have no
others. -/
structure Subtracting (range₀ : Nat → Range) (az start stop j : Nat) (range : Nat → Range) :
    Prop where
  passed : ∀ k, k < j → Disjoint (range k).toSet (Set.Ico start stop)
  outside : ∀ x, x ∉ Set.Ico start stop → (x ∈ denotes range az ↔ x ∈ denotes range₀ az)

variable (h : Subtracting range₀ az start stop j range)

include h

theorem Subtracting.write {k : Nat} (hk : k < az)
    (r : Range) (hset : ∀ x, x ∉ Set.Ico start stop → (x ∈ r.toSet ↔ x ∈ (range k).toSet))
    (hpassed : k < j → Disjoint r.toSet (Set.Ico start stop)) :
    Subtracting range₀ az start stop j (update range k r) := by
  refine ⟨fun l hl => ?_, fun x hx => ?_⟩
  · by_cases hlk : l = k
    · rw [hlk, update_self]
      exact hpassed (hlk ▸ hl)
    · rw [update_of_ne hlk]
      exact h.passed l hl
  · rw [← h.outside x hx, denotes_update hk, hset x hx, ← denotes_update hk, update_eq_self]

theorem Subtracting.pass (hout : Disjoint (range j).toSet (Set.Ico start stop)) :
    Subtracting range₀ az start stop (j + 1) range := by
  refine ⟨fun k hk => ?_, h.outside⟩
  by_cases hkj : k = j
  · exact hkj ▸ hout
  · exact h.passed k (by omega)

variable (hproper : start < stop)

include hproper

theorem Subtracting.turn (hj : j < az)
    (hturn : Turn range az start stop j range') :
    Subtracting range₀ az start stop (j + 1) range' := by
  cases hturn with
  | stay hout => exact h.pass hout
  | write r _ hset _ =>
    have hwrite := h.write hj r (fun x hx => by rw [hset]; exact and_iff_left hx)
      fun hlt => absurd hlt (lt_irrefl j)
    refine hwrite.pass ?_
    rw [update_self, hset]
    exact Set.disjoint_sdiff_left
  | split i hi hempty hij hsplit =>
    obtain ⟨hlow, hhigh⟩ := hsplit
    refine .pass ⟨fun k hk => ?_, fun x hx => ?_⟩ ?_
    · rw [update_of_ne hk.ne]
      by_cases hki : k = i
      · rw [hki, update_self]
        exact Set.disjoint_left.mpr fun x hx hin => absurd hx.1 (not_le.mpr hin.2)
      · rw [update_of_ne hki]
        exact h.passed k hk
    · -- The two parts have the values of the slot; the slot of the part above had none.
      rw [← h.outside x hx, denotes_update hj, ← update_eq_self j range,
        denotes_update hj, update_eq_self]
      rw [Set.mem_Ico] at hx
      constructor
      · rintro (hx' | ⟨k, hk, hkj, hx'⟩)
        · exact .inl ⟨hx'.1, by have := hx'.2; simp only at this; omega⟩
        · by_cases hki : k = i
          · rw [hki, update_self] at hx'
            exact .inl ⟨by have := hx'.1; simp only at this; omega, hx'.2⟩
          · rw [update_of_ne hki] at hx'
            exact .inr ⟨k, hk, hkj, hx'⟩
      rintro (hx' | ⟨k, hk, hkj, hx'⟩)
      · by_cases hbelow : x < start
        · exact .inl ⟨hx'.1, hbelow⟩
        · refine .inr ⟨i, hi, hij, ?_⟩
          rw [update_self]
          exact ⟨by simp only; omega, hx'.2⟩
      refine .inr ⟨k, hk, hkj, ?_⟩
      have hki : k ≠ i := by
        rintro rfl
        rw [Range.toSet_empty hempty] at hx'
        exact Set.notMem_empty x hx'
      rw [update_of_ne hki]
      exact hx'
    · rw [update_self]
      exact Set.disjoint_left.mpr fun x hx hin => absurd hx.2 (not_lt.mpr hin.1)

omit h

/-- There is an empty slot at each turn that splits a range. -/
def SpareAtSplits (range : Nat → Range) (az start stop : Nat) : Prop :=
  ∀ j, j < az → (subtractTurns range az start stop j j).NeedsSplit start stop →
    ∃ i, i < az ∧ (subtractTurns range az start stop j i).stop = 0

/-- The invariant after `j` turns. -/
theorem subtractTurns_spec (hspare : SpareAtSplits range az start stop) (j : Nat) (hj : j ≤ az) :
    Subtracting range az start stop j (subtractTurns range az start stop j) := by
  induction j with
  | zero => exact ⟨fun k hk => absurd hk (Nat.not_lt_zero k), fun x _ => Iff.rfl⟩
  | succ j ih => exact (ih (by omega)).turn hproper hj (subtractSlot_turn j (hspare j hj))

omit hproper in
theorem subtractRange_denotes (hspare : start < stop → SpareAtSplits range az start stop) :
    denotes (subtractRange range az start stop) az = denotes range az \ Set.Ico start stop := by
  rw [subtractRange]
  split_ifs with hempty
  · rw [Set.Ico_eq_empty (by omega), Set.sdiff_empty]
  have hdone := subtractTurns_spec (not_le.mp hempty) (hspare (not_le.mp hempty)) az le_rfl
  ext x
  constructor
  · rintro ⟨k, hk, hx⟩
    have hout : x ∉ Set.Ico start stop := Set.disjoint_left.mp (hdone.passed k hk) hx
    exact ⟨(hdone.outside x hout).mp ⟨k, hk, hx⟩, hout⟩
  · rintro ⟨hx, hout⟩
    exact (hdone.outside x hout).mpr hx

theorem Separate.needsSplit_unique (hsep : Separate range az nrRange) (hi : i < az) (hj : j < az)
    (hsi : (range i).NeedsSplit start stop) (hsj : (range j).NeedsSplit start stop) : i = j := by
  obtain ⟨hilow, hihigh⟩ := hsi
  obtain ⟨hjlow, hjhigh⟩ := hsj
  have hbelow : ∀ k, k < az → (range k).stop ≠ 0 → k < nrRange := by
    intro k hk hfull
    by_contra hge
    exact hfull (hsep.rest k (by omega) hk)
  by_contra hne
  have hapart := hsep.apart i j (hbelow i hi (by omega)) (hbelow j hj (by omega)) hne (by omega)
    (by omega)
  unfold Range.Apart at hapart
  omega

/-- The slots not reached, and the empty slot while one of them is to be split. -/
structure BeforeSplit (range₀ : Nat → Range) (az start stop j : Nat) (range : Nat → Range) :
    Prop where
  ahead : ∀ k, j ≤ k → range k = range₀ k ∨ stop ≤ (range k).start
  spare : ∀ k, j ≤ k → k < az → (range₀ k).NeedsSplit start stop → ∃ i, i < az ∧ (range i).stop = 0

theorem BeforeSplit.same (h : BeforeSplit range₀ az start stop j range)
    (hneeds : (range j).NeedsSplit start stop) : range j = range₀ j := by
  refine (h.ahead j le_rfl).resolve_right fun hout => ?_
  have hlow := hneeds.1
  omega

theorem BeforeSplit.turn (hsep : Separate range₀ az nrRange) (hj : j < az)
    (h : BeforeSplit range₀ az start stop j range) (hturn : Turn range az start stop j range') :
    BeforeSplit range₀ az start stop (j + 1) range' := by
  cases hturn with
  | stay _ => exact ⟨fun k hk => h.ahead k (by omega), fun k hk => h.spare k (by omega)⟩
  | write r _ _ hfull =>
    refine ⟨fun k hk => ?_, fun k hk hkaz hneeds => ?_⟩
    · rw [update_of_ne (by omega)]
      exact h.ahead k (by omega)
    obtain ⟨i, hi, hempty⟩ := h.spare k (by omega) hkaz hneeds
    have hij : i ≠ j := by
      rintro rfl
      exact hfull hempty
    refine ⟨i, hi, ?_⟩
    rw [update_of_ne hij]
    exact hempty
  | split i hi hempty hij hneeds =>
    refine ⟨fun k hk => ?_, fun k hk hkaz hlater => ?_⟩
    · rw [update_of_ne (by omega)]
      by_cases hki : k = i
      · rw [hki, update_self]
        exact .inr le_rfl
      · rw [update_of_ne hki]
        exact h.ahead k (by omega)
    · have hsame := h.same hproper hneeds
      rw [hsame] at hneeds
      have := hsep.needsSplit_unique hproper hj hkaz hneeds hlater
      omega

variable (hsep : Separate range az nrRange)
  (hspare : ∀ j, j < az → (range j).NeedsSplit start stop → ∃ i, i < az ∧ (range i).stop = 0)

include hsep hspare

theorem Separate.beforeSplit (j : Nat) (hj : j ≤ az) :
    BeforeSplit range az start stop j (subtractTurns range az start stop j) := by
  induction j with
  | zero => exact ⟨fun k _ => .inl rfl, fun k _ => hspare k⟩
  | succ j ih =>
    have hbefore := ih (by omega)
    refine hbefore.turn hproper hsep hj (subtractSlot_turn j fun hneeds => ?_)
    exact hbefore.spare j le_rfl hj (hbefore.same hproper hneeds ▸ hneeds)

theorem Separate.spareAtSplits : SpareAtSplits range az start stop := by
  intro j hj hneeds
  have hbefore := hsep.beforeSplit hproper hspare j hj.le
  exact hbefore.spare j le_rfl hj (hbefore.same hproper hneeds ▸ hneeds)

end LinuxKernel.Ranges
