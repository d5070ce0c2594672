import LinuxKernel.Sorting.HeapSort

/-!
# Arrays of ranges

The functions of `kernel/range.c`.  An array has `az` slots, each holds a range of `u64`
values with its end left out, and a slot whose end is `0` is empty.  The bounds are only
copied and compared, so they are natural numbers here.
-/

namespace LinuxKernel.Ranges

open Sorting Function

/-- `struct range`; `stop` is its `end`. -/
structure Range where
  start : Nat
  stop : Nat
deriving DecidableEq

def Range.zero : Range :=
  ⟨0, 0⟩

variable (range : Nat → Range)

/-- `add_range`: the new contents and the number in use. -/
def addRange (az nrRange start stop : Nat) : (Nat → Range) × Nat :=
  if start ≥ stop then
    (range, nrRange)
  else if nrRange ≥ az then
    (range, nrRange)
  else
    (update range nrRange ⟨start, stop⟩, nrRange + 1)

/-- The slots after `i` move down, and the last one in use is cleared. -/
def removeSlot (nrRange i : Nat) : Nat → Range :=
  fun k =>
    if k = nrRange - 1 then Range.zero
    else if i ≤ k ∧ k < nrRange - 1 then range (k + 1)
    else range k

/-- What the loop of `add_range_with_merge` changes. -/
structure Merge where
  range : Nat → Range
  nrRange : Nat
  start : Nat
  stop : Nat

/-- The loop of `add_range_with_merge` from the slot `i` on. -/
def mergeLoop (range : Nat → Range) (nrRange i start stop : Nat) : Merge :=
  if i < nrRange then
    if (range i).stop = 0 then
      mergeLoop range nrRange (i + 1) start stop
    else if max (range i).start start > min (range i).stop stop then
      mergeLoop range nrRange (i + 1) start stop
    else
      mergeLoop (removeSlot range nrRange i) (nrRange - 1) i
        (min (range i).start start) (max (range i).stop stop)
  else
    ⟨range, nrRange, start, stop⟩
termination_by nrRange - i

def addRangeWithMerge (az nrRange start stop : Nat) : (Nat → Range) × Nat :=
  if start ≥ stop then
    (range, nrRange)
  else
    let merged := mergeLoop range nrRange 0 start stop
    addRange merged.range az merged.nrRange merged.start merged.stop

def findEmpty (az : Nat) : Option Nat :=
  (List.range az).find? fun i => (range i).stop == 0

/-- One turn of the loop of `subtract_range`. -/
def subtractSlot (az start stop j : Nat) : Nat → Range :=
  if (range j).stop = 0 then
    range
  else if start ≤ (range j).start ∧ stop ≥ (range j).stop then
    update range j Range.zero
  else if start ≤ (range j).start ∧ stop < (range j).stop ∧ (range j).start < stop then
    update range j ⟨stop, (range j).stop⟩
  else if start > (range j).start ∧ stop ≥ (range j).stop ∧ (range j).stop > start then
    update range j ⟨(range j).start, start⟩
  else if start > (range j).start ∧ stop < (range j).stop then
    match findEmpty range az with
    | some i =>
      update (update range i ⟨stop, (range j).stop⟩) j ⟨(range j).start, start⟩
    -- No slot is left: the part above is lost, with a message.
    | none => update range j ⟨(range j).start, start⟩
  else
    range

/-- The array after the first turns of the loop. -/
def subtractTurns (range : Nat → Range) (az start stop : Nat) : Nat → Nat → Range
  | 0 => range
  | j + 1 => subtractSlot (subtractTurns range az start stop j) az start stop j

def subtractRange (az start stop : Nat) : Nat → Range :=
  if start ≥ stop then range else subtractTurns range az start stop az

def cmpRange (r1 r2 : Range) : Int :=
  if r1.start < r2.start then -1 else if r1.start > r2.start then 1 else 0

/-- The last slot in use after `i`, from the given one down. -/
def findLast (range : Nat → Range) (i : Nat) : Nat → Option Nat
  | 0 => none
  | j + 1 =>
    if j + 1 > i then
      if (range (j + 1)).stop ≠ 0 then some (j + 1) else findLast range i j
    else
      none

theorem findLast_some {range : Nat → Range} {i j k : Nat} (h : findLast range i k = some j) :
    i < j ∧ j ≤ k ∧ (range j).stop ≠ 0 ∧ ∀ l, j < l → l ≤ k → (range l).stop = 0 := by
  induction k with
  | zero => exact absurd h (Option.some_ne_none j).symm
  | succ k ih =>
    rw [findLast] at h
    split_ifs at h with hgt hfull
    · cases h
      exact ⟨hgt, le_rfl, hfull, fun l hl hlk => absurd hl (by omega)⟩
    obtain ⟨hij, hjk, hj, habove⟩ := ih h
    refine ⟨hij, by omega, hj, fun l hl hlk => ?_⟩
    by_cases hlast : l = k + 1
    · rw [hlast]
      exact not_not.mp hfull
    · exact habove l hl (by omega)

theorem findLast_none {range : Nat → Range} {i k : Nat} (h : findLast range i k = none) :
    ∀ l, i < l → l ≤ k → (range l).stop = 0 := by
  induction k with
  | zero => exact fun l hl hlk => absurd hl (by omega)
  | succ k ih =>
    intro l hl hlk
    rw [findLast] at h
    split_ifs at h with hgt hfull
    · by_cases hlast : l = k + 1
      · rw [hlast]
        exact not_not.mp hfull
      · exact ih h l hl (by omega)
    · omega

/-- The first loop of `clean_sort_range`: the last slot in use fills an empty one. -/
def compact (range : Nat → Range) (i k : Nat) : Nat → Range :=
  if i < k then
    if (range i).stop ≠ 0 then
      compact range (i + 1) k
    else
      match h : findLast range i k with
      | none => range
      | some j =>
        compact (update (update range i (range j)) j Range.zero) (i + 1) (j - 1)
  else
    range
termination_by k - i
decreasing_by
  · omega
  · have := findLast_some h
    omega

def cleanSortRange (az : Nat) : (Nat → Range) × Nat :=
  let compacted := compact range 0 (az - 1)
  let nrRange := (findEmpty compacted az).getD az
  (sort cmpRange compacted nrRange, nrRange)

end LinuxKernel.Ranges
