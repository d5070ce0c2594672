import Mathlib.Algebra.Ring.Nat

/-!
# Creation of an LRU cache

`lc_create()` of `lib/lru_cache.c`, up to what it stores in the cache and in its elements.
The allocations are numbered in their order: the two arrays, the cache, the elements.
-/

namespace LinuxKernel.Lists

open List

def lcMaxActive : Nat := 2 ^ 24

inductive LcObj
  | slot | element | lc
  | object (i : Nat)
deriving DecidableEq

structure LcCreated where
  ret : Bool
  allocated : List LcObj
  freed : List LcObj
deriving DecidableEq

/-- The loop that allocates the objects: `i` in the end. -/
def lcFill (fails : Nat → Bool) : Nat → Nat → Nat
  | 0, i => i
  | n + 1, i => if fails (i + 3) then i else lcFill fails n (i + 1)

/-- `for (; i; i--)`, with `filled` objects in `element[]`: what is freed, or `none` where another
entry is read. -/
def lcUnwind (filled : Nat) : Nat → Option (List LcObj)
  | 0 => some []
  | i + 1 => if i + 1 < filled then (lcUnwind filled i).map (.object (i + 1) :: ·) else none

def lcCreate (cacheObjSize eSize eCount : Nat) (fails : Nat → Bool) : Option LcCreated :=
  if cacheObjSize < eSize then some ⟨false, [], []⟩
  else if eCount > lcMaxActive then some ⟨false, [], []⟩
  else if fails 0 then some ⟨false, [], []⟩
  else if fails 1 then some ⟨false, [.slot], [.slot]⟩
  else if fails 2 then some ⟨false, [.slot, .element], [.element, .slot]⟩
  else
    let i := lcFill fails eCount 0
    let allocated := [.slot, .element, .lc] ++ (range i).map .object
    if i = eCount then some ⟨true, allocated, []⟩
    else
      -- `i--` on an `unsigned int`
      (lcUnwind i ((i + (2 ^ 32 - 1)) % 2 ^ 32)).map fun freed =>
        ⟨false, allocated, freed ++ [.lc, .element, .slot]⟩

/-- `NULL` is returned, all that was allocated is freed once, and only filled entries of
`element[]` were read. -/
def CleansUp (r : Option LcCreated) : Prop :=
  ∃ c, r = some c ∧ c.ret = false ∧ c.freed.Perm c.allocated

variable {fails : Nat → Bool} {cacheObjSize eSize eCount n i j k : Nat} {l : List LcObj}

theorem lcFill_eq (hij : i ≤ j) (hjn : j < i + n) (hfirst : ∀ m < j + 3, fails m = false)
    (hfail : fails (j + 3) = true) : lcFill fails n i = j := by
  induction n generalizing i with
  | zero => omega
  | succ n ih =>
    rw [lcFill]
    obtain rfl | hlt := Nat.eq_or_lt_of_le hij
    · exact if_pos hfail
    · rw [hfirst (i + 3) (by omega), if_neg Bool.false_ne_true]
      exact ih hlt (by omega)

/-- The loop ends before the first object. -/
theorem lcUnwind_spares (h : lcUnwind n i = some l) : .object 0 ∉ l := by
  induction i generalizing l with
  | zero =>
    cases h
    exact not_mem_nil
  | succ i ih =>
    rw [lcUnwind, Option.ite_none_right_eq_some, Option.map_eq_some_iff] at h
    obtain ⟨-, l', hl', rfl⟩ := h
    rw [mem_cons, not_or]
    exact ⟨by simp, ih hl'⟩

/-- A failed creation cleans up exactly if no object failed. -/
theorem lc_create_cleans_up_iff (hsize : eSize ≤ cacheObjSize) (hcount : eCount ≤ lcMaxActive)
    (hk : k < eCount + 3) (hfirst : ∀ m < k, fails m = false) (hfail : fails k = true) :
    CleansUp (lcCreate cacheObjSize eSize eCount fails) ↔ k < 3 := by
  rw [lcCreate, if_neg (Nat.not_lt.mpr hsize), if_neg (Nat.not_lt.mpr hcount)]
  by_cases hlt : k < 3
  · refine iff_of_true ?_ hlt
    obtain rfl | rfl | rfl : k = 0 ∨ k = 1 ∨ k = 2 := by omega
    · exact ⟨_, if_pos hfail, rfl, .refl _⟩
    · simp only [hfirst 0 (by decide), hfail]
      exact ⟨_, rfl, rfl, .refl _⟩
    · simp only [hfirst 0 (by decide), hfirst 1 (by decide), hfail]
      exact ⟨_, rfl, rfl, .swap _ _ _⟩
  · refine iff_of_false ?_ hlt
    obtain ⟨j, rfl⟩ := Nat.exists_eq_add_of_le' (Nat.le_of_not_lt hlt)
    rw [hfirst 0 (by omega), hfirst 1 (by omega), hfirst 2 (by omega),
      lcFill_eq (Nat.zero_le j) (by omega) hfirst hfail]
    rintro ⟨c, hc, -, hperm⟩
    simp only [Bool.false_eq_true, if_false, if_neg (show j ≠ eCount by omega),
      Option.map_eq_some_iff] at hc
    obtain ⟨freed, hfreed, rfl⟩ := hc
    cases j with
    | zero => cases hfreed
    | succ j =>
      have hmem := hperm.mem_iff.mpr (show LcObj.object 0 ∈ _ by simp)
      simp [lcUnwind_spares hfreed] at hmem

theorem lc_create_cleans_up_iff_lc : CleansUp (lcCreate 64 64 2 (· == 2)) :=
  (lc_create_cleans_up_iff (k := 2) (by decide) (by decide) (by decide) (by decide) rfl).mpr
    (by decide)

/-- The first object fails: an entry far behind the array is read.  The second fails: the first is
not freed. -/
theorem lcCreate_leaks : lcCreate 64 64 2 (· == 3) = none ∧
    lcCreate 64 64 2 (· == 4) =
      some ⟨false, [.slot, .element, .lc, .object 0], [.lc, .element, .slot]⟩ :=
  ⟨rfl, rfl⟩

end LinuxKernel.Lists
