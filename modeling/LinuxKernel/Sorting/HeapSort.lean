import Mathlib.Data.Finset.Image
import LinuxKernel.Lib.BinaryHeap

/-!
# The heapsort of `lib/sort.c`

The array is a function of the position and the counters count elements: `num * size` is below
`2 ^ 31`, so that the byte counters of the source do not wrap.  Both loops sift one element down:
the first makes the array a heap from its middle to its front, the second takes the largest element
off the heap again and again.
-/

namespace LinuxKernel.Sorting

open Lib List

section Model

variable {α : Type} (cmpFunc : α → α → Int)

/-- The elements at two positions are exchanged. -/
def swap (base : Nat → α) (i j : Nat) : Nat → α :=
  fun k => if k = i then base j else if k = j then base i else base k

/-- The position below `r` to compare with: the second if it is larger. -/
def child (n : Nat) (base : Nat → α) (r : Nat) : Nat :=
  if r * 2 + 1 < n - 1 ∧ cmpFunc (base (r * 2 + 1)) (base (r * 2 + 2)) < 0 then
    r * 2 + 2
  else
    r * 2 + 1

theorem lt_child (n : Nat) (base : Nat → α) (r : Nat) : r < child cmpFunc n base r := by
  unfold child
  split <;> omega

/-- The inner loop: the element at `r` goes down while one below is larger. -/
def sift (n : Nat) (base : Nat → α) (r : Nat) : Nat → α :=
  if r * 2 + 1 < n then
    if cmpFunc (base r) (base (child cmpFunc n base r)) ≥ 0 then
      base
    else
      sift n (swap base r (child cmpFunc n base r)) (child cmpFunc n base r)
  else
    base
termination_by n - r
decreasing_by
  have := lt_child cmpFunc n base r
  omega

/-- The positions below `i` are sifted from the last to the first. -/
def heapify (n : Nat) : Nat → (Nat → α) → Nat → α
  | 0, base => base
  | i + 1, base => heapify n i (sift cmpFunc n base i)

/-- The positions from `i` down to `1` get the largest element left. -/
def extract : Nat → (Nat → α) → Nat → α
  | 0, base => base
  | i + 1, base => extract i (sift cmpFunc (i + 1) (swap base 0 (i + 1)) 0)

def sort (base : Nat → α) (num : Nat) : Nat → α :=
  extract cmpFunc (num - 1) (heapify cmpFunc num (num / 2) base)

end Model

section Rearranged

variable {α : Type} {m n k : Nat} {a b c : Nat → α}

/-- The elements below `n` are permuted and the others stay. -/
def Rearranged (n : Nat) (a b : Nat → α) : Prop :=
  ∃ σ : Equiv.Perm Nat, (∀ k, n ≤ k → σ k = k) ∧ ∀ k, b k = a (σ k)

theorem Rearranged.refl (n : Nat) (a : Nat → α) : Rearranged n a a :=
  ⟨.refl Nat, fun _ _ => rfl, fun _ => rfl⟩

theorem Rearranged.trans (hab : Rearranged n a b) (hbc : Rearranged n b c) : Rearranged n a c := by
  obtain ⟨σ, hσ, hb⟩ := hab
  obtain ⟨τ, hτ, hc⟩ := hbc
  refine ⟨τ.trans σ, fun k hk => ?_, fun k => ?_⟩
  · rw [Equiv.trans_apply, hτ k hk, hσ k hk]
  · rw [hc, hb, Equiv.trans_apply]

theorem Rearranged.mono (h : Rearranged m a b) (hmn : m ≤ n) : Rearranged n a b := by
  obtain ⟨σ, hσ, hb⟩ := h
  exact ⟨σ, fun k hk => hσ k (hmn.trans hk), hb⟩

theorem rearranged_swap (a : Nat → α) {i j : Nat} (hi : i < n) (hj : j < n) :
    Rearranged n a (swap a i j) := by
  refine ⟨.swap i j, fun k hk => ?_, fun k => ?_⟩
  · exact Equiv.swap_apply_of_ne_of_ne (by omega) (by omega)
  · unfold swap
    rw [Equiv.swap_apply_def]
    split_ifs <;> rfl

theorem Rearranged.above (h : Rearranged n a b) (hk : n ≤ k) : b k = a k := by
  obtain ⟨σ, hσ, hb⟩ := h
  rw [hb, hσ k hk]

theorem Rearranged.below (h : Rearranged n a b) (hk : k < n) : ∃ j, j < n ∧ b k = a j := by
  obtain ⟨σ, hσ, hb⟩ := h
  refine ⟨σ k, ?_, hb k⟩
  by_contra hge
  have heq : σ (σ k) = σ k := hσ (σ k) (by omega)
  have hfix : σ k = k := σ.injective heq
  omega

theorem Rearranged.perm (h : Rearranged n a b) :
    ((List.range n).map b).Perm ((List.range n).map a) := by
  obtain ⟨σ, hσ, hb⟩ := h
  have hmap : (List.range n).map b = ((List.range n).map σ).map a := by
    rw [map_map]
    exact map_congr_left fun k _ => hb k
  have hmoved : {k | σ k ≠ k} ⊆ (Finset.range n : Set Nat) := by
    intro k hk
    by_contra hge
    exact hk (hσ k (by simpa using hge))
  rw [hmap]
  exact (Multiset.coe_eq_coe.mp (congrArg Finset.val (Finset.map_perm hmoved))).map a

end Rearranged

variable {α β : Type} [Preorder β] {cmpFunc : α → α → Int} {key : α → β}
variable {base : Nat → α} {lo n r i : Nat}

/-- The comparison is that of the keys. -/
structure Compares (cmpFunc : α → α → Int) (key : α → β) : Prop where
  neg : ∀ x y, cmpFunc x y < 0 ↔ key x < key y
  nonneg : ∀ x y, 0 ≤ cmpFunc x y ↔ key y ≤ key x

theorem Compares.le_of_neg (h : Compares cmpFunc key) {x y : α} (hneg : cmpFunc x y < 0) :
    key x ≤ key y :=
  ((h.neg x y).mp hneg).le

variable (hcmp : Compares cmpFunc key)

include hcmp

theorem child_spec (base : Nat → α) (hr : r * 2 + 1 < n) :
    child cmpFunc n base r < n ∧
      heapParent (child cmpFunc n base r) = r ∧
      ∀ j, 0 < j → j < n → heapParent j = r →
        key (base j) ≤ key (base (child cmpFunc n base r)) := by
  unfold child
  split_ifs with hsecond
  · obtain ⟨hlt, hneg⟩ := hsecond
    refine ⟨by omega, by unfold heapParent; omega, fun j hj hjn hpar => ?_⟩
    obtain rfl | rfl := (heapParent_eq_iff hj).mp hpar
    · rw [Nat.mul_comm 2 r]
      exact hcmp.le_of_neg hneg
    · rw [Nat.mul_comm 2 r]
  refine ⟨hr, by unfold heapParent; omega, fun j hj hjn hpar => ?_⟩
  obtain rfl | rfl := (heapParent_eq_iff hj).mp hpar
  · rw [Nat.mul_comm 2 r]
  · have hge : 0 ≤ cmpFunc (base (r * 2 + 1)) (base (r * 2 + 2)) := by
      by_contra hneg
      exact hsecond ⟨by omega, by omega⟩
    rw [Nat.mul_comm 2 r]
    exact (hcmp.nonneg _ _).mp hge

omit hcmp in
omit [Preorder β] in
theorem swapped_swap (hri : r ≠ i) :
    Swapped (fun k => key (base k)) (fun k => key (swap base r i k)) i r := by
  unfold swap
  refine ⟨?_, ?_, fun k hki hkr => ?_⟩
  · simp only [if_neg hri.symm, if_pos]
  · simp only [if_pos]
  · simp only [if_neg hkr, if_neg hki]

/-- The element at `r` finds its place in the heap. -/
theorem sift_heap (hlo : lo ≤ r) (haround : HeapAround (fun k => key (base k)) lo n r)
    (hup : 0 < r → lo ≤ heapParent r → key (base r) ≤ key (base (heapParent r))) :
    Heap (fun k => key (sift cmpFunc n base r k)) lo n := by
  fun_induction sift cmpFunc n base r with
  | case1 base r hbelow hge =>
    obtain ⟨-, -, hmax⟩ := child_spec hcmp base hbelow
    have hle := (hcmp.nonneg _ _).mp hge
    exact haround.heap (fun hpos _ => hup hpos)
      fun j hj hjn hpar => (hmax j hj hjn hpar).trans hle
  | case2 base r hbelow hge ih =>
    obtain ⟨hcn, hpar, hmax⟩ := child_spec hcmp base hbelow
    have hrc := lt_child cmpFunc n base r
    obtain ⟨haround', hup'⟩ := haround.down (by omega) hcn hpar
      (hcmp.le_of_neg (Int.not_le.mp hge)) hmax hlo (swapped_swap hrc.ne)
    exact ih (hlo.trans hrc.le) haround' fun _ _ => hup'
  | case3 base r hbelow =>
    refine haround.heap (fun hpos _ => hup hpos) fun j hj hjn hpar => ?_
    have hcases := (heapParent_eq_iff hj).mp hpar
    omega

omit hcmp in
theorem sift_rearranged (cmpFunc : α → α → Int) (n : Nat) (base : Nat → α) (r : Nat) :
    Rearranged n base (sift cmpFunc n base r) := by
  fun_induction sift cmpFunc n base r with
  | case2 base r hbelow hge ih =>
    have hrc := lt_child cmpFunc n base r
    have hcn : child cmpFunc n base r < n := by
      unfold child
      split_ifs <;> omega
    exact (rearranged_swap base (by omega) hcn).trans ih
  | _ => exact .refl n _

/-- Each turn adds one position to the heap. -/
theorem heapify_heap (hheap : Heap (fun k => key (base k)) i n) :
    Heap (fun k => key (heapify cmpFunc n i base k)) 0 n := by
  induction i generalizing base with
  | zero => exact hheap
  | succ i ih =>
    refine ih (sift_heap hcmp le_rfl ⟨fun j hj hjn hlo _ hpar => ?_, fun hpos hlo => ?_⟩ ?_)
    · exact hheap j hj hjn (by omega)
    · have := heapParent_lt hpos
      omega
    · intro hpos hlo
      have := heapParent_lt hpos
      omega

omit hcmp in
theorem heapify_rearranged (cmpFunc : α → α → Int) (n : Nat) (base : Nat → α) (i : Nat) :
    Rearranged n base (heapify cmpFunc n i base) := by
  induction i generalizing base with
  | zero => exact .refl n base
  | succ i ih => exact (sift_rearranged cmpFunc n base i).trans (ih _)

/-- Up to `i` there is a heap, the later ones are in order and not below it. -/
structure Extracting (key : Nat → β) (n i : Nat) : Prop where
  heap : Heap key 0 (i + 1)
  sorted : ∀ j k, i < j → j ≤ k → k < n → key j ≤ key k
  split : ∀ j k, j ≤ i → i < k → k < n → key j ≤ key k

/-- One turn moves the largest element left behind the heap. -/
theorem Extracting.step (h : Extracting (fun k => key (base k)) n (i + 1)) :
    Extracting (fun k => key (sift cmpFunc (i + 1) (swap base 0 (i + 1)) 0 k)) n i := by
  have hswap : Swapped (fun k => key (base k)) (fun k => key (swap base 0 (i + 1) k)) (i + 1) 0 :=
    swapped_swap (Nat.succ_ne_zero i).symm
  have hmoved := sift_rearranged cmpFunc (i + 1) (swap base 0 (i + 1)) 0
  -- The first element is the largest of the heap and comes to the position `i + 1`.
  have hlast : ∀ k, i + 1 < k → key (swap base 0 (i + 1) k) = key (base k) :=
    fun k hk => hswap.other k (by omega) (by omega)
  have hfirst : ∀ j, j ≤ i → key (swap base 0 (i + 1) j) ≤ key (base 0) := by
    intro j hj
    by_cases hj0 : j = 0
    · rw [hj0]
      exact hswap.right.le.trans (h.heap.le_root (by omega))
    · exact (hswap.other j (by omega) hj0).le.trans (h.heap.le_root (by omega))
  have hpair : ∀ j k, j ≤ i + 1 → i < k → k < n → (j ≤ i ∨ j = k ∨ i + 1 < k) →
      key (swap base 0 (i + 1) j) ≤ key (swap base 0 (i + 1) k) := by
    intro j k hj hik hkn hcases
    by_cases hk : k = i + 1
    · obtain hji | rfl | hgt := hcases
      · rw [hk]
        exact (hfirst j hji).trans hswap.left.ge
      · exact le_rfl
      · omega
    · rw [hlast k (by omega)]
      by_cases hj' : j = i + 1
      · rw [hj']
        exact hswap.left.le.trans (h.split 0 k (by omega) (by omega) hkn)
      · exact (hfirst j (by omega)).trans (h.split 0 k (by omega) (by omega) hkn)
  refine ⟨sift_heap hcmp le_rfl ⟨fun j hj hjn _ hj0 hpar => ?_, fun hpos => ?_⟩ ?_,
    fun j k hij hjk hkn => ?_, fun j k hji hik hkn => ?_⟩
  · have hlt := heapParent_lt hj
    have hle := h.heap j hj (by omega) (Nat.zero_le _)
    exact ((hswap.other j (by omega) hj0).le.trans hle).trans
      (hswap.other (heapParent j) (by omega) hpar).ge
  · exact absurd hpos (lt_irrefl 0)
  · exact fun hpos => absurd hpos (lt_irrefl 0)
  · rw [hmoved.above (by omega), hmoved.above (by omega)]
    by_cases hj : j = i + 1
    · exact hpair j k (by omega) (by omega) hkn (by omega)
    · rw [hlast j (by omega), hlast k (by omega)]
      exact h.sorted j k (by omega) hjk hkn
  · obtain ⟨j', hj', heq⟩ := hmoved.below (show j < i + 1 by omega)
    rw [heq, hmoved.above (by omega)]
    exact hpair j' k (by omega) hik hkn (by omega)

/-- After the last turn all are in order. -/
theorem extract_sorted (hin : i < n) (h : Extracting (fun k => key (base k)) n i) :
    ∀ j k, j ≤ k → k < n → key (extract cmpFunc i base j) ≤ key (extract cmpFunc i base k) := by
  induction i generalizing base with
  | zero =>
    intro j k hjk hkn
    by_cases hj : j = 0
    · by_cases hk : k = 0
      · rw [hj, hk]
      · exact h.split j k hj.le (by omega) hkn
    · exact h.sorted j k (by omega) hjk hkn
  | succ i ih => exact ih (by omega) (h.step hcmp)

omit hcmp in
theorem extract_rearranged (cmpFunc : α → α → Int) (base : Nat → α) (hin : i < n) :
    Rearranged n base (extract cmpFunc i base) := by
  induction i generalizing base with
  | zero => exact .refl n base
  | succ i ih =>
    have hswap := rearranged_swap base (show 0 < n by omega) hin
    have hsift := sift_rearranged cmpFunc (i + 1) (swap base 0 (i + 1)) 0
    exact (hswap.trans (hsift.mono (by omega))).trans (ih _ (by omega))

/-- `sort()` permutes the elements and puts them in order. -/
theorem sort_spec (base : Nat → α) (num : Nat) :
    Rearranged num base (sort cmpFunc base num) ∧
      ∀ j k, j ≤ k → k < num → key (sort cmpFunc base num j) ≤ key (sort cmpFunc base num k) := by
  have hheapify := heapify_rearranged cmpFunc num base (num / 2)
  have hnone : Heap (fun k => key (base k)) (num / 2) num := by
    intro j hj hjn hlo
    unfold heapParent at hlo
    omega
  by_cases hnum : num = 0
  · subst hnum
    exact ⟨hheapify, fun _ k _ hk => absurd hk (Nat.not_lt_zero k)⟩
  have hheap := heapify_heap hcmp hnone
  refine ⟨hheapify.trans (extract_rearranged cmpFunc _ (by omega)),
    extract_sorted hcmp (by omega) ⟨?_, fun j k hj hjk hk => ?_, fun j k _ hjk hk => ?_⟩⟩
  · rwa [Nat.sub_add_cancel (by omega)]
  · omega
  · omega

end LinuxKernel.Sorting
