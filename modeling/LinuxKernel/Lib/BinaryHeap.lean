import Mathlib.Data.List.Sort

/-!
# Binary heaps by positions

A binary heap lies in the positions below a size, with a key at each of them.  While a key moves up
or down the order is broken around one position at most: `HeapAround` says what holds of all
others, and how a swap along an edge moves that place.
-/

namespace LinuxKernel.Lib

def heapParent (i : Nat) : Nat :=
  (i - 1) / 2

theorem heapParent_lt {i : Nat} (h : 0 < i) : heapParent i < i := by
  unfold heapParent
  omega

theorem heapParent_eq_iff {i j : Nat} (h : 0 < j) :
    heapParent j = i ↔ j = 2 * i + 1 ∨ j = 2 * i + 2 := by
  unfold heapParent
  omega

variable {β : Type} [Preorder β] {key key' : Nat → β} {lo n i j c : Nat}

/-- No position has a larger key than the one above, from `lo` down. -/
def Heap (key : Nat → β) (lo n : Nat) : Prop :=
  ∀ j, 0 < j → j < n → lo ≤ heapParent j → key j ≤ key (heapParent j)

/-- The keys are in order away from `i`, and with `i` left out. -/
structure HeapAround (key : Nat → β) (lo n i : Nat) : Prop where
  away : ∀ j, 0 < j → j < n → lo ≤ heapParent j → j ≠ i → heapParent j ≠ i →
    key j ≤ key (heapParent j)
  across : 0 < i → lo ≤ heapParent i → ∀ j, 0 < j → j < n → heapParent j = i →
    key j ≤ key (heapParent i)

/-- No position below `i` has a larger key. -/
def OverBelow (key : Nat → β) (n i : Nat) : Prop :=
  ∀ j, 0 < j → j < n → heapParent j = i → key j ≤ key i

/-- The keys of two positions are exchanged. -/
structure Swapped (key key' : Nat → β) (i j : Nat) : Prop where
  left : key' i = key j
  right : key' j = key i
  other : ∀ k, k ≠ i → k ≠ j → key' k = key k

theorem HeapAround.heap (h : HeapAround key lo n i)
    (hup : 0 < i → i < n → lo ≤ heapParent i → key i ≤ key (heapParent i))
    (hdown : OverBelow key n i) : Heap key lo n := by
  intro j hj hjn hlo
  by_cases hji : j = i
  · subst hji
    exact hup hj hjn hlo
  · by_cases hab : heapParent j = i
    · rw [hab]
      exact hdown j hj hjn hab
    · exact h.away j hj hjn hlo hji hab

theorem Heap.le_root (h : Heap key 0 n) (hj : j < n) : key j ≤ key 0 := by
  induction j using Nat.strongRecOn with
  | ind j ih =>
    by_cases hpos : 0 < j
    · have hlt := heapParent_lt hpos
      exact (h j hpos hj (Nat.zero_le _)).trans (ih _ hlt (hlt.trans hj))
    · rw [Nat.eq_zero_of_not_pos hpos]

/-- One step of the loop that moves an item up. -/
theorem HeapAround.up (h : HeapAround key 0 n i) (hi : 0 < i) (hin : i < n)
    (hlt : key (heapParent i) < key i) (hswap : Swapped key key' i (heapParent i)) :
    HeapAround key' 0 n (heapParent i) ∧ OverBelow key' n (heapParent i) := by
  have hai : heapParent i < i := heapParent_lt hi
  -- What is below `heapParent i` after the swap is at most the key that moved down.
  have hbelow : ∀ j, 0 < j → j < n → heapParent j = heapParent i → key' j ≤ key (heapParent i) := by
    intro j hj hjn hab
    by_cases hji : j = i
    · rw [hji, hswap.left]
    have hne : j ≠ heapParent i := by
      intro heq
      have hlow := heapParent_lt hj
      omega
    rw [hswap.other j hji hne, ← hab]
    exact h.away j hj hjn (Nat.zero_le _) hji (by omega)
  refine ⟨⟨fun j hj hjn hlo hja hab => ?_, fun ha hlo j hj hjn hab => ?_⟩, fun j hj hjn hab => ?_⟩
  · by_cases hji : j = i
    · exact absurd (congrArg heapParent hji) hab
    rw [hswap.other j hji hja]
    by_cases habi : heapParent j = i
    · rw [habi, hswap.left]
      exact h.across hi (Nat.zero_le _) j hj hjn habi
    · rw [hswap.other _ habi hab]
      exact h.away j hj hjn hlo hji habi
  · have haa : heapParent (heapParent i) < heapParent i := heapParent_lt ha
    rw [hswap.other (heapParent (heapParent i)) (by omega) haa.ne]
    exact (hbelow j hj hjn hab).trans
      (h.away (heapParent i) ha (by omega) (Nat.zero_le _) hai.ne (by omega))
  · rw [hswap.right]
    exact (hbelow j hj hjn hab).trans hlt.le

/-- One step of the loop that moves an item down. -/
theorem HeapAround.down (h : HeapAround key lo n i) (hc : 0 < c) (hcn : c < n)
    (hci : heapParent c = i) (hle : key i ≤ key c)
    (hmax : ∀ j, 0 < j → j < n → heapParent j = i → key j ≤ key c) (hloi : lo ≤ i)
    (hswap : Swapped key key' c i) : HeapAround key' lo n c ∧ key' c ≤ key' (heapParent c) := by
  have hic : i < c := hci ▸ heapParent_lt hc
  refine ⟨⟨fun j hj hjn hlo hjc hab => ?_, fun _ _ j hj hjn hab => ?_⟩, ?_⟩
  · by_cases hji : j = i
    · subst hji
      have haj := heapParent_lt hj
      rw [hswap.right, hswap.other (heapParent j) hab haj.ne]
      exact h.across hj hlo c hc hcn hci
    rw [hswap.other j hjc hji]
    by_cases habi : heapParent j = i
    · rw [habi, hswap.right]
      exact hmax j hj hjn habi
    · rw [hswap.other _ hab habi]
      exact h.away j hj hjn hlo hji habi
  · have hcj : c < j := hab ▸ heapParent_lt hj
    rw [hswap.other j hcj.ne' (by omega), hci, hswap.right, ← hab]
    exact h.away j hj hjn (by omega) (by omega) (by omega)
  · rw [hci, hswap.left, hswap.right]
    exact hle

end LinuxKernel.Lib
