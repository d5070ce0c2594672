import LinuxKernel.Sched.Cpudeadline
import Mathlib.Algebra.Order.Ring.Int
import Mathlib.Data.Finset.Card

/-!
# The heap of CPU deadlines stays a heap

Deadlines are compared on a circle, so they are in order only while the live ones lie in one half
of it.  Within such a window `cpudl_set()` keeps the heap and the map from CPUs to slots, except
that it goes by the old key to move an item up or down.  A new item has the old key 0, which need
not lie in the window.
-/

namespace LinuxKernel.Sched

open Lib Function Cpudl

/-- The deadline is in the half of the circle from `base` on. -/
def InWindow (base dl : UInt64) : Prop :=
  (dl - base).toNat < 2 ^ 63

instance (base dl : UInt64) : Decidable (InWindow base dl) :=
  Nat.decLt _ _

/-- The distance from the start of the window. -/
def offset (base dl : UInt64) : Nat :=
  (dl - base).toNat

theorem dlTimeBefore_eq (a b : UInt64) : dlTimeBefore a b = decide (2 ^ 63 ≤ (a - b).toNat) := by
  have hneg : (a - b).toInt64 < 0 ↔ (a - b).toBitVec.toInt < 0 := Int64.lt_iff_toInt_lt
  have hlt := (a - b).toNat_lt
  rw [dlTimeBefore, decide_eq_decide, hneg, BitVec.toInt_neg_iff]
  change 2 ^ 64 ≤ 2 * (a - b).toNat ↔ _
  omega

/-- The deadlines set last, and the CPUs whose last change was a removal. -/
structure DlSpec where
  live : Nat → Option UInt64
  free : Nat → Bool

variable {cpus : Cpus} {cp : Cpudl} {live : Nat → Option UInt64} {a b i c : Nat}

section Slots

/-- The CPUs with a deadline are in the slots, and `idx` finds them. -/
structure Slots (cpus : Cpus) (cp : Cpudl) (live : Nat → Option UInt64) : Prop where
  slot : ∀ i, i < cp.size → cpus.possible (cp.elements i).cpu ∧
    (cp.elements (cp.elements i).cpu).idx = i ∧
    live (cp.elements i).cpu = some (cp.elements i).dl
  absent : ∀ cpu, cpus.possible cpu → live cpu = none → (cp.elements cpu).idx = idxInvalid
  present : ∀ cpu dl, cpus.possible cpu → live cpu = some dl →
    ∃ i, i < cp.size ∧ (cp.elements cpu).idx = i ∧ (cp.elements i).cpu = cpu

theorem slots_of_outside
    (hslot : ∀ i, i < cp.size → cpus.possible (cp.elements i).cpu ∧
      (cp.elements (cp.elements i).cpu).idx = i ∧
      live (cp.elements i).cpu = some (cp.elements i).dl)
    (hout : ∀ cpu, cpus.possible cpu → (∀ i, i < cp.size → (cp.elements i).cpu ≠ cpu) →
      (cp.elements cpu).idx = idxInvalid ∧ live cpu = none) : Slots cpus cp live := by
  refine ⟨hslot, fun cpu hcpu hnone => (hout cpu hcpu ?_).1, fun cpu dl hcpu hsome => ?_⟩
  · rintro i hi rfl
    cases hnone.symm.trans (hslot i hi).2.2
  · by_contra hno
    have hnone := (hout cpu hcpu fun i hi hci => hno ⟨i, hi, hci ▸ (hslot i hi).2.1, hci⟩).2
    cases hnone.symm.trans hsome

variable (h : Slots cpus cp live)

include h

theorem Slots.outside {cpu : Nat} (hcpu : cpus.possible cpu)
    (hout : ∀ i, i < cp.size → (cp.elements i).cpu ≠ cpu) :
    (cp.elements cpu).idx = idxInvalid ∧ live cpu = none := by
  cases hl : live cpu with
  | none => exact ⟨h.absent cpu hcpu hl, rfl⟩
  | some dl =>
    obtain ⟨i, hi, -, hci⟩ := h.present cpu dl hcpu hl
    exact absurd hci (hout i hi)

theorem Slots.cpu_ne (ha : a < cp.size) (hb : b < cp.size) (hab : a ≠ b) :
    (cp.elements a).cpu ≠ (cp.elements b).cpu := by
  intro heq
  have hia := (h.slot a ha).2.1
  have hib := (h.slot b hb).2.1
  rw [heq, hib] at hia
  exact hab (Int.ofNat.inj hia).symm

theorem Slots.idx_ne (hi : i < cp.size) : (cp.elements (cp.elements i).cpu).idx ≠ idxInvalid := by
  rw [(h.slot i hi).2.1, idxInvalid]
  omega

theorem Slots.exchange (ha : a < cp.size) (hb : b < cp.size) (hab : a ≠ b) :
    Slots cpus (cp.cpudlExchange a b) live := by
  obtain ⟨hpa, hia, hla⟩ := h.slot a ha
  obtain ⟨hpb, hib, hlb⟩ := h.slot b hb
  have hne := h.cpu_ne ha hb hab
  refine slots_of_outside (fun i hi => ?_) fun cpu hcpu hout => ?_
  · by_cases hi_a : i = a
    · subst hi_a
      simp [cpudlExchange, hab, hpb, hia, hlb]
    by_cases hi_b : i = b
    · subst hi_b
      simp [cpudlExchange, hpa, hib, hla, hne]
    · have hnea := h.cpu_ne hi ha hi_a
      have hneb := h.cpu_ne hi hb hi_b
      simpa [cpudlExchange, hi_a, hi_b, hnea, hneb] using h.slot i hi
  · have hca : cpu ≠ (cp.elements a).cpu := by simpa [cpudlExchange] using (hout b hb).symm
    have hcb : cpu ≠ (cp.elements b).cpu := by simpa [cpudlExchange, hab] using (hout a ha).symm
    have hcpu' := h.outside hcpu fun i hi => ?_
    · simpa [cpudlExchange, hca, hcb] using hcpu'
    by_cases hi_a : i = a
    · exact hi_a ▸ hca.symm
    by_cases hi_b : i = b
    · exact hi_b ▸ hcb.symm
    · simpa [cpudlExchange, hi_a, hi_b] using hout i hi

theorem Slots.size_le : cp.size ≤ cpus.nrCpuIds := by
  have hmaps : ∀ i ∈ Finset.range cp.size, (cp.elements i).cpu ∈ Finset.range cpus.nrCpuIds := by
    intro i hi
    exact Finset.mem_range.mpr (cpus.lt _ (h.slot i (Finset.mem_range.mp hi)).1)
  have hinj : Set.InjOn (fun i => (cp.elements i).cpu) (Finset.range cp.size) := by
    intro a ha b hb heq
    by_contra hab
    exact h.cpu_ne (Finset.mem_range.mp ha) (Finset.mem_range.mp hb) hab heq
  have hcard := Finset.card_le_card_of_injOn _ hmaps hinj
  rwa [Finset.card_range, Finset.card_range] at hcard

theorem Slots.setDl (hi : i < cp.size) (dl : UInt64) :
    Slots cpus (cp.setDl i dl) (update live (cp.elements i).cpu (some dl)) := by
  refine slots_of_outside (fun j hj => ?_) fun cpu hcpu hout => ?_
  · obtain ⟨hp, hidx, hl⟩ := h.slot j hj
    by_cases hji : j = i
    · subst hji
      simp [hp, hidx]
    · have hne := h.cpu_ne hj hi hji
      simp [hji, hp, hidx, hl, hne]
  · have hne := hout i hi
    simp only [cpu_setDl] at hout hne
    simpa [update_of_ne hne.symm] using h.outside hcpu hout

end Slots

variable {cp' : Cpudl} {base : UInt64}

section Loops

/-- The deadlines of the slots as keys of a heap. -/
def key (base : UInt64) (cp : Cpudl) (i : Nat) : Nat :=
  offset base (cp.elements i).dl

/-- All live deadlines lie in the window. -/
def LiveIn (base : UInt64) (live : Nat → Option UInt64) : Prop :=
  ∀ cpu dl, live cpu = some dl → InWindow base dl

theorem LiveIn.update {cpu : Nat} {dl : UInt64} (h : LiveIn base live) (hdl : InWindow base dl) :
    LiveIn base (update live cpu (some dl)) := by
  intro c d hl
  rw [update_apply] at hl
  split_ifs at hl with hc
  · exact Option.some.inj hl ▸ hdl
  · exact h c d hl

theorem parent_lt (hpos : 0 < i) : parent i < i :=
  heapParent_lt hpos

theorem swapped_exchange (base : UInt64) (cp : Cpudl) (hab : a ≠ b) :
    Swapped (key base cp) (key base (cp.cpudlExchange a b)) a b := by
  refine ⟨?_, ?_, fun k hka hkb => ?_⟩
  · simp [key, cpudlExchange, hab]
  · simp [key, cpudlExchange]
  · simp [key, cpudlExchange, hka, hkb]

variable (h : Slots cpus cp live) (hlive : LiveIn base live)

include h hlive

theorem Slots.inWindow (hi : i < cp.size) : InWindow base (cp.elements i).dl :=
  hlive _ _ (h.slot i hi).2.2

theorem Slots.before_iff (ha : a < cp.size) (hb : b < cp.size) :
    dlTimeBefore (cp.elements a).dl (cp.elements b).dl = true ↔ key base cp a < key base cp b := by
  replace ha := h.inWindow hlive ha
  replace hb := h.inWindow hlive hb
  have hlt := (cp.elements b).dl.toNat_lt
  rw [dlTimeBefore_eq, decide_eq_true_iff]
  simp only [key, InWindow, offset, UInt64.toNat_sub] at ha hb ⊢
  omega

theorem Slots.not_before_iff (ha : a < cp.size) (hb : b < cp.size) :
    dlTimeBefore (cp.elements a).dl (cp.elements b).dl = false ↔ key base cp b ≤ key base cp a := by
  rw [← Bool.not_eq_true, h.before_iff hlive ha hb, not_lt]

theorem Slots.edge_iff (hpos : 0 < i) (hi : i < cp.size) :
    dlTimeBefore (cp.elements (parent i)).dl (cp.elements i).dl = false ↔
      key base cp i ≤ key base cp (heapParent i) :=
  h.not_before_iff hlive ((parent_lt hpos).trans hi) hi

/-- The loops exchange slots and nothing else. -/
structure Moved (cpus : Cpus) (cp cp' : Cpudl) (live : Nat → Option UInt64) : Prop where
  slots : Slots cpus cp' live
  size : cp'.size = cp.size
  freeCpus : cp'.freeCpus = cp.freeCpus

theorem siftUp_spec (hi : i < cp.size) (haround : HeapAround (key base cp) 0 cp.size i) :
    ∃ cp' j, cp.siftUp i = (cp', j) ∧ Moved cpus cp cp' live ∧ j < cp.size ∧
      HeapAround (key base cp') 0 cp.size j ∧
      (0 < j → key base cp' j ≤ key base cp' (heapParent j)) ∧
      (OverBelow (key base cp) cp.size i → OverBelow (key base cp') cp.size j) := by
  fun_induction cp.siftUp i with
  | case1 cp i hup ih =>
    obtain ⟨hpos, hbefore⟩ := hup
    have hlt := parent_lt hpos
    have hpar := hlt.trans hi
    have hkey := (h.before_iff hlive hpar hi).mp hbefore
    obtain ⟨haround', hover⟩ := haround.up hpos hi hkey (swapped_exchange base cp hlt.ne')
    have hslots := h.exchange hi hpar hlt.ne'
    obtain ⟨cp', j, hrun, hmoved, hend, haround'', hup, hdown⟩ := ih hslots hpar haround'
    exact ⟨cp', j, hrun, { hmoved with }, hend, haround'', hup, fun _ => hdown hover⟩
  | case2 cp i hstop =>
    refine ⟨cp, i, rfl, ⟨h, rfl, rfl⟩, hi, haround, fun hpos => ?_, fun hover => hover⟩
    refine (h.edge_iff hlive hpos hi).mp ?_
    exact Bool.eq_false_of_not_eq_true fun hbefore => hstop ⟨hpos, hbefore⟩

theorem Slots.later (ha : a < cp.size) (hc : c = if b < cp.size ∧
      dlTimeBefore (cp.elements a).dl (cp.elements b).dl = true then b else a) :
    (c = a ∨ c = b ∧ key base cp a < key base cp c) ∧ c < cp.size ∧
      key base cp a ≤ key base cp c ∧ (b < cp.size → key base cp b ≤ key base cp c) := by
  subst hc
  split_ifs with hb
  · have hlt := (h.before_iff hlive ha hb.1).mp hb.2
    exact ⟨Or.inr ⟨rfl, hlt⟩, hb.1, hlt.le, fun _ => le_refl _⟩
  · refine ⟨Or.inl rfl, ha, le_refl _, fun hbn => not_lt.mp fun hlt => hb ⟨hbn, ?_⟩⟩
    exact (h.before_iff hlive ha hbn).mpr hlt

/-- `cpudl_heapify()` chooses the largest key of a slot and the two below. -/
theorem largest_spec (hi : i < cp.size) :
    (cp.largest i = i ∧ OverBelow (key base cp) cp.size i) ∨
      (0 < cp.largest i ∧ cp.largest i < cp.size ∧ heapParent (cp.largest i) = i ∧
        key base cp i < key base cp (cp.largest i) ∧
        ∀ j, 0 < j → j < cp.size → heapParent j = i →
          key base cp j ≤ key base cp (cp.largest i)) := by
  obtain ⟨hfirst, hsize, hle, hleft⟩ := h.later hlive hi (b := leftChild i) rfl
  obtain ⟨hsecond, hlast, hle', hright⟩ :=
    h.later hlive hsize (b := rightChild i) (c := cp.largest i) rfl
  have hbelow : ∀ j, 0 < j → j < cp.size → heapParent j = i →
      key base cp j ≤ key base cp (cp.largest i) := by
    intro j hj hjn hpar
    obtain rfl | rfl := (heapParent_eq_iff hj).mp hpar
    · exact (hleft hjn).trans hle'
    · exact hright hjn
  have hchild : ∀ c, c = leftChild i ∨ c = rightChild i → 0 < c ∧ heapParent c = i := by
    unfold leftChild rightChild heapParent
    omega
  rcases hsecond with hstop | ⟨hpick, hlt⟩
  · rcases hfirst with hstay | ⟨hpick, hlt⟩
    · have hstop := hstop.trans hstay
      exact .inl ⟨hstop, fun j hj hjn hpar => hstop ▸ hbelow j hj hjn hpar⟩
    · obtain ⟨hpos, hpar⟩ := hchild _ (.inl (hstop.trans hpick))
      exact .inr ⟨hpos, hlast, hpar, hstop ▸ hlt, hbelow⟩
  · obtain ⟨hpos, hpar⟩ := hchild _ (.inr hpick)
    exact .inr ⟨hpos, hlast, hpar, hle.trans_lt hlt, hbelow⟩

theorem cpudlHeapify_spec (hi : i < cp.size) (haround : HeapAround (key base cp) 0 cp.size i)
    (hup : 0 < i → key base cp i ≤ key base cp (heapParent i)) :
    Moved cpus cp (cp.cpudlHeapify i) live ∧ Heap (key base (cp.cpudlHeapify i)) 0 cp.size := by
  induction hn : cp.size - i using Nat.strongRecOn generalizing cp i with
  | ind n ih =>
    rw [cpudlHeapify]
    obtain ⟨hstop, hover⟩ | ⟨hpos, hlt, hpar, hkey, hmax⟩ := largest_spec h hlive hi
    · rw [dif_pos hstop]
      exact ⟨⟨h, rfl, rfl⟩, haround.heap (fun hpos _ _ => hup hpos) hover⟩
    have hne := heapParent_lt hpos
    rw [hpar] at hne
    rw [dif_neg hne.ne']
    obtain ⟨haround', hup'⟩ :=
      haround.down hpos hlt hpar hkey.le hmax (Nat.zero_le _) (swapped_exchange base cp hne.ne')
    have hslots := h.exchange hlt hi hne.ne'
    obtain ⟨hmoved, hheap⟩ := ih (cp.size - cp.largest i) (by omega) hslots hlt haround'
      (fun _ => hup') rfl
    exact ⟨{ hmoved with }, hheap⟩

end Loops

variable {dl : UInt64}

section Keys

variable {live' : Nat → Option UInt64} {base' old : UInt64} {n : Nat}

/-- The max-heap: no slot has a later deadline than the one above. -/
def HeapOrder (cp : Cpudl) : Prop :=
  ∀ i, 0 < i → i < cp.size → dlTimeBefore (cp.elements (parent i)).dl (cp.elements i).dl = false

variable (h : Slots cpus cp live) (hlive : LiveIn base live)

include h hlive

theorem Slots.heapOrder_iff : HeapOrder cp ↔ Heap (key base cp) 0 cp.size := by
  constructor
  · exact fun hheap i hpos hi _ => (h.edge_iff hlive hpos hi).mp (hheap i hpos hi)
  · exact fun hheap i hpos hi => (h.edge_iff hlive hpos hi).mpr (hheap i hpos hi (Nat.zero_le _))

omit h in
theorem Moved.heapOrder_iff (h : Moved cpus cp cp' live) :
    HeapOrder cp' ↔ Heap (key base cp') 0 cp.size :=
  h.size ▸ h.slots.heapOrder_iff hlive

/-- A heap whose slot `i` is written is in order around `i`, in the window of the deadlines then
live. -/
theorem Slots.around (hheap : HeapOrder cp) (h' : Slots cpus cp' live')
    (hlive' : LiveIn base' live')
    (hsame : ∀ j, j < cp'.size → j ≠ i → j < cp.size ∧ (cp'.elements j).dl = (cp.elements j).dl) :
    HeapAround (key base' cp') 0 cp'.size i := by
  -- An order of two slots away from `i` does not depend on the window.
  have htransfer : ∀ j k, j < cp'.size → k < cp'.size → j ≠ i → k ≠ i →
      key base cp j ≤ key base cp k → key base' cp' j ≤ key base' cp' k := by
    intro j k hj hk hji hki hle
    obtain ⟨hjs, hjdl⟩ := hsame j hj hji
    obtain ⟨hks, hkdl⟩ := hsame k hk hki
    rw [← not_lt, ← h'.before_iff hlive' hk hj, hjdl, hkdl, h.before_iff hlive hks hjs]
    exact not_lt.mpr hle
  have hkeys := (h.heapOrder_iff hlive).mp hheap
  refine ⟨fun j hj hjn _ hji hpar => ?_, fun hi _ j hj hjn hpar => ?_⟩
  · have hlt := heapParent_lt hj
    exact htransfer j _ hjn (hlt.trans hjn) hji hpar
      (hkeys j hj (hsame j hjn hji).1 (Nat.zero_le _))
  have hij := heapParent_lt hj
  rw [hpar] at hij
  have hup := heapParent_lt hi
  have hjs := (hsame j hjn hij.ne').1
  refine htransfer j _ hjn (by omega) hij.ne' hup.ne ?_
  calc
    key base cp j ≤ key base cp (heapParent j) := hkeys j hj hjs (Nat.zero_le _)
    _ = key base cp i := by rw [hpar]
    _ ≤ key base cp (heapParent i) := hkeys i hi (hij.trans hjs) (Nat.zero_le _)

/-- `cpudl_change_key()` goes the right way by the old key. -/
def KeyFits (cp : Cpudl) (i : Nat) (old dl : UInt64) : Prop :=
  if dlTimeBefore dl old then
    0 < i → dlTimeBefore (cp.elements (parent i)).dl dl = false
  else
    ∀ j, j < cp.size → 0 < j → parent j = i → dlTimeBefore dl (cp.elements j).dl = false

/-- An earlier deadline moves down.  If it is later than the one above nonetheless, it stays. -/
theorem heapify_heapOrder_iff (hi : i < cp.size)
    (haround : HeapAround (key base cp) 0 cp.size i) :
    Moved cpus cp (cp.cpudlHeapify i) live ∧
      (HeapOrder (cp.cpudlHeapify i) ↔
        (0 < i → dlTimeBefore (cp.elements (parent i)).dl (cp.elements i).dl = false)) := by
  by_cases hup : 0 < i → dlTimeBefore (cp.elements (parent i)).dl (cp.elements i).dl = false
  · obtain ⟨hmoved, hheap⟩ :=
      cpudlHeapify_spec h hlive hi haround fun hpos => (h.edge_iff hlive hpos hi).mp (hup hpos)
    exact ⟨hmoved, iff_of_true ((hmoved.heapOrder_iff hlive).mpr hheap) hup⟩
  obtain ⟨hpos, hbefore⟩ := Classical.not_imp.mp hup
  have hlt := not_le.mp (mt (h.edge_iff hlive hpos hi).mpr hbefore)
  -- What is below is not later than what is above, so nothing moves.
  have hstay : cp.largest i = i := by
    obtain ⟨hstop, -⟩ | ⟨hcpos, hcn, hc, hkey, -⟩ := largest_spec h hlive hi
    · exact hstop
    · have hle := haround.across hpos (Nat.zero_le _) _ hcpos hcn hc
      exact absurd (hkey.trans_le hle) (not_lt.mpr hlt.le)
  have hrun : cp.cpudlHeapify i = cp := by rw [cpudlHeapify, dif_pos hstay]
  rw [hrun]
  exact ⟨⟨h, rfl, rfl⟩, iff_of_false (fun hheap => hbefore (hheap i hpos hi)) hup⟩

/-- A later deadline moves up.  If it is earlier than one below nonetheless, it stays. -/
theorem siftUp_heapOrder_iff (hi : i < cp.size)
    (haround : HeapAround (key base cp) 0 cp.size i) :
    Moved cpus cp (cp.siftUp i).1 live ∧
      (HeapOrder (cp.siftUp i).1 ↔ ∀ j, j < cp.size → 0 < j → parent j = i →
        dlTimeBefore (cp.elements i).dl (cp.elements j).dl = false) := by
  obtain ⟨cp', k, hrun, hmoved, hend, haround', hup, hover⟩ := siftUp_spec h hlive hi haround
  rw [hrun]
  refine ⟨hmoved, ?_⟩
  by_cases hdown : ∀ j, j < cp.size → 0 < j → parent j = i →
      dlTimeBefore (cp.elements i).dl (cp.elements j).dl = false
  · have hbelow : OverBelow (key base cp) cp.size i := fun j hpos hj hpar =>
      (h.not_before_iff hlive hi hj).mp (hdown j hj hpos hpar)
    refine iff_of_true ((hmoved.heapOrder_iff hlive).mpr ?_) hdown
    exact haround'.heap (fun hpos _ _ => hup hpos) (hover hbelow)
  refine iff_of_false (fun hheap => hdown fun j hj hpos hpar => ?_) hdown
  by_contra hbefore
  rw [Bool.not_eq_false, h.before_iff hlive hi hj] at hbefore
  -- What is above is not earlier than what is below, so nothing moves.
  have hstop : ¬ (i > 0 ∧ dlTimeBefore (cp.elements (parent i)).dl (cp.elements i).dl = true) := by
    rintro ⟨hipos, hup'⟩
    rw [h.before_iff hlive ((parent_lt hipos).trans hi) hi] at hup'
    have hle := haround.across hipos (Nat.zero_le _) j hpos hj hpar
    exact absurd (hbefore.trans_le hle) (not_lt.mpr hup'.le)
  rw [siftUp, dif_neg hstop] at hrun
  cases hrun
  have hedge := hheap j hpos hj
  rw [hpar, h.not_before_iff hlive hi hj] at hedge
  exact absurd hbefore (not_lt.mpr hedge)

omit h hlive

theorem cpudlChangeKey_spec (h : Slots cpus (cp.setDl i dl) live) (hlive : LiveIn base live)
    (hi : i < cp.size) (haround : HeapAround (key base (cp.setDl i dl)) 0 cp.size i) :
    Moved cpus cp (cp.cpudlChangeKey i dl) live ∧
      (HeapOrder (cp.cpudlChangeKey i dl) ↔ KeyFits cp i (cp.elements i).dl dl) := by
  rw [cpudlChangeKey, KeyFits]
  split
  · obtain ⟨hmoved, hiff⟩ := heapify_heapOrder_iff h hlive hi haround
    refine ⟨{ hmoved with }, hiff.trans ?_⟩
    refine forall_congr' fun hpos => ?_
    simp [(parent_lt hpos).ne]
  obtain ⟨hmoved, hiff⟩ := siftUp_heapOrder_iff h hlive hi haround
  refine ⟨{ hmoved with }, hiff.trans ?_⟩
  refine forall₂_congr fun j _ => forall₂_congr fun hpos hpar => ?_
  have hne : j ≠ i := hpar ▸ (parent_lt hpos).ne'
  simp [hne]

end Keys

variable {spec : DlSpec}

section Set

def DlSpec.set (spec : DlSpec) (cpu : Nat) (dl : UInt64) (isValid : Bool) : DlSpec :=
  match isValid, spec.live cpu with
  | true, none =>
    { live := update spec.live cpu (some dl)
      free := update spec.free cpu false }
  | true, some _ => { spec with live := update spec.live cpu (some dl) }
  | false, none => spec
  | false, some _ =>
    { live := update spec.live cpu none
      free := update spec.free cpu true }

/-- The heap order, the map from CPUs to slots and the free CPUs. -/
structure CpudlOk (cpus : Cpus) (cp : Cpudl) (spec : DlSpec) : Prop where
  heap : HeapOrder cp
  idx : ∀ cpu, cpus.possible cpu → ∀ i : Nat,
    (cp.elements cpu).idx = i ↔ i < cp.size ∧ (cp.elements i).cpu = cpu
  invalid : ∀ cpu, cpus.possible cpu → (∀ i, i < cp.size → (cp.elements i).cpu ≠ cpu) →
    (cp.elements cpu).idx = idxInvalid
  live : ∀ cpu, cpus.possible cpu → ∀ dl,
    spec.live cpu = some dl ↔ ∃ i, i < cp.size ∧ (cp.elements i).cpu = cpu ∧ (cp.elements i).dl = dl
  free : ∀ cpu, cpus.possible cpu → cp.freeCpus cpu = spec.free cpu
  size : cp.size ≤ cpus.nrCpuIds

variable {cpu : Nat}

theorem Slots.idx_iff (h : Slots cpus cp live) (hcpu : cpus.possible cpu) :
    (cp.elements cpu).idx = i ↔ i < cp.size ∧ (cp.elements i).cpu = cpu := by
  constructor
  · intro hidx
    cases hl : live cpu with
    | none =>
      rw [h.absent cpu hcpu hl, idxInvalid] at hidx
      omega
    | some dl =>
      obtain ⟨j, hj, hjdx, hcj⟩ := h.present cpu dl hcpu hl
      obtain rfl : j = i := by omega
      exact ⟨hj, hcj⟩
  · rintro ⟨hi, rfl⟩
    exact (h.slot i hi).2.1

theorem Slots.ok_iff (h : Slots cpus cp spec.live)
    (hfree : ∀ cpu, cpus.possible cpu → cp.freeCpus cpu = spec.free cpu) :
    CpudlOk cpus cp spec ↔ HeapOrder cp := by
  constructor
  · exact fun hok => hok.heap
  intro hheap
  refine ⟨hheap, fun cpu hcpu i => h.idx_iff hcpu, fun cpu hcpu hnone => (h.outside hcpu hnone).1,
    fun cpu hcpu dl => ?_, hfree, h.size_le⟩
  constructor
  · intro hl
    obtain ⟨i, hi, -, rfl⟩ := h.present cpu dl hcpu hl
    have hslot := (h.slot i hi).2.2
    rw [hl] at hslot
    exact ⟨i, hi, rfl, (Option.some.inj hslot).symm⟩
  · rintro ⟨i, hi, rfl, rfl⟩
    exact (h.slot i hi).2.2

/-- The heap with a slot for a CPU that had none. -/
def inserted (cp : Cpudl) (cpu : Nat) : Cpudl :=
  (({ cp with size := cp.size + 1 }.setDl cp.size 0).setCpu cp.size cpu).setIdx cpu cp.size

theorem Slots.inserted (h : Slots cpus cp live) (hcpu : cpus.possible cpu)
    (hnone : live cpu = none) :
    Slots cpus ((inserted cp cpu).setDl cp.size dl) (update live cpu (some dl)) := by
  refine slots_of_outside (fun j hj => ?_) fun c hc hout => ?_
  · by_cases hjs : j = cp.size
    · subst hjs
      simp [Sched.inserted, hcpu]
    have hj' : j < cp.size := by
      have hlt : j < cp.size + 1 := hj
      omega
    obtain ⟨hp, hidx, hl⟩ := h.slot j hj'
    have hne : (cp.elements j).cpu ≠ cpu := by
      rintro rfl
      rw [hnone] at hl
      cases hl
    simp [Sched.inserted, hjs, hp, hidx, hl, hne]
  · have hne : cpu ≠ c := by simpa [Sched.inserted] using hout cp.size (Nat.lt_succ_self _)
    have hcpu' := h.outside hc fun i hi => ?_
    · simpa [Sched.inserted, hne.symm] using hcpu'
    · simpa [Sched.inserted, hi.ne] using hout i (Nat.lt_succ_of_lt hi)

/-- The heap with its last slot in place of a CPU that leaves. -/
def removed (cp : Cpudl) (cpu i : Nat) : Cpudl :=
  let newCpu := (cp.elements (cp.size - 1)).cpu
  let cp := (cp.setDl i (cp.elements (cp.size - 1)).dl).setCpu i newCpu
  ({ cp with size := cp.size - 1 }.setIdx newCpu i).setIdx cpu idxInvalid

theorem Slots.removed (h : Slots cpus cp live) (hi : i < cp.size) :
    Slots cpus (removed cp (cp.elements i).cpu i) (update live (cp.elements i).cpu none) := by
  have hlast : cp.size - 1 < cp.size := by omega
  refine slots_of_outside (fun j hj => ?_) fun c hc hout => ?_
  · have hj' : j < cp.size - 1 := hj
    by_cases hji : j = i
    · subst hji
      have hne := h.cpu_ne hlast hi (by omega)
      obtain ⟨hp, hidx, hl⟩ := h.slot _ hlast
      simp [Sched.removed, hne, hp, hl]
    · obtain ⟨hp, hidx, hl⟩ := h.slot j (by omega)
      have hne := h.cpu_ne (by omega) hi hji
      have hnl := h.cpu_ne (by omega) hlast (show j ≠ cp.size - 1 by omega)
      simp [Sched.removed, hji, hp, hidx, hl, hne, hnl]
  · by_cases hci : c = (cp.elements i).cpu
    · simp [Sched.removed, hci]
    have hslot : ∀ k, k < cp.size → (cp.elements k).cpu ≠ c := by
      rintro k hk rfl
      have hki : k ≠ i := fun heq => hci (by rw [heq])
      by_cases hkl : k = cp.size - 1
      · exact hout i (by change i < cp.size - 1; omega) (by simp [Sched.removed, hkl])
      · exact hout k (by change k < cp.size - 1; omega) (by simp [Sched.removed, hki])
    have hcl := hslot _ hlast
    simpa [Sched.removed, hci, hcl.symm] using h.outside hc hslot

/-- The condition on a call: the key compared with the new deadline (0 for a CPU without a slot)
shows the right way. -/
def SetFits (cp : Cpudl) (cpu : Nat) (dl : UInt64) (isValid : Bool) : Prop :=
  isValid = true →
    if (cp.elements cpu).idx = idxInvalid then
      KeyFits cp cp.size 0 dl
    else
      KeyFits cp (cp.elements cpu).idx.toNat (cp.elements (cp.elements cpu).idx.toNat).dl dl

/-- What holds between the calls. -/
structure CpudlInv (cpus : Cpus) (cp : Cpudl) (spec : DlSpec) : Prop where
  slots : Slots cpus cp spec.live
  free : ∀ cpu, cpus.possible cpu → cp.freeCpus cpu = spec.free cpu
  heap : HeapOrder cp
  window : ∃ base, LiveIn base spec.live

structure SetOutcome (cpus : Cpus) (cp' : Cpudl) (spec' : DlSpec) (fits : Prop) : Prop where
  slots : Slots cpus cp' spec'.live
  free : ∀ cpu, cpus.possible cpu → cp'.freeCpus cpu = spec'.free cpu
  heap : HeapOrder cp' ↔ fits

theorem free_update {free : Bool} (h : ∀ cpu, cpus.possible cpu → cp.freeCpus cpu = spec.free cpu) :
    ∀ c, cpus.possible c → update cp.freeCpus cpu free c = update spec.free cpu free c := by
  intro c hc
  rw [update_apply, update_apply, h c hc]

variable (h : CpudlInv cpus cp spec) (hcpu : cpus.possible cpu)

include h hcpu

theorem CpudlInv.insert (hnone : spec.live cpu = none)
    (hlive : LiveIn base (spec.set cpu dl true).live) :
    SetOutcome cpus (cp.cpudlSet cpu dl true) (spec.set cpu dl true) (SetFits cp cpu dl true) := by
  have hidx := h.slots.absent cpu hcpu hnone
  have hset : spec.set cpu dl true =
      { live := update spec.live cpu (some dl)
        free := update spec.free cpu false } := by
    simp only [DlSpec.set, hnone]
  have hrun : cp.cpudlSet cpu dl true =
      ((inserted cp cpu).cpudlChangeKey cp.size dl).setFree cpu false := by
    rw [cpudlSet, hidx]
    rfl
  obtain ⟨base₀, hlive0⟩ := h.window
  rw [hset] at hlive ⊢
  have hslots : Slots cpus ((inserted cp cpu).setDl cp.size dl)
      (update spec.live cpu (some dl)) := h.slots.inserted hcpu hnone
  have hsize : cp.size < (inserted cp cpu).size := Nat.lt_succ_self _
  have haround : HeapAround (key base ((inserted cp cpu).setDl cp.size dl)) 0
      (inserted cp cpu).size cp.size := by
    refine h.slots.around hlive0 h.heap hslots hlive fun j hj hne => ?_
    have hlt : j < cp.size + 1 := hj
    refine ⟨by omega, ?_⟩
    simp [inserted, hne]
  obtain ⟨hmoved, hiff⟩ := cpudlChangeKey_spec hslots hlive hsize haround
  rw [hrun]
  refine ⟨{ hmoved.slots with }, ?_, ?_⟩
  · have hfree : ((inserted cp cpu).cpudlChangeKey cp.size dl).freeCpus = cp.freeCpus :=
      hmoved.freeCpus
    rw [setFree, hfree]
    exact free_update h.free
  have hold : ((inserted cp cpu).elements cp.size).dl = 0 := by simp [inserted]
  rw [SetFits, if_pos hidx, eq_self_iff_true, true_imp_iff]
  rw [hold] at hiff
  refine Iff.trans hiff ?_
  -- The new slot has nothing below it, and what is above it is as before.
  unfold KeyFits
  split
  · refine forall_congr' fun hpos => ?_
    simp [inserted, (parent_lt hpos).ne]
  refine iff_of_true (fun j hj hpos hpar => ?_) fun j hj hpos hpar => ?_
  · exact absurd (Nat.le_of_lt_succ hj) (not_le.mpr (hpar ▸ parent_lt hpos))
  · exact absurd hj.le (not_le.mpr (hpar ▸ parent_lt hpos))

theorem CpudlInv.change {old : UInt64} (hsome : spec.live cpu = some old)
    (hlive : LiveIn base (spec.set cpu dl true).live) :
    SetOutcome cpus (cp.cpudlSet cpu dl true) (spec.set cpu dl true) (SetFits cp cpu dl true) := by
  obtain ⟨i, hi, hidx, rfl⟩ := h.slots.present cpu old hcpu hsome
  have hvalid := h.slots.idx_ne hi
  have hset : spec.set (cp.elements i).cpu dl true =
      { spec with live := update spec.live (cp.elements i).cpu (some dl) } := by
    simp only [DlSpec.set, hsome]
  have hrun : cp.cpudlSet (cp.elements i).cpu dl true = cp.cpudlChangeKey i dl := by
    rw [cpudlSet, if_neg (by simp), if_neg hvalid, hidx]
    rfl
  obtain ⟨base₀, hlive0⟩ := h.window
  rw [hset] at hlive ⊢
  have hslots := h.slots.setDl hi dl
  have haround : HeapAround (key base (cp.setDl i dl)) 0 cp.size i := by
    refine h.slots.around hlive0 h.heap hslots hlive fun j hj hne => ?_
    exact ⟨hj, by simp [hne]⟩
  obtain ⟨hmoved, hiff⟩ := cpudlChangeKey_spec hslots hlive hi haround
  rw [hrun]
  refine ⟨hmoved.slots, ?_, ?_⟩
  · rw [hmoved.freeCpus]
    exact h.free
  · rw [SetFits, if_neg hvalid, hidx, eq_self_iff_true, true_imp_iff]
    exact hiff

theorem CpudlInv.remove {old : UInt64} (hsome : spec.live cpu = some old)
    (hlive : LiveIn base (spec.set cpu dl false).live) :
    SetOutcome cpus (cp.cpudlSet cpu dl false) (spec.set cpu dl false) True := by
  obtain ⟨i, hi, hidx, rfl⟩ := h.slots.present cpu old hcpu hsome
  have hvalid := h.slots.idx_ne hi
  have hset : spec.set (cp.elements i).cpu dl false =
      { live := update spec.live (cp.elements i).cpu none
        free := update spec.free (cp.elements i).cpu true } := by
    simp only [DlSpec.set, hsome]
  obtain ⟨r, hr⟩ : ∃ r, r = removed cp (cp.elements i).cpu i := ⟨_, rfl⟩
  have hrun : cp.cpudlSet (cp.elements i).cpu dl false =
      ((r.siftUp i).1.setFree (cp.elements i).cpu true).cpudlHeapify (r.siftUp i).2 := by
    rw [cpudlSet, if_pos (by simp), if_neg hvalid, hidx, hr]
    rfl
  obtain ⟨base₀, hlive0⟩ := h.window
  rw [hset] at hlive ⊢
  have hslots : Slots cpus r _ := hr ▸ h.slots.removed hi
  have hsize : r.size = cp.size - 1 := hr ▸ rfl
  have haround : HeapAround (key base r) 0 r.size i := by
    refine h.slots.around hlive0 h.heap hslots hlive fun j hj hne => ⟨by omega, ?_⟩
    simp [hr, removed, hne]
  have hfree : ∀ c, cpus.possible c → update r.freeCpus (cp.elements i).cpu true c =
      update spec.free (cp.elements i).cpu true c := hr ▸ free_update h.free
  rw [hrun]
  by_cases hlast : i = cp.size - 1
  · -- The last slot goes: nothing takes its place, and nothing moves.
    have hstop : ¬ (i > 0 ∧ dlTimeBefore (r.elements (parent i)).dl (r.elements i).dl = true) := by
      rintro ⟨hpos, hbefore⟩
      have hedge := h.heap i hpos hi
      simp [hr, removed, (parent_lt hpos).ne, ← hlast, hedge] at hbefore
    have hsift : r.siftUp i = (r, i) := by rw [siftUp, dif_neg hstop]
    have hstay : (r.setFree (cp.elements i).cpu true).largest i = i := by
      obtain heq | ⟨hlt, hlt'⟩ := (r.setFree (cp.elements i).cpu true).largest_cases i
      · exact heq
      · rw [size_setFree] at hlt'
        omega
    rw [hsift, cpudlHeapify, dif_pos hstay]
    refine ⟨{ hslots with }, hfree, iff_of_true ?_ trivial⟩
    refine (hslots.heapOrder_iff hlive).mpr fun j hpos hj hlo => ?_
    have hlt := heapParent_lt hpos
    exact haround.away j hpos hj hlo (by omega) (by omega)
  obtain ⟨r', j, hsift, hup, hend, haround', hkey, -⟩ :=
    siftUp_spec hslots hlive (by omega) haround
  rw [hsift]
  have hfreed : Slots cpus (r'.setFree (cp.elements i).cpu true) _ :=
    { hup.slots with }
  rw [← hup.size] at hend haround'
  obtain ⟨hdown, hheap⟩ := cpudlHeapify_spec hfreed hlive hend haround' hkey
  refine ⟨hdown.slots, ?_, iff_of_true ((hdown.heapOrder_iff hlive).mpr hheap) trivial⟩
  rw [hdown.freeCpus, setFree, hup.freeCpus]
  exact hfree

/-- A call keeps the heap exactly if the key it looks at shows the right way. -/
theorem CpudlInv.set {isValid : Bool} (hlive : LiveIn base (spec.set cpu dl isValid).live) :
    SetOutcome cpus (cp.cpudlSet cpu dl isValid) (spec.set cpu dl isValid)
      (SetFits cp cpu dl isValid) := by
  cases isValid with
  | true =>
    cases hl : spec.live cpu with
    | none => exact h.insert hcpu hl hlive
    | some old => exact h.change hcpu hl hlive
  | false =>
    have hfits : SetFits cp cpu dl false := fun hvalid => absurd hvalid Bool.false_ne_true
    cases hl : spec.live cpu with
    | none =>
      have hidx := h.slots.absent cpu hcpu hl
      have hrun : cp.cpudlSet cpu dl false = cp := by
        rw [cpudlSet, if_pos (by simp), if_pos hidx]
      have hset : spec.set cpu dl false = spec := by
        simp only [DlSpec.set, hl]
      rw [hrun, hset]
      exact ⟨h.slots, h.free, iff_of_true h.heap hfits⟩
    | some old =>
      obtain ⟨hslots, hfree, hheap⟩ := h.remove hcpu hl hlive
      exact ⟨hslots, hfree, hheap.trans (iff_of_true trivial hfits)⟩

end Set

/-- The states after calls of `cpudl_set()` that keep the live deadlines in one window and meet the
condition on keys. -/
inductive CpudlReach (cpus : Cpus) : Cpudl → DlSpec → Prop
  | init : CpudlReach cpus (Cpudl.cpudlInit cpus) ⟨fun _ => none, fun _ => false⟩
  | set {cp : Cpudl} {spec : DlSpec} (cpu : Nat) (dl : UInt64) (isValid : Bool) :
      CpudlReach cpus cp spec → cpus.possible cpu →
      (∃ base, LiveIn base (spec.set cpu dl isValid).live) → SetFits cp cpu dl isValid →
      CpudlReach cpus (cp.cpudlSet cpu dl isValid) (spec.set cpu dl isValid)

theorem CpudlReach.inv (h : CpudlReach cpus cp spec) : CpudlInv cpus cp spec := by
  induction h with
  | init =>
    refine ⟨⟨fun i hi => ?_, fun cpu hcpu _ => ?_, fun _ _ _ hl => ?_⟩, fun _ _ => rfl,
      fun i _ hi => ?_, 0, fun _ _ hl => ?_⟩
    · exact absurd hi (Nat.not_lt_zero i)
    · simp [cpudlInit, hcpu]
    · cases hl
    · exact absurd hi (Nat.not_lt_zero i)
    · cases hl
  | set cpu dl isValid _ hcpu hlive hfits ih =>
    obtain ⟨base, hbase⟩ := hlive
    obtain ⟨hslots, hfree, hheap⟩ := ih.set hcpu hbase
    exact ⟨hslots, hfree, hheap.mpr hfits, base, hbase⟩

theorem CpudlInv.set_ok_iff {cpu : Nat} {isValid : Bool} (h : CpudlInv cpus cp spec)
    (hcpu : cpus.possible cpu) (hlive : ∃ base, LiveIn base (spec.set cpu dl isValid).live) :
    CpudlOk cpus (cp.cpudlSet cpu dl isValid) (spec.set cpu dl isValid) ↔
      SetFits cp cpu dl isValid := by
  obtain ⟨base, hbase⟩ := hlive
  obtain ⟨hslots, hfree, hheap⟩ := h.set hcpu hbase
  rw [hslots.ok_iff hfree, hheap]

/-- The heap is in order after any calls that meet the condition, and the next call keeps it so
exactly if it meets it. -/
theorem cpudl_reachable (cpus : Cpus) (cp : Cpudl) (spec : DlSpec) (h : CpudlReach cpus cp spec) :
    CpudlOk cpus cp spec ∧
      ∀ cpu dl isValid, cpus.possible cpu →
        (∃ base, LiveIn base (spec.set cpu dl isValid).live) →
        (CpudlOk cpus (cp.cpudlSet cpu dl isValid) (spec.set cpu dl isValid) ↔
          SetFits cp cpu dl isValid) := by
  have hinv := h.inv
  refine ⟨(hinv.slots.ok_iff hinv.free).mpr hinv.heap, fun cpu dl isValid hcpu hlive => ?_⟩
  exact hinv.set_ok_iff hcpu hlive

def twoCpus : Cpus where
  nrCpuIds := 2
  possible cpu := cpu < 2
  lt _ hcpu := of_decide_eq_true hcpu

def noDeadline : DlSpec :=
  ⟨fun _ => none, fun _ => false⟩

/-- A deadline in the upper half of the numbers. -/
def upperDl : UInt64 :=
  0x8000000000000000

/-- A deadline after `upperDl`. -/
def laterDl : UInt64 :=
  0x8000000000000001

theorem liveIn_upper : LiveIn upperDl (noDeadline.set 0 upperDl true).live :=
  .update nofun (by decide)

theorem cpudlReach_upper : CpudlReach twoCpus ((cpudlInit twoCpus).cpudlSet 0 upperDl true)
      (noDeadline.set 0 upperDl true) := by
  refine .set 0 upperDl true .init rfl ⟨upperDl, liveIn_upper⟩ fun _ => ?_
  rw [if_pos (by decide)]
  unfold KeyFits
  split
  · exact fun hpos => absurd hpos (lt_irrefl 0)
  · exact fun j hj => absurd hj (Nat.not_lt_zero j)

/-- A second CPU with a later deadline should be on top, but stays below. -/
theorem cpudlSet_breaks_heap :
    CpudlReach twoCpus ((Cpudl.cpudlInit twoCpus).cpudlSet 0 upperDl true)
        (noDeadline.set 0 upperDl true) ∧
      (∃ base, LiveIn base ((noDeadline.set 0 upperDl true).set 1 laterDl true).live) ∧
      ¬ CpudlOk twoCpus
        (((Cpudl.cpudlInit twoCpus).cpudlSet 0 upperDl true).cpudlSet 1 laterDl true)
        ((noDeadline.set 0 upperDl true).set 1 laterDl true) := by
  have hlive : LiveIn upperDl ((noDeadline.set 0 upperDl true).set 1 laterDl true).live :=
    liveIn_upper.update (by decide)
  refine ⟨cpudlReach_upper, ⟨upperDl, hlive⟩, fun hok => ?_⟩
  have hfits := (cpudlReach_upper.inv.set_ok_iff rfl ⟨upperDl, hlive⟩).mp hok rfl
  have hrun : (cpudlInit twoCpus).cpudlSet 0 upperDl true =
      ((inserted (.cpudlInit twoCpus) 0).setDl 0 upperDl).setFree 0 false := by
    have hstay : ((inserted (.cpudlInit twoCpus) 0).setDl 0 upperDl).cpudlHeapify 0 =
        (inserted (.cpudlInit twoCpus) 0).setDl 0 upperDl := by
      rw [cpudlHeapify, dif_pos (by decide)]
    change ((inserted (.cpudlInit twoCpus) 0).cpudlChangeKey 0 upperDl).setFree 0 false = _
    rw [cpudlChangeKey, if_pos (by decide), hstay]
  rw [hrun, if_pos (by decide), KeyFits, if_pos (by decide)] at hfits
  exact absurd (hfits Nat.one_pos) (by decide)

/-- A deadline in the lower half of the numbers moves a new CPU up. -/
theorem CpudlReach.setFits {cpu : Nat} (h : CpudlReach cpus cp spec) (hcpu : cpus.possible cpu)
    (hnone : spec.live cpu = none) (hdl : dlTimeBefore dl 0 = false) : SetFits cp cpu dl true := by
  intro _
  rw [if_pos (h.inv.slots.absent cpu hcpu hnone), KeyFits, if_neg (ne_true_of_eq_false hdl)]
  intro j hj hpos hpar
  exact absurd (hpar ▸ parent_lt hpos) (not_lt.mpr hj.le)

/-- The second CPU has the later deadline and comes to the top. -/
theorem cpudl_reachable_two :
    CpudlOk twoCpus (((Cpudl.cpudlInit twoCpus).cpudlSet 0 5 true).cpudlSet 1 9 true)
      ((noDeadline.set 0 5 true).set 1 9 true) := by
  have hlive : LiveIn 5 (noDeadline.set 0 5 true).live := .update nofun (by decide)
  have hinit : CpudlReach twoCpus (cpudlInit twoCpus) noDeadline := .init
  have hone := hinit.set 0 5 true rfl ⟨5, hlive⟩ (hinit.setFits rfl rfl rfl)
  have htwo := hone.set 1 9 true rfl ⟨5, hlive.update (by decide)⟩ (hone.setFits rfl rfl rfl)
  exact (cpudl_reachable twoCpus _ _ htwo).1

end LinuxKernel.Sched
