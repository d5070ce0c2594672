import LinuxKernel.Dma.Swiotlb
import LinuxKernel.Lib.FreeRuns
import LinuxKernel.Lib.Returns

/-!
# Bounce buffers over whole runs

The table always counts the free slots of each run, no two live mappings have a slot in
common, and a request fails only when no index of the table is suitable.
-/

namespace LinuxKernel.Dma

open Lib List Function Swiotlb

section Search

variable {nslabs stride nslots m q₀ j : Nat} {span : Nat → Bool} {tlbList : Nat → Nat}

/-- The index after `j` passes of the search. -/
def searchIndex (stride m q₀ j : Nat) : Nat :=
  (q₀ + j) % m * stride

theorem nextIndex_searchIndex (hstride : 0 < stride) (hm : 0 < m) (j : Nat) :
    nextIndex (m * stride) stride (searchIndex stride m q₀ j) =
      searchIndex stride m q₀ (j + 1) := by
  have hiff : (q₀ + j) % m * stride + stride ≥ m * stride ↔ (q₀ + j) % m + 1 ≥ m := by
    rw [ge_iff_le, ge_iff_le, ← Nat.succ_mul, Nat.mul_le_mul_right_iff hstride]
  rw [nextIndex, searchIndex, searchIndex, ← around_succ q₀ j hm]
  by_cases hend : (q₀ + j) % m + 1 ≥ m
  · rw [if_pos (hiff.mpr hend), if_pos hend, zero_mul]
  · rw [if_neg (mt hiff.mp hend), if_neg hend, Nat.succ_mul]

theorem searchIndex_eq_wrap (hstride : 0 < stride) (hq : q₀ < m) (hj : j < m) :
    searchIndex stride m q₀ (j + 1) = q₀ * stride ↔ j + 1 = m := by
  rw [searchIndex, Nat.mul_left_inj (ne_of_gt hstride)]
  constructor
  · intro heq
    by_contra hne
    exact around_ne hq (Nat.succ_pos j) (by omega) heq
  · intro heq
    rw [heq, Nat.add_mod_right, Nat.mod_eq_of_lt hq]

/-- The inner loop stops at the next index that passes the boundary test, if any. -/
theorem skipSpans_eq (hstride : 0 < stride) (hq : q₀ < m) {j : Nat} (hj : j < m) :
    ∃ r : Option Nat, Returns (fun fuel => skipSpans (m * stride) stride (q₀ * stride) span fuel
          (searchIndex stride m q₀ j)) (r.map (searchIndex stride m q₀)) ∧
        (∀ i, j ≤ i → i < r.getD m → span (searchIndex stride m q₀ i) = true) ∧
        ∀ j' ∈ r, j ≤ j' ∧ j' < m ∧ span (searchIndex stride m q₀ j') = false := by
  have hm : 0 < m := lt_of_le_of_lt (Nat.zero_le _) hq
  induction hk : m - j generalizing j with
  | zero => omega
  | succ k ih =>
    by_cases hspan : span (searchIndex stride m q₀ j) = true
    · have hwrap := searchIndex_eq_wrap hstride hq hj
      by_cases hend : j + 1 = m
      · refine ⟨none, .of_end fun fuel => ?_, fun i hi him => ?_, nofun⟩
        · rw [skipSpans, if_pos hspan, nextIndex_searchIndex hstride hm, if_pos (hwrap.mpr hend)]
          rfl
        · rw [Option.getD_none] at him
          obtain rfl : i = j := by omega
          exact hspan
      obtain ⟨r, hrun, hbefore, hat⟩ := ih (j := j + 1) (by omega) (by omega)
      refine ⟨r, hrun.of_pass fun fuel => ?_, fun i hi hir => ?_, fun j' hj' => ?_⟩
      · rw [skipSpans, if_pos hspan, nextIndex_searchIndex hstride hm, if_neg (mt hwrap.mp hend)]
      · rcases Nat.eq_or_lt_of_le hi with rfl | hlt
        · exact hspan
        · exact hbefore i hlt hir
      · exact ⟨Nat.le_of_succ_le (hat j' hj').1, (hat j' hj').2⟩
    · refine ⟨some j, .of_end fun fuel => if_neg hspan,
        fun i hi hij => absurd hij (not_lt.mpr hi), ?_⟩
      rintro _ ⟨⟩
      exact ⟨le_rfl, hj, by simpa using hspan⟩

theorem searchLoop_eq (hstride : 0 < stride) (hq : q₀ < m) {j : Nat} (hj : j < m) :
    ∃ r : Option Nat,
      Returns (fun fuel => searchLoop (m * stride) stride nslots (q₀ * stride) span tlbList fuel
          (searchIndex stride m q₀ j)) (r.map (searchIndex stride m q₀)) ∧
        (r = none → ∀ i, j ≤ i → i < m → span (searchIndex stride m q₀ i) = true ∨
          tlbList (searchIndex stride m q₀ i) < nslots) ∧
        ∀ j' ∈ r, j' < m ∧ span (searchIndex stride m q₀ j') = false ∧
          nslots ≤ tlbList (searchIndex stride m q₀ j') := by
  have hm : 0 < m := lt_of_le_of_lt (Nat.zero_le _) hq
  induction hk : m - j using Nat.strongRecOn generalizing j with
  | ind k ih =>
    subst hk
    obtain ⟨r, hskip, hbefore, hat⟩ := @skipSpans_eq stride m q₀ span hstride hq j hj
    cases r with
    | none =>
      exact ⟨none, .of_succ (hskip.succ.bind (.of_some none)),
        fun _ i hi him => .inl (hbefore i hi him), nofun⟩
    | some j' =>
      obtain ⟨hjj', hjm, hfree⟩ := hat j' rfl
      have hwrap := searchIndex_eq_wrap hstride hq hjm
      by_cases hfound : nslots ≤ tlbList (searchIndex stride m q₀ j')
      · refine ⟨some j', .of_succ (hskip.succ.bind ⟨0, fun fuel _ => if_pos hfound⟩), nofun, ?_⟩
        · rintro _ ⟨⟩
          exact ⟨hjm, hfree, hfound⟩
      have hpassed : ∀ i, j ≤ i → i ≤ j' → span (searchIndex stride m q₀ i) = true ∨
          tlbList (searchIndex stride m q₀ i) < nslots := by
        intro i hi hij
        rcases Nat.lt_or_eq_of_le hij with hlt | rfl
        · exact .inl (hbefore i hi hlt)
        · exact .inr (Nat.lt_of_not_le hfound)
      by_cases hend : j' + 1 = m
      · refine ⟨none, .of_succ (hskip.succ.bind ⟨0, fun fuel _ => ?_⟩),
          fun _ i hi him => hpassed i hi (by omega), nofun⟩
        refine (if_neg hfound).trans (if_pos ?_)
        rw [nextIndex_searchIndex hstride hm, hwrap]
        exact hend
      obtain ⟨r, hrun, hnone, hat'⟩ := ih (m - (j' + 1)) (by omega) (j := j' + 1) (by omega) rfl
      refine ⟨r, .of_succ (hskip.succ.bind ?_), fun hr i hi him => ?_, hat'⟩
      · simp only [Option.map_some, ge_iff_le, if_neg hfound, nextIndex_searchIndex hstride hm,
          if_neg (mt hwrap.mp hend)]
        exact hrun
      · by_cases hle : i ≤ j'
        · exact hpassed i hi hle
        · exact hnone hr i (by omega) him

end Search

section Slots

variable {busy : Nat → Prop} {f g : Nat → Nat}

theorem clearSlots_eq (f : Nat → Nat) (i n j : Nat) :
    clearSlots f i n j = if i ≤ j ∧ j < i + n then 0 else f j := by
  induction n generalizing f i with
  | zero =>
    rw [clearSlots, if_neg (by omega)]
  | succ n ih =>
    rw [clearSlots, ih, update_apply]
    split_ifs <;> omega

theorem returnSlots_eq (f : Nat → Nat) (index n count j : Nat) :
    (returnSlots index f n count).1 j =
        (if index ≤ j ∧ j < index + n then count + (index + n - j) else f j) ∧
      (returnSlots index f n count).2 = count + n := by
  induction n generalizing f count with
  | zero =>
    rw [returnSlots, if_neg (by omega)]
    exact ⟨rfl, rfl⟩
  | succ n ih =>
    obtain ⟨hlist, hcount⟩ := ih (update f (index + n) (count + 1)) (count + 1)
    rw [returnSlots, hlist, hcount, update_apply]
    refine ⟨?_, by omega⟩
    split_ifs <;> omega

theorem countBack_of_le (f : Nat → Nat) {k j : Nat} (count : Nat) (hj : k ≤ j) :
    countBack f k count j = f j := by
  induction k generalizing f count with
  | zero => rfl
  | succ i ih =>
    rw [countBack]
    split
    · rw [ih _ _ (by omega), update_of_ne (by omega)]
    · rfl

variable {count : Nat} {busy' : Nat → Prop} {nslabs k : Nat}

theorem countBack_counts (hbelow : ∀ i, i + 1 < k → CountsAt ioTlbSegsize busy f i)
    (hlast : ∀ i, i + 1 = k → (f i = 0 ↔ busy i) ∧ ((i + 1) % ioTlbSegsize = 0 → f i ≤ 1))
    (hcount : k % ioTlbSegsize ≠ 0 → f k = count) :
    ∀ i < k, CountsAt ioTlbSegsize busy (countBack f k count) i := by
  induction k generalizing f count with
  | zero => exact fun i hi => absurd hi (Nat.not_lt_zero i)
  | succ k ih =>
    have hoff : k % ioTlbSegsize = ioTlbSegsize - 1 ↔ (k + 1) % ioTlbSegsize = 0 := by
      unfold ioTlbSegsize
      omega
    obtain ⟨hzero, hone⟩ := hlast k rfl
    rw [countBack]
    split
    · next hgo =>
        have hne : ∀ j, j ≠ k → update f k (count + 1) j = f j :=
          fun j hj => update_of_ne hj _ _
        have hrest : ∀ i < k, CountsAt ioTlbSegsize busy
            (countBack (update f k (count + 1)) k (count + 1)) i := by
          refine ih (fun i hi => ?_) (fun i hi => ?_) (fun _ => update_self _ _ _)
          · exact (hbelow i (by omega)).congr Iff.rfl (hne i (by omega))
              (fun _ => hne (i + 1) (by omega))
          · have hi' := hbelow i (by omega)
            rw [hne i (by omega)]
            exact ⟨hi'.zero_iff, hi'.le_one⟩
        intro i hi
        obtain hik | rfl := Nat.lt_succ_iff_lt_or_eq.mp hi
        · exact hrest i hik
        have hmid : (i + 1) % ioTlbSegsize ≠ 0 := fun h => hgo.1 (hoff.mpr h)
        constructor
        · exact fun hb => absurd (hzero.mpr hb) hgo.2
        · exact fun _ h => absurd h hmid
        · intro _ _
          rw [countBack_of_le _ _ le_rfl, countBack_of_le _ _ (Nat.le_succ i),
            update_self, hne _ (Nat.succ_ne_self i), hcount hmid]
    next hstop =>
      intro i hi
      obtain hik | rfl := Nat.lt_succ_iff_lt_or_eq.mp hi
      · exact hbelow i (by omega)
      constructor
      · exact hzero.mpr
      · intro hb hmod
        have hpos := mt hzero.mp hb
        have hle := hone hmod
        omega
      · intro hb hmod
        exact absurd ⟨fun h => hmod (hoff.mp h), mt hzero.mp hb⟩ hstop

variable {index n : Nat} (h : ∀ i < nslabs, CountsAt ioTlbSegsize busy f i)
  (hin : index + n ≤ nslabs)

include h hin

theorem write_counts (hkeep : ∀ i, ¬ (index ≤ i ∧ i < index + n) → g i = f i ∧ (busy' i ↔ busy i))
    (hcount : g index = count)
    (hnew : ∀ i, index ≤ i → i < index + n → CountsAt ioTlbSegsize busy' g i) :
    ∀ i < nslabs, CountsAt ioTlbSegsize busy' (countBack g index count) i := by
  intro i hi
  rcases lt_or_ge i index with hlt | hge
  · refine countBack_counts (fun i hi => ?_) (fun i hi => ?_) (fun _ => hcount) i hlt
    · exact (h i (by omega)).congr (hkeep i (by omega)).2 (hkeep i (by omega)).1
        (fun _ => (hkeep (i + 1) (by omega)).1)
    · have hi' := h i (by omega)
      rw [(hkeep i (by omega)).1, (hkeep i (by omega)).2]
      exact ⟨hi'.zero_iff, hi'.le_one⟩
  have hat : CountsAt ioTlbSegsize busy' g i := by
    rcases lt_or_ge i (index + n) with hlt | hge'
    · exact hnew i hge hlt
    · exact (h i hi).congr (hkeep i (by omega)).2 (hkeep i (by omega)).1
        (fun _ => (hkeep (i + 1) (by omega)).1)
  exact hat.congr Iff.rfl (countBack_of_le g count hge)
    (fun _ => countBack_of_le g count (Nat.le_succ_of_le hge))

theorem allocate_counts (hn : 0 < n) (hbusy : ∀ i, busy' i ↔ busy i ∨ index ≤ i ∧ i < index + n) :
    ∀ i < nslabs, CountsAt ioTlbSegsize busy' (countBack (clearSlots f index n) index 0) i := by
  have hzero : ∀ j, index ≤ j → j < index + n → clearSlots f index n j = 0 :=
    fun j hj hj' => (clearSlots_eq f index n j).trans (if_pos ⟨hj, hj'⟩)
  refine write_counts h hin (fun i hi => ⟨?_, ?_⟩) (hzero index le_rfl (by omega))
    fun i hge hlt => ?_
  · exact (clearSlots_eq f index n i).trans (if_neg hi)
  · rw [hbusy]
    exact or_iff_left hi
  · have hb : busy' i := (hbusy i).mpr (.inr ⟨hge, hlt⟩)
    exact ⟨fun _ => hzero i hge hlt, absurd hb, absurd hb⟩

theorem return_counts (hn : 0 < n)
    (hseg : index / ioTlbSegsize = (index + n - 1) / ioTlbSegsize)
    (hcount : count = if (index + n) % ioTlbSegsize ≠ 0 then f (index + n) else 0)
    (hbusy : ∀ i, busy' i ↔ busy i ∧ ¬ (index ≤ i ∧ i < index + n)) :
    ∀ i < nslabs, CountsAt ioTlbSegsize busy'
      (countBack (returnSlots index f n count).1 index (returnSlots index f n count).2)
      i := by
  have hkeep : ∀ j, ¬ (index ≤ j ∧ j < index + n) → (returnSlots index f n count).1 j = f j :=
    fun j hj => (returnSlots_eq f index n count j).1.trans (if_neg hj)
  have hback : ∀ j, index ≤ j → j < index + n →
      (returnSlots index f n count).1 j = count + (index + n - j) :=
    fun j hj hj' => (returnSlots_eq f index n count j).1.trans (if_pos ⟨hj, hj'⟩)
  refine write_counts h hin (fun i hi => ⟨hkeep i hi, ?_⟩) ?_ fun i hge hlt => ?_
  · rw [hbusy]
    exact and_iff_left hi
  · rw [(returnSlots_eq f index n count 0).2, hback index le_rfl (by omega)]
    omega
  have hfree : ¬ busy' i := fun hb => ((hbusy i).mp hb).2 ⟨hge, hlt⟩
  refine ⟨fun hb => absurd hb hfree, fun _ hmod => ?_, fun _ hmod => ?_⟩
  · -- The last slot of the segment is the last one that was returned.
    have hend : i + 1 = index + n := by
      unfold ioTlbSegsize at hseg hmod
      omega
    rw [hback i hge hlt, hcount, ← hend, if_neg (not_not.mpr hmod)]
    omega
  rw [hback i hge hlt]
  by_cases hend : i + 1 = index + n
  · rw [hkeep (i + 1) (by omega), hcount, ← hend, if_pos hmod]
    omega
  · rw [hback (i + 1) (by omega) (by omega)]
    omega

end Slots

/-- The index passes the test and has enough free slots. -/
def Swiotlb.Suitable (tlb : Swiotlb) (req : MapRequest) (index : Nat) : Prop :=
  iommuIsSpanBoundary index (nslotsOf req.size) req.offsetSlots req.maxSlots = false ∧
    nslotsOf req.size ≤ tlb.tlbList index

/-- What `swiotlb_tbl_map_single()` can return. -/
inductive MapOutcome (tlb : Swiotlb) (req : MapRequest) : MapResult → Prop where
  | bug (h : nslotsOf req.size = 0 ∨ isPowerOf2 req.maxSlots = false) : MapOutcome tlb req .bug
  | error (h : ∀ index < tlb.nslabs, req.stride ∣ index → ¬ tlb.Suitable req index) :
      MapOutcome tlb req .error
  | mapped {index : Nat} (hpos : 0 < nslotsOf req.size) (hindex : index < tlb.nslabs)
      (hfit : tlb.Suitable req index) :
      MapOutcome tlb req (.mapped (tlb.allocate req index) (tlb.start + index * slotSize))

theorem MapRequest.stride_cases (req : MapRequest) : req.stride = 1 ∨ req.stride = 2 := by
  rw [MapRequest.stride]
  split
  · exact .inr rfl
  · exact .inl rfl

theorem Swiotlb.firstIndex_eq (tlb : Swiotlb) (req : MapRequest) :
    ∃ m q₀, tlb.nslabs = m * req.stride ∧ q₀ < m ∧ tlb.firstIndex req = q₀ * req.stride := by
  obtain ⟨k, hk⟩ := tlb.segments
  have hsmall := tlb.small
  have hpos := tlb.pos
  unfold ioTlbSegsize at hk hsmall
  rcases req.stride_cases with h | h
  · refine ⟨tlb.nslabs, tlb.firstIndex req, by rw [h, mul_one], ?_, by rw [h, mul_one]⟩
    simp only [firstIndex, alignUp, h]
    split <;> omega
  · refine ⟨64 * k, tlb.firstIndex req / 2, by rw [h]; omega, ?_, ?_⟩
    all_goals
      simp only [firstIndex, alignUp, h]
      split <;> omega

theorem Swiotlb.mapSingle_returns (tlb : Swiotlb) (req : MapRequest) :
    ∃ r, Returns (tlb.mapSingle req) r ∧ MapOutcome tlb req r := by
  by_cases hslots : nslotsOf req.size = 0
  · refine ⟨.bug, ⟨0, fun fuel _ => ?_⟩, .bug (.inl hslots)⟩
    simp [mapSingle, hslots]
  by_cases hpower : isPowerOf2 req.maxSlots = false
  · refine ⟨.bug, ⟨0, fun fuel _ => ?_⟩, .bug (.inr hpower)⟩
    simp [mapSingle, hslots, hpower]
  rw [Bool.not_eq_false] at hpower
  obtain ⟨m, q₀, hnslabs, hq, hfirst⟩ := tlb.firstIndex_eq req
  have hm : 0 < m := lt_of_le_of_lt (Nat.zero_le _) hq
  have hstride : 0 < req.stride := by
    rcases req.stride_cases with h | h <;> omega
  have hstart : q₀ * req.stride = searchIndex req.stride m q₀ 0 := by
    rw [searchIndex, add_zero, Nat.mod_eq_of_lt hq]
  let span := fun index =>
    iommuIsSpanBoundary index (nslotsOf req.size) req.offsetSlots req.maxSlots
  have hrun : tlb.mapSingle req = fun fuel =>
      (searchLoop (m * req.stride) req.stride (nslotsOf req.size) (q₀ * req.stride)
        span tlb.tlbList fuel (searchIndex req.stride m q₀ 0)).bind fun r =>
      r.elim (some .error) fun index =>
        some (.mapped (tlb.allocate req index) (tlb.start + index * slotSize)) := by
    funext fuel
    simp only [mapSingle, if_neg hslots, hpower, hfirst, hnslabs, ← hstart]
    rcases searchLoop _ _ _ _ _ _ _ _ with _ | _ | _ <;> rfl
  obtain ⟨r, hsearch, hnone, hat⟩ :=
    @searchLoop_eq req.stride (nslotsOf req.size) m q₀ span tlb.tlbList hstride hq 0 hm
  cases r with
  | some j =>
    obtain ⟨hj, hfree, hlist⟩ := hat j rfl
    refine ⟨_, ?_, .mapped (Nat.pos_of_ne_zero hslots) ?_ ⟨hfree, hlist⟩⟩
    · rw [hrun]
      exact hsearch.bind (.of_some _)
    · rw [hnslabs, searchIndex, Nat.mul_lt_mul_right hstride]
      exact Nat.mod_lt _ hm
  | none =>
    refine ⟨.error, ?_, .error (fun index hlt hdvd hfit => ?_)⟩
    · rw [hrun]
      exact hsearch.bind (.of_some _)
    obtain ⟨q, rfl⟩ := hdvd
    rw [hnslabs, mul_comm, Nat.mul_lt_mul_right hstride] at hlt
    obtain ⟨i, him, hi⟩ := exists_around q₀ hlt
    have hat := hnone rfl i (Nat.zero_le i) him
    rw [searchIndex, hi, mul_comm] at hat
    rcases hat with hat | hat
    · exact absurd (hfit.1.symm.trans hat) (by decide)
    · exact absurd hfit.2 (Nat.not_le_of_lt hat)

/-- A mapping that was not unmapped yet. -/
structure LiveMapping where
  addr : Nat
  size : Nat
deriving DecidableEq

def Swiotlb.slotOf (tlb : Swiotlb) (addr : Nat) : Nat :=
  (addr - tlb.start) / slotSize

def LiveMapping.Has (tlb : Swiotlb) (m : LiveMapping) (i : Nat) : Prop :=
  tlb.slotOf m.addr ≤ i ∧ i < tlb.slotOf m.addr + nslotsOf m.size

instance (tlb : Swiotlb) (m : LiveMapping) (i : Nat) : Decidable (m.Has tlb i) :=
  inferInstanceAs (Decidable (_ ∧ _))

structure TlbState where
  tlb : Swiotlb
  live : List LiveMapping

namespace TlbState

def Init (st : TlbState) : Prop :=
  st.live = [] ∧ ∃ nslabs start pos segments small fits,
    st.tlb = swiotlbInit nslabs start pos segments small fits

inductive Step : TlbState → TlbState → Prop where
  | map {st : TlbState} {req : MapRequest} {tlb' : Swiotlb} {addr : Nat}
      (hrun : Returns (st.tlb.mapSingle req) (.mapped tlb' addr)) :
      Step st ⟨tlb', ⟨addr, req.size⟩ :: st.live⟩
  | full {st : TlbState} {req : MapRequest} (hrun : Returns (st.tlb.mapSingle req) .error) :
      Step st st
  | unmap {st : TlbState} {m : LiveMapping} (hm : m ∈ st.live) :
      Step st ⟨st.tlb.unmapSingle m.addr m.size, st.live.erase m⟩

inductive Reachable : TlbState → Prop where
  | init {st : TlbState} (h : st.Init) : Reachable st
  | step {st st' : TlbState} (h : Reachable st) (hstep : Step st st') : Reachable st'

def Busy (st : TlbState) (i : Nat) : Prop :=
  ∃ m ∈ st.live, m.Has st.tlb i

instance (st : TlbState) : DecidablePred st.Busy :=
  fun i => inferInstanceAs (Decidable (∃ m ∈ st.live, m.Has st.tlb i))

/-- A mapping of some slots in one segment of the table. -/
structure InSegment (tlb : Swiotlb) (m : LiveMapping) : Prop where
  addr : m.addr = tlb.start + tlb.slotOf m.addr * slotSize
  pos : 0 < nslotsOf m.size
  table : tlb.slotOf m.addr + nslotsOf m.size ≤ tlb.nslabs
  segment : tlb.slotOf m.addr / ioTlbSegsize =
    (tlb.slotOf m.addr + nslotsOf m.size - 1) / ioTlbSegsize

structure Inv (st : TlbState) : Prop where
  counts : ∀ i < st.tlb.nslabs, CountsAt ioTlbSegsize st.Busy st.tlb.tlbList i
  within : ∀ m ∈ st.live, InSegment st.tlb m
  apart : st.live.Pairwise (fun m m' => ∀ i, ¬ (m.Has st.tlb i ∧ m'.Has st.tlb i))

variable {st st' : TlbState}

theorem Init.inv (h : st.Init) : st.Inv := by
  obtain ⟨hlive, nslabs, start, pos, segments, small, fits, htlb⟩ := h
  have hfree : ∀ i, ¬ st.Busy i := by
    rintro i ⟨m, hm, -⟩
    rw [hlive] at hm
    cases hm
  refine ⟨fun i _ => ⟨fun hb => absurd hb (hfree i), fun _ hmod => ?_, fun _ hmod => ?_⟩,
    fun m hm => ?_, by rw [hlive]; exact .nil⟩
  pick_goal 3
  · rw [hlive] at hm
    cases hm
  all_goals
    simp only [htlb, swiotlbInit]
    unfold ioTlbSegsize at hmod ⊢
    omega

theorem Inv.map (h : st.Inv) {req : MapRequest} {index : Nat} (hpos : 0 < nslotsOf req.size)
    (hindex : index < st.tlb.nslabs) (hfit : nslotsOf req.size ≤ st.tlb.tlbList index) :
    Inv ⟨st.tlb.allocate req index, ⟨st.tlb.start + index * slotSize, req.size⟩ :: st.live⟩ := by
  have hslot : (st.tlb.allocate req index).slotOf (st.tlb.start + index * slotSize) = index := by
    change (st.tlb.start + index * slotSize - st.tlb.start) / slotSize = index
    rw [Nat.add_sub_cancel_left, Nat.mul_div_cancel _ (by decide)]
  have hrun := eq_freeRun (by decide) st.tlb.segments h.counts hindex
  rw [hrun] at hfit
  have hle := hfit.trans (freeRun_le _ _)
  have hfree : ∀ i, index ≤ i → i < index + nslotsOf req.size → ¬ st.Busy i := by
    intro i hi hi'
    have hnot := free_of_freeRun (k := i - index) (lt_of_lt_of_le (by omega) hfit)
    rwa [Nat.add_sub_cancel' hi] at hnot
  obtain ⟨k, hk⟩ := st.tlb.segments
  have htable : index + nslotsOf req.size ≤ st.tlb.nslabs := by
    unfold ioTlbSegsize at hk hle
    omega
  constructor
  · refine allocate_counts h.counts htable hpos (fun i => ?_)
    constructor
    · rintro ⟨m, hm, hhas⟩
      rcases mem_cons.mp hm with rfl | hm
      · rw [LiveMapping.Has, hslot] at hhas
        exact .inr hhas
      · exact .inl ⟨m, hm, hhas⟩
    · rintro (⟨m, hm, hhas⟩ | hhas)
      · exact ⟨m, mem_cons_of_mem _ hm, hhas⟩
      · refine ⟨_, mem_cons_self, ?_⟩
        rwa [LiveMapping.Has, hslot]
  · intro m hm
    rcases mem_cons.mp hm with rfl | hm
    · refine ⟨by rw [hslot]; rfl, hpos, by rw [hslot]; exact htable, ?_⟩
      rw [hslot]
      show index / ioTlbSegsize = (index + nslotsOf req.size - 1) / ioTlbSegsize
      unfold ioTlbSegsize at hle ⊢
      omega
    · obtain ⟨haddr, hpos, htable, hseg⟩ := h.within m hm
      exact ⟨haddr, hpos, htable, hseg⟩
  · refine pairwise_cons.mpr ⟨fun m hm i hboth => ?_, h.apart⟩
    obtain ⟨hnew, hold⟩ := hboth
    rw [LiveMapping.Has, hslot] at hnew
    exact hfree i hnew.1 hnew.2 ⟨m, hm, hold⟩

theorem Inv.unmap (h : st.Inv) {m : LiveMapping} (hm : m ∈ st.live) :
    Inv ⟨st.tlb.unmapSingle m.addr m.size, st.live.erase m⟩ := by
  obtain ⟨-, hpos, htable, hseg⟩ := h.within m hm
  have happart : (m :: st.live.erase m).Pairwise
      (fun m m' => ∀ i, ¬ (m.Has st.tlb i ∧ m'.Has st.tlb i)) :=
    ((perm_cons_erase hm).pairwise_iff (fun hab i hboth => hab i ⟨hboth.2, hboth.1⟩)).mp h.apart
  obtain ⟨hother, hrest⟩ := pairwise_cons.mp happart
  have hsmall := st.tlb.small
  refine ⟨return_counts h.counts htable hpos hseg ?_ (fun i => ?_), fun m' hm' => ?_, hrest⟩
  pick_goal 3
  · obtain ⟨haddr, hpos, htable, hseg⟩ := h.within m' (mem_of_mem_erase hm')
    exact ⟨haddr, hpos, htable, hseg⟩
  · have halign : st.tlb.slotOf m.addr + nslotsOf m.size <
        alignUp (st.tlb.slotOf m.addr + 1) ioTlbSegsize ↔
          (st.tlb.slotOf m.addr + nslotsOf m.size) % ioTlbSegsize ≠ 0 := by
      unfold ioTlbSegsize at hseg hsmall
      simp only [alignUp, ioTlbSegsize]
      omega
    exact if_congr halign rfl rfl
  constructor
  · rintro ⟨m', hm', hhas⟩
    exact ⟨⟨m', mem_of_mem_erase hm', hhas⟩, fun hself => hother m' hm' i ⟨hself, hhas⟩⟩
  · rintro ⟨⟨m', hm', hhas⟩, hnot⟩
    have hne : m' ≠ m := by
      rintro rfl
      exact hnot hhas
    exact ⟨m', (mem_erase_of_ne hne).mpr hm', hhas⟩

theorem Inv.step (h : st.Inv) (hstep : Step st st') : st'.Inv := by
  cases hstep with
  | @map req tlb' addr hrun =>
    obtain ⟨r, hrun', hout⟩ := st.tlb.mapSingle_returns req
    cases hrun.unique hrun'
    cases hout with
    | mapped hpos hindex hfit => exact h.map hpos hindex hfit.2
  | full hrun => exact h
  | unmap hm => exact h.unmap hm

theorem Reachable.inv (h : st.Reachable) : st.Inv := by
  induction h with
  | init h => exact h.inv
  | step _ hstep ih => exact ih.step hstep

end TlbState

/-- In every run the table counts the free slots, live mappings are disjoint and stay in their
segment, and a request ends and fails only when no index is suitable. -/
theorem swiotlb_reachable {st : TlbState} (h : st.Reachable) :
    (∀ i < st.tlb.nslabs,
        (st.Busy i → st.tlb.tlbList i = 0) ∧
        (¬ st.Busy i → st.tlb.tlbList i = freeRun st.Busy (ioTlbSegsize - i % ioTlbSegsize) i)) ∧
      st.live.Pairwise (fun m m' => ∀ i, ¬ (m.Has st.tlb i ∧ m'.Has st.tlb i)) ∧
      (∀ m ∈ st.live, TlbState.InSegment st.tlb m) ∧
      ∀ req, ∃ r, Returns (st.tlb.mapSingle req) r ∧
        (r = .bug → nslotsOf req.size = 0 ∨ isPowerOf2 req.maxSlots = false) ∧
        (r = .error →
          ∀ index < st.tlb.nslabs, req.stride ∣ index → ¬ st.tlb.Suitable req index) := by
  have hinv := h.inv
  refine ⟨fun i hi => ⟨(hinv.counts i hi).zero, fun _ => ?_⟩, hinv.apart, hinv.within,
    fun req => ?_⟩
  · exact eq_freeRun (by decide) st.tlb.segments hinv.counts hi
  obtain ⟨r, hrun, hout⟩ := st.tlb.mapSingle_returns req
  refine ⟨r, hrun, ?_, ?_⟩
  · rintro rfl
    cases hout with
    | bug h => exact h
  · rintro rfl
    cases hout with
    | error h => exact h

/-- One page is mapped in a table of one segment. -/
theorem swiotlb_reachable_page :
    ∃ st : TlbState, st.Reachable ∧ st.live = [⟨0, 4096⟩] ∧
      st.tlb.tlbList 1 = 0 ∧ st.tlb.tlbList 126 = 2 := by
  have h₀ : TlbState.Reachable ⟨swiotlbInit 128 0 (by decide) ⟨1, rfl⟩ (by decide)
      (by decide), []⟩ := .init ⟨rfl, 128, 0, _, _, _, _, rfl⟩
  have h₁ := h₀.step (@TlbState.Step.map _ ⟨0xFFFFFFFF, 0, 0, 4096⟩ _ _ ⟨1, fun fuel hfuel => by
      obtain ⟨n, rfl⟩ := Nat.exists_eq_add_of_le' hfuel
      rfl⟩)
  obtain ⟨hcounts, -⟩ := swiotlb_reachable h₁
  refine ⟨_, h₁, rfl, ?_, ?_⟩
  · exact (hcounts 1 (by decide)).1 (by decide)
  · exact ((hcounts 126 (by decide)).2 (by decide)).trans (by decide)

end LinuxKernel.Dma
