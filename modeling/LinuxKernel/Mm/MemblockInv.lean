import LinuxKernel.Mm.MemblockLoops

/-!
# The regions of memblock

The invariant of `struct memblock_type`, and what the operations do to the map
from addresses to nodes and flags.
-/

namespace LinuxKernel.Mm

open Lib MemblockType

/-- The array has no region, only the dummy entry. -/
def MemblockType.Dummy (t : MemblockType) : Prop :=
  ∃ nid, t.regions = [⟨0, 0, 0, nid⟩]

/-- The invariant of `struct memblock_type`. -/
structure MemblockOk (t : MemblockType) : Prop where
  fits : ∀ r ∈ t.regions, r.Fits
  sorted : t.Dummy ∨ SepFrom 0 (segs t.regions)
  merged : Merged (segs t.regions)
  cnt_pos : 1 ≤ t.cnt
  cnt_le : t.cnt ≤ t.max
  total : t.totalSize.toNat = extent (segs t.regions)

/-- The node and the flags of an address that is covered. -/
def MemblockType.attrAt (t : MemblockType) (x : Nat) : Option Attr :=
  valAt (segs t.regions) x

variable {t : MemblockType}

section Pieces

theorem memblockCapSize_toNat (base size : PhysAddr) :
    (memblockCapSize base size).toNat = min size.toNat (2 ^ 64 - 1 - base.toNat) := by
  have hbase := base.isLt
  have hmax : (-1 - base : PhysAddr).toNat = 2 ^ 64 - 1 - base.toNat := by
    have hle : base ≤ (-1 : PhysAddr) := by
      rw [BitVec.le_def, show (-1 : PhysAddr).toNat = 2 ^ 64 - 1 from rfl]
      omega
    rw [BitVec.toNat_sub_of_le hle]
    rfl
  unfold memblockCapSize
  rw [toNat_min, hmax]

theorem toNat_stop (base size : PhysAddr) :
    (base + memblockCapSize base size).toNat = base.toNat + (memblockCapSize base size).toNat := by
  have hbase := base.isLt
  have hcap := memblockCapSize_toNat base size
  rw [BitVec.toNat_add]
  exact Nat.mod_eq_of_lt (by omega)

theorem base_le_stop (base size : PhysAddr) :
    base.toNat ≤ (base + memblockCapSize base size).toNat := by
  rw [toNat_stop]
  exact Nat.le_add_right _ _

theorem base_lt_stop {base size : PhysAddr} (hsize : memblockCapSize base size ≠ 0) :
    base.toNat < (base + memblockCapSize base size).toNat := by
  have hpos : (memblockCapSize base size).toNat ≠ 0 := fun hzero =>
    hsize (BitVec.eq_of_toNat_eq hzero)
  rw [toNat_stop]
  omega

/-- The array lacks room for `entries` when it was doubled as often as the calls succeed. -/
def LacksRoom (entries : Nat) (grown : List Bool) (t : MemblockType) : Prop :=
  t.max * 2 ^ (grown.takeWhile id).length < entries

/-- The array only grows, and there is room for the entries unless a doubling failed. -/
theorem ensureRoom_eq (need : Nat) (grown : List Bool) (t : MemblockType) :
    ∃ ret max, ensureRoom need grown t = (ret, { t with max := max }) ∧ t.max ≤ max ∧
        (ret = .ok → t.cnt + need ≤ max) ∧
        (ret = .enomem → LacksRoom (t.cnt + need) grown t) := by
  unfold LacksRoom
  induction grown generalizing t with
  | nil =>
    rw [ensureRoom]
    split
    · exact ⟨.enomem, t.max, rfl, le_refl _, nofun, fun _ => by simpa⟩
    · exact ⟨.ok, t.max, rfl, le_refl _, fun _ => by omega, nofun⟩
  | cons g grown ih =>
    rw [ensureRoom]
    split
    · cases g with
      | false => exact ⟨.enomem, t.max, rfl, le_refl _, nofun, fun _ => by simpa⟩
      | true =>
        obtain ⟨ret, max, heq, hle, hroom, hlacks⟩ := ih { t with max := t.max * 2 }
        have hle' : t.max * 2 ≤ max := hle
        refine ⟨ret, max, heq, by omega, hroom, fun hret => ?_⟩
        have hlacks' : t.max * 2 * 2 ^ (grown.takeWhile id).length < t.cnt + need := hlacks hret
        rwa [Nat.mul_assoc, ← Nat.pow_succ'] at hlacks'
    · exact ⟨.ok, t.max, rfl, le_refl _, fun _ => by omega, nofun⟩

theorem MemblockType.Dummy.attrAt (h : t.Dummy) (x : Nat) : t.attrAt x = none := by
  obtain ⟨nid, hregions⟩ := h
  unfold MemblockType.attrAt
  rw [hregions]
  exact if_neg (by simp [MemblockRegion.seg])

theorem extent_lt {regions : List MemblockRegion} (hfits : ∀ r ∈ regions, r.Fits)
    (hsep : SepFrom 0 (segs regions)) : extent (segs regions) < 2 ^ 64 := by
  have hle : extent (segs regions) ≤ 2 ^ 64 - 1 - 0 := by
    refine extent_le hsep (Nat.zero_le _) ?_
    intro s hs
    obtain ⟨r, hr, rfl⟩ := List.mem_map.mp hs
    exact Nat.le_sub_one_of_lt (hfits r hr)
  omega

theorem MemblockOk.of_sep (hfits : ∀ r ∈ t.regions, r.Fits) (hsep : SepFrom 0 (segs t.regions))
    (hmerged : Merged (segs t.regions)) (hpos : 1 ≤ t.cnt) (hle : t.cnt ≤ t.max)
    (htotal : t.totalSize = BitVec.ofNat 64 (extent (segs t.regions))) :
    MemblockOk t where
  fits := hfits
  sorted := .inr hsep
  merged := hmerged
  cnt_pos := hpos
  cnt_le := hle
  total := by
    rw [htotal, BitVec.toNat_ofNat]
    exact Nat.mod_eq_of_lt (extent_lt hfits hsep)

theorem MemblockOk.total_eq (h : MemblockOk t) :
    t.totalSize = BitVec.ofNat 64 (extent (segs t.regions)) := by
  rw [← h.total, BitVec.ofNat_toNat, BitVec.setWidth_eq]

variable {max : Nat}

theorem MemblockOk.dummy (nid : BitVec 32) (hmax : 1 ≤ max) :
    MemblockOk ⟨[⟨0, 0, 0, nid⟩], max, 0⟩ where
  fits := by simp [MemblockRegion.Fits]
  sorted := .inl ⟨nid, rfl⟩
  merged := .singleton _
  cnt_pos := le_refl 1
  cnt_le := hmax
  total := rfl

theorem MemblockOk.grow (h : MemblockOk t) (hle : t.max ≤ max) : MemblockOk { t with max := max } :=
  { h with cnt_le := le_trans h.cnt_le hle }

theorem memblockMergeRegions_ok (hfits : ∀ r ∈ t.regions, r.Fits)
    (hsep : SepFrom 0 (segs t.regions)) (hpos : 1 ≤ t.cnt) (hle : t.cnt ≤ t.max)
    (htotal : t.totalSize = BitVec.ofNat 64 (extent (segs t.regions))) :
    ∃ t', memblockMergeRegions t = some t' ∧ MemblockOk t' ∧ ∀ x, t'.attrAt x = t.attrAt x := by
  obtain ⟨a, rest, hregions⟩ : ∃ a rest, t.regions = a :: rest :=
    List.exists_cons_of_length_pos hpos
  have hcnt : t.cnt = rest.length + 1 := by
    rw [cnt, hregions, List.length_cons]
  rw [hregions] at hfits hsep htotal
  obtain ⟨out, hout, hsegs, hfits'⟩ := mergeLoop_eq hfits hsep []
  have hmerge : memblockMergeRegions t = some { t with regions := out } := by
    unfold memblockMergeRegions cnt
    rw [hregions]
    exact congrArg (Option.map _) hout
  have hlen := length_mergeFrom_le a.seg (segs rest)
  rw [← hsegs, length_segs, length_segs] at hlen
  have hne : out ≠ [] := by
    rintro rfl
    exact mergeFrom_ne_nil hsegs.symm
  refine ⟨_, hmerge, .of_sep hfits' ?_ ?_ ?_ ?_ ?_, ?_⟩
  · rw [hsegs]
    exact hsep.mergeFrom
  · rw [hsegs]
    exact merged_mergeFrom
  · exact List.length_pos_iff.mpr hne
  · change out.length ≤ t.max
    omega
  · rw [segs_cons] at hsep
    rw [hsegs, extent_mergeFrom hsep]
    exact htotal
  · intro x
    unfold attrAt
    rw [hregions, hsegs]
    exact valAt_mergeFrom hsep x

end Pieces

variable {size base : PhysAddr}

def InRange (base size : PhysAddr) (x : Nat) : Prop :=
  base.toNat ≤ x ∧ x < base.toNat + min size.toNat (2 ^ 64 - 1 - base.toNat)

instance (base size : PhysAddr) (x : Nat) : Decidable (InRange base size x) :=
  inferInstanceAs (Decidable (_ ∧ _))

theorem inRange_iff (x : Nat) :
    InRange base size x ↔ base.toNat ≤ x ∧ x < (base + memblockCapSize base size).toNat := by
  rw [toNat_stop, memblockCapSize_toNat]
  rfl

theorem not_inRange_of_cap (h : memblockCapSize base size = 0) (x : Nat) :
    ¬ InRange base size x := by
  rw [inRange_iff, toNat_stop, h, show (0 : PhysAddr).toNat = 0 from rfl]
  omega

/-- The flags of an address after they were set or cleared. -/
def setclrAttr (set : Bool) (flag : BitVec 64) (attr : Attr) : Attr :=
  (attr.1, if set then attr.2 ||| flag else attr.2 &&& ~~~ flag)

/-- The array lacks room for what an operation inserts: the ranges of an addition that are not
covered, or the two halves that come from splitting regions. -/
def MemblockOp.LacksRoom (t : MemblockType) : MemblockOp → Prop
  | .add grown base size nid flags =>
    Mm.LacksRoom (fill (base + memblockCapSize base size).toNat (nid, flags) base.toNat
      (segs t.regions)).length grown t
  | .remove grown _ _ | .setclr grown _ _ _ _ => Mm.LacksRoom (t.cnt + 2) grown t

/-- What an operation returning `ret` did to the map from addresses to nodes and flags: nothing if
it failed. -/
def MemblockOp.Effect (t : MemblockType) (ret : Ret) (t' : MemblockType) : MemblockOp → Prop
  | .add _ base size nid flags =>
    ∀ x, t'.attrAt x =
      if ret = .ok then (t.attrAt x).or (if InRange base size x then some (nid, flags) else none)
      else t.attrAt x
  | .remove _ base size =>
    ∀ x, t'.attrAt x = if ret = .ok ∧ InRange base size x then none else t.attrAt x
  | .setclr _ base size set flag =>
    ∀ x, t'.attrAt x =
      if ret = .ok ∧ InRange base size x then (t.attrAt x).map (setclrAttr set flag)
      else t.attrAt x

/-- An operation fails only for lack of room, and has its effect if it does not. -/
def MemblockOp.Spec (t : MemblockType) (ret : Ret) (t' : MemblockType) (op : MemblockOp) : Prop :=
  (ret = .enomem → op.LacksRoom t) ∧ op.Effect t ret t'

theorem memblockAddRange_fill (h : MemblockOk t) (hsep : SepFrom 0 (segs t.regions))
    (grown : List Bool) (hsize : memblockCapSize base size ≠ 0) (nid : BitVec 32)
    (flags : BitVec 64) :
    ∃ ret t', memblockAddRange grown t base size nid flags = some (ret, t') ∧ MemblockOk t' ∧
      MemblockOp.Spec t ret t' (.add grown base size nid flags) := by
  simp only [MemblockOp.Spec, MemblockOp.LacksRoom, MemblockOp.Effect, inRange_iff]
  generalize hstop : base + memblockCapSize base size = stop
  -- the first entry is not the dummy
  obtain ⟨a, rest, hregions⟩ : ∃ a rest, t.regions = a :: rest :=
    List.exists_cons_of_length_pos h.cnt_pos
  have hfirst : (t.regions.getD 0 default).size ≠ 0 := by
    rw [hregions] at hsep ⊢
    intro hzero
    have hlt : a.base.toNat < a.base.toNat + a.size.toNat := hsep.2.1
    rw [show a.size = 0 from hzero] at hlt
    exact lt_irrefl _ hlt
  obtain ⟨nrNew, hcount, hnr⟩ := addRound_count nid flags stop h.fits base
  obtain ⟨ret, max, hgrow, hle, hroom, hlacks⟩ := ensureRoom_eq nrNew grown t
  rw [Nat.add_comm t.cnt, hnr] at hroom hlacks
  unfold memblockAddRange
  simp only [hstop, hcount, hgrow]
  rw [if_neg hsize, if_neg hfirst]
  cases ret with
  | enomem => exact ⟨.enomem, _, rfl, h.grow hle, hlacks, fun _ => rfl⟩
  | ok =>
    have hroom' := hroom rfl
    obtain ⟨nrNew', out, total, hround, hout, hfits, htotal⟩ :=
      addRound_insert nid flags stop (t := { t with max := max }) h.fits hroom'
    dsimp only at hout htotal
    have hsep' : SepFrom 0 (segs out) := by
      rw [hout]
      exact hsep.fill _ _ (Nat.zero_le _)
    have hlen := length_le_fill base.toNat stop.toNat (nid, flags) (segs t.regions)
    rw [← hout, length_segs, length_segs] at hlen
    rw [← hout, length_segs] at hroom'
    have htotal' : total = .ofNat 64 (extent (segs out)) := by
      rw [h.total_eq, BitVec.add_comm] at htotal
      exact (BitVec.add_right_inj _).mp htotal
    obtain ⟨t', hmerge, hok, hattr⟩ := memblockMergeRegions_ok (t := ⟨out, max, total⟩) hfits hsep'
        (le_trans h.cnt_pos hlen) hroom' htotal'
    simp only [hround, hmerge]
    refine ⟨.ok, t', rfl, hok, nofun, fun x => ?_⟩
    rw [hattr, if_pos rfl, attrAt, hout]
    exact valAt_fill hsep base.toNat stop.toNat (nid, flags) x

/-- `memblock_add_range()` gives the node and the flags to all uncovered addresses of the range. -/
theorem memblockAddRange_ok (h : MemblockOk t) (grown : List Bool) (base size : PhysAddr)
    (nid : BitVec 32) (flags : BitVec 64) :
    ∃ ret t', memblockAddRange grown t base size nid flags = some (ret, t') ∧ MemblockOk t' ∧
      MemblockOp.Spec t ret t' (.add grown base size nid flags) := by
  by_cases hsize : memblockCapSize base size = 0
  · refine ⟨.ok, t, ?_, h, nofun, ?_⟩
    · unfold memblockAddRange
      simp only [if_pos hsize]
    · intro x
      rw [if_pos rfl, if_neg (not_inRange_of_cap hsize x), Option.or_none]
  rcases h.sorted with hdummy | hsep
  · -- the range takes the place of the dummy
    obtain ⟨nid₀, hregions⟩ := hdummy
    have hlt := base_lt_stop hsize
    rw [toNat_stop] at hlt
    have hfits : MemblockRegion.Fits ⟨base, memblockCapSize base size, flags, nid⟩ := by
      have hstop := (base + memblockCapSize base size).isLt
      rw [toNat_stop] at hstop
      exact hstop
    refine ⟨.ok, ⟨[⟨base, memblockCapSize base size, flags, nid⟩], t.max,
      memblockCapSize base size⟩, ?_, .of_sep ?_ ?_ ?_ ?_ ?_ ?_, nofun, ?_⟩
    · unfold memblockAddRange
      simp only [if_neg hsize, hregions]
      rfl
    · intro r hr
      rw [List.mem_singleton.mp hr]
      exact hfits
    · exact ⟨Nat.zero_le _, hlt, trivial⟩
    · exact .singleton _
    · exact le_refl 1
    · exact le_trans h.cnt_pos h.cnt_le
    · exact (ofNat_seg ⟨base, memblockCapSize base size, flags, nid⟩).symm
    · intro x
      rw [if_pos rfl, MemblockType.Dummy.attrAt ⟨nid₀, hregions⟩, Option.none_or]
      simp only [inRange_iff, toNat_stop]
      rfl
  · exact memblockAddRange_fill h hsep grown hsize nid flags

variable {startRgn endRgn : Nat} {bef ins aft : List MemblockRegion}

section Isolate

open List

/-- What `memblock_isolate_range()` returns. -/
structure Isolated (t : MemblockType) (base size : PhysAddr)
    (startRgn endRgn : Nat) (bef ins aft : List MemblockRegion) : Prop where
  segsBef : segs bef = below base.toNat (segs t.regions)
  segsIns :
    segs ins = below (base + memblockCapSize base size).toNat (above base.toNat (segs t.regions))
  segsAft : segs aft = above (base + memblockCapSize base size).toNat (segs t.regions)
  fits : ∀ r ∈ bef ++ (ins ++ aft), r.Fits
  length : endRgn - startRgn = ins.length
  start : ins ≠ [] → startRgn = bef.length

theorem memblockIsolateRange_cases (h : MemblockOk t) (grown : List Bool) (base size : PhysAddr) :
    ∃ max, t.max ≤ max ∧
      ((∃ ret, memblockIsolateRange grown t base size = some (ret, 0, 0, { t with max := max }) ∧
          (ret = .enomem → LacksRoom (t.cnt + 2) grown t) ∧
          (ret = .ok → ∀ x, InRange base size x → t.attrAt x = none)) ∨
        SepFrom 0 (segs t.regions) ∧ memblockCapSize base size ≠ 0 ∧
          ∃ startRgn endRgn bef ins aft, memblockIsolateRange grown t base size = some
                (.ok, startRgn, endRgn, { t with max := max, regions := bef ++ (ins ++ aft) }) ∧
              Isolated t base size startRgn endRgn bef ins aft ∧
              (bef ++ (ins ++ aft)).length ≤ max) := by
  unfold memblockIsolateRange
  by_cases hsize : memblockCapSize base size = 0
  · simp only [if_pos hsize]
    refine ⟨t.max, le_refl _, .inl ⟨.ok, rfl, nofun, fun _ x hin => ?_⟩⟩
    exact absurd hin (not_inRange_of_cap hsize x)
  obtain ⟨ret, max, hgrow, hle, hroom, hlacks⟩ := ensureRoom_eq 2 grown t
  have hstop := base_lt_stop hsize
  refine ⟨max, hle, ?_⟩
  simp only [if_neg hsize, hgrow]
  cases ret with
  | enomem => exact .inl ⟨.enomem, rfl, hlacks, nofun⟩
  | ok =>
    rcases h.sorted with hdummy | hsep
    · refine .inl ⟨.ok, ?_, nofun, fun _ x _ => hdummy.attrAt x⟩
      obtain ⟨nid, hregions⟩ := hdummy
      have hfits : MemblockRegion.Fits ⟨0, 0, 0, nid⟩ := by simp [MemblockRegion.Fits]
      refine Option.map_eq_some_iff.mpr ⟨(0, 0, { t with max := max }), ?_, rfl⟩
      refine (isolateLoop_cons (t := { t with max := max })
        (show t.regions = [] ++ ⟨0, 0, 0, nid⟩ :: [] from hregions) hfits (t.cnt + 2) 0 0).trans ?_
      refine (if_neg (not_le.mpr (Nat.zero_lt_of_lt hstop))).trans ?_
      refine (if_pos (Nat.zero_le base.toNat)).trans ?_
      exact isolateLoop_end (t := { t with max := max }) hregions (t.cnt + 1) 0 0
    have hroom' := hroom rfl
    obtain ⟨bef, ins, aft, hout, hbef, hins, haft, hfits, hlen⟩ :=
      isolateLoop_eq hstop h.fits hsep (t := { t with max := max })
        (nil_append t.regions).symm (by
          change t.cnt + 1 < max
          omega)
    refine .inr ⟨hsep, hsize, if ins ≠ [] then bef.length else 0,
      if ins = [] then 0 else bef.length + ins.length, bef, ins, aft, ?_,
      ⟨hbef, hins, haft, hfits, ?_, fun hne => if_pos hne⟩, ?_⟩
    · exact congrArg (Option.map fun out => (Ret.ok, out)) hout
    · cases ins with
      | nil => rfl
      | cons r ins => exact Nat.add_sub_cancel_left _ _
    · have hcnt : t.cnt = t.regions.length := rfl
      omega

theorem removeLoop_eq (ins : List MemblockRegion) (t : MemblockType)
    (hregions : t.regions = bef ++ (ins ++ aft)) :
    ∃ total, removeLoop bef.length ins.length t =
          { t with
            regions :=
              if ins ≠ [] ∧ bef ++ aft = [] then [⟨0, 0, 0, maxNumnodes⟩]
              else bef ++ aft
            totalSize := total } ∧
        total + BitVec.ofNat 64 (extent (segs ins)) = t.totalSize := by
  induction ins using reverseRecOn generalizing t with
  | nil =>
    refine ⟨t.totalSize, ?_, BitVec.add_zero _⟩
    rw [if_neg (by simp)]
    change t = _
    rw [show bef ++ aft = t.regions from hregions.symm]
  | append_singleton ins r ih =>
    have hsplit : t.regions = (bef ++ ins) ++ r :: aft := by
      simp [hregions]
    have hr : t.regions.getD (bef.length + ins.length) default = r := by
      rw [hsplit, ← length_append]
      simp
    have herase : t.regions.eraseIdx (bef.length + ins.length) = (bef ++ ins) ++ aft := by
      rw [hsplit, ← length_append]
      simp [eraseIdx_append_of_length_le]
    rw [length_append, length_singleton, removeLoop]
    unfold memblockRemoveRegion
    simp only [hr, herase, segs_append, segs_cons, segs_nil, extent_append,
      extent_cons, extent_nil, BitVec.ofNat_add, ofNat_seg]
    by_cases hempty : (bef ++ ins) ++ aft = []
    · obtain ⟨rfl, rfl, rfl⟩ : bef = [] ∧ ins = [] ∧ aft = [] := by
        simpa using hempty
      refine ⟨t.totalSize - r.size, by simp [removeLoop], ?_⟩
      simp
    rw [if_neg hempty]
    obtain ⟨total, hloop, htotal⟩ :=
      ih { t with
          regions := bef ++ ins ++ aft
          totalSize := t.totalSize - r.size }
        (append_assoc _ _ _)
    refine ⟨total, ?_, ?_⟩
    · rw [hloop]
      by_cases hgone : bef ++ aft = []
      · have hins : ins ≠ [] := by
          rintro rfl
          exact hempty (by simpa using hgone)
        simp [hgone, hins]
      · simp [hgone]
    · simp only [BitVec.add_zero]
      rw [← BitVec.add_assoc, htotal, BitVec.sub_add_cancel]

theorem setclrLoop_eq (set : Bool) (flag : BitVec 64) (bef ins aft : List MemblockRegion) :
    setclrLoop set flag bef.length ins.length (bef ++ (ins ++ aft)) =
      bef ++ (ins.map (setclr set flag) ++ aft) := by
  induction ins generalizing bef with
  | nil => rfl
  | cons r ins ih =>
    rw [length_cons, setclrLoop, cons_append]
    have h := ih (bef ++ [setclr set flag r])
    rw [length_append, length_singleton] at h
    simpa [modify_eq_take_drop] using h

variable (h : Isolated t base size startRgn endRgn bef ins aft)

include h

theorem Isolated.loop_eq {β : Type} (loop : Nat → Nat → β) (hzero : ∀ i j, loop i 0 = loop j 0) :
    loop startRgn (endRgn - startRgn) = loop bef.length ins.length := by
  rw [h.length]
  cases ins with
  | nil => exact hzero _ _
  | cons r ins => rw [h.start (cons_ne_nil r ins)]

variable (hsep : SepFrom 0 (segs t.regions))

include hsep

theorem Isolated.extent_eq :
    extent (segs bef) + (extent (segs ins) + extent (segs aft)) = extent (segs t.regions) := by
  rw [h.segsBef, h.segsIns, h.segsAft, ← above_above (base_le_stop base size),
    extent_below_above (hsep.above _), extent_below_above hsep]

theorem Isolated.sep (f : Attr → Attr) :
    SepFrom 0 (segs bef ++ (mapVals f (segs ins) ++ segs aft)) := by
  have hle := base_le_stop base size
  rw [h.segsBef, h.segsIns, h.segsAft]
  refine hsep.below_append (.mapVals_append f ?_)
  refine (hsep.above _).below_append ?_
  exact (hsep.above _).mono (by omega)

theorem Isolated.valAt_append (mid : List (Seg Attr)) (f : Attr → Option Attr)
    (hmid : ∀ x, valAt mid x = (valAt (segs ins) x).bind f) (x : Nat) :
    valAt (segs bef ++ (mid ++ segs aft)) x =
      if InRange base size x then (t.attrAt x).bind f else t.attrAt x := by
  rw [Lib.valAt_append, Lib.valAt_append, hmid, h.segsBef, h.segsIns, h.segsAft, valAt_below hsep,
    valAt_above hsep, valAt_below (hsep.above _), valAt_above hsep]
  simp only [inRange_iff, attrAt]
  have hle := base_le_stop base size
  generalize (base + memblockCapSize base size).toNat = stop at hle
  rcases lt_or_ge x base.toNat with hlo | hlo
  · have hhi : x < stop := lt_of_lt_of_le hlo hle
    simp [hlo, hhi, not_le.mpr hlo, not_le.mpr hhi]
  · rcases lt_or_ge x stop with hhi | hhi
    · simp [hlo, hhi, not_lt.mpr hlo, not_le.mpr hhi]
    · simp [hlo, hhi, not_lt.mpr hlo, not_lt.mpr hhi]

variable (hok : MemblockOk t) {max : Nat} (hroom : (bef ++ (ins ++ aft)).length ≤ max)

include hok hroom

theorem Isolated.remove_ok (hsize : memblockCapSize base size ≠ 0) (hmax : t.max ≤ max) :
    ∃ t', removeLoop startRgn (endRgn - startRgn)
          { t with max := max, regions := bef ++ (ins ++ aft) } = t' ∧
        MemblockOk t' ∧
        ∀ x, t'.attrAt x = if InRange base size x then none else t.attrAt x := by
  obtain ⟨total, hloop, htotal⟩ :=
    removeLoop_eq ins { t with max := max, regions := bef ++ (ins ++ aft) } rfl
  rw [← h.loop_eq (removeLoop · · _) fun _ _ => rfl] at hloop
  have hattr : ∀ x, valAt (segs (bef ++ aft)) x =
      if InRange base size x then none else t.attrAt x := by
    intro x
    rw [segs_append]
    refine (h.valAt_append hsep [] (fun _ => none) ?_ x).trans ?_
    · exact fun x => (Option.bind_fun_none _).symm
    · rw [Option.bind_fun_none]
  have htotal' : total = .ofNat 64 (extent (segs (bef ++ aft))) := by
    dsimp only at htotal
    rw [hok.total_eq, ← h.extent_eq hsep, Nat.add_left_comm, BitVec.ofNat_add,
      BitVec.add_comm] at htotal
    rw [segs_append, extent_append]
    exact (BitVec.add_right_inj _).mp htotal
  by_cases hgone : bef ++ aft = []
  · -- all regions were in the range, and there was one
    have hins : ins ≠ [] := by
      rintro rfl
      obtain ⟨rfl, rfl⟩ := append_eq_nil_iff.mp hgone
      have hpos := extent_pos hsep (ne_nil_of_length_pos ((length_segs _).symm ▸ hok.cnt_pos))
      exact ne_of_lt hpos (h.extent_eq hsep)
    rw [if_pos ⟨hins, hgone⟩] at hloop
    refine ⟨_, hloop, ?_, ?_⟩
    · rw [htotal', hgone]
      exact .dummy maxNumnodes (hok.cnt_pos.trans (hok.cnt_le.trans hmax))
    · intro x
      rw [← hattr, hgone]
      exact MemblockType.Dummy.attrAt ⟨maxNumnodes, rfl⟩ x
  rw [if_neg (fun hboth => hgone hboth.2)] at hloop
  refine ⟨_, hloop, .of_sep ?_ ?_ ?_ ?_ ?_ htotal', hattr⟩
  · intro r hr
    refine h.fits r ?_
    rcases mem_append.mp hr with hr | hr <;> simp [hr]
  · dsimp only
    rw [segs_append, h.segsBef, h.segsAft]
    exact hsep.below_append ((hsep.above _).mono (by
      have := base_le_stop base size
      omega))
  · dsimp only
    rw [segs_append, h.segsBef, h.segsAft]
    exact hok.merged.below_append_above hsep (base_lt_stop hsize)
  · exact length_pos_iff.mpr hgone
  · change (bef ++ aft).length ≤ max
    simp only [length_append] at hroom ⊢
    omega

theorem Isolated.setclr_ok (set : Bool) (flag : BitVec 64) :
    ∃ t', memblockMergeRegions
          { t with
            max := max
            regions :=
              setclrLoop set flag startRgn (endRgn - startRgn) (bef ++ (ins ++ aft)) } = some t' ∧
        MemblockOk t' ∧
        ∀ x, t'.attrAt x = if InRange base size x then (t.attrAt x).map (setclrAttr set flag)
            else t.attrAt x := by
  have hloop := h.loop_eq (setclrLoop set flag · · (bef ++ (ins ++ aft))) fun _ _ => rfl
  rw [setclrLoop_eq] at hloop
  have hsegs : segs (bef ++ (ins.map (setclr set flag) ++ aft)) =
        segs bef ++ (mapVals (setclrAttr set flag) (segs ins) ++ segs aft) := by
    simp only [segs, mapVals, map_append, map_map]
    rfl
  have hne : t.regions ≠ [] := ne_nil_of_length_pos hok.cnt_pos
  have hfits : ∀ r ∈ bef ++ (ins.map (setclr set flag) ++ aft), r.Fits := by
    obtain ⟨hbef, hrest⟩ := forall_mem_append.mp h.fits
    obtain ⟨hins, haft⟩ := forall_mem_append.mp hrest
    exact forall_mem_append.mpr ⟨hbef, forall_mem_append.mpr ⟨forall_mem_map.mpr hins, haft⟩⟩
  have hextent :
      extent (segs (bef ++ (ins.map (setclr set flag) ++ aft))) = extent (segs t.regions) := by
    rw [hsegs, extent_append, extent_append, extent_mapVals, h.extent_eq hsep]
  have hpos : 1 ≤ (bef ++ (ins.map (setclr set flag) ++ aft)).length := by
    refine length_pos_iff.mpr ?_
    intro hnil
    have hlt := extent_pos hsep (by simpa [segs] using hne)
    rw [← hextent, hnil] at hlt
    exact lt_irrefl 0 hlt
  rw [hloop]
  obtain ⟨t', hmerge, hok', hattr⟩ := memblockMergeRegions_ok
      (t := ⟨bef ++ (ins.map (setclr set flag) ++ aft), max, t.totalSize⟩)
      hfits (hsegs ▸ h.sep hsep _) hpos
      (by simpa [cnt] using hroom)
      (hok.total_eq.trans (congrArg _ hextent.symm))
  refine ⟨t', hmerge, hok', ?_⟩
  intro x
  rw [hattr]
  refine (congrArg (valAt · x) hsegs).trans
    ((h.valAt_append hsep _ (some ∘ setclrAttr set flag) ?_ x).trans ?_)
  · intro x
    rw [valAt_mapVals, Option.map_eq_bind]
  · rw [Option.map_eq_bind]

end Isolate

theorem memblockRemoveRange_ok (h : MemblockOk t) (grown : List Bool) (base size : PhysAddr) :
    ∃ ret t', memblockRemoveRange grown t base size = some (ret, t') ∧ MemblockOk t' ∧
      MemblockOp.Spec t ret t' (.remove grown base size) := by
  unfold memblockRemoveRange
  obtain ⟨max, hle, ⟨ret, hrun, hlacks, hnone⟩ |
    ⟨hsep, hsize, startRgn, endRgn, bef, ins, aft, hrun, hiso, hroom⟩⟩ :=
    memblockIsolateRange_cases h grown base size
  · rw [hrun]
    refine ⟨ret, { t with max := max }, by cases ret <;> rfl, h.grow hle, hlacks, fun x => ?_⟩
    split_ifs with hin
    · exact hnone hin.1 x hin.2
    · rfl
  · rw [hrun]
    obtain ⟨t', hloop, hok, hattr⟩ := hiso.remove_ok hsep h hroom hsize hle
    refine ⟨.ok, t', congrArg (fun t => some (Ret.ok, t)) hloop, hok, nofun, fun x => ?_⟩
    rw [hattr]
    simp

theorem MemblockOk.merge (h : MemblockOk t) :
    ∃ t', memblockMergeRegions t = some t' ∧ MemblockOk t' ∧ ∀ x, t'.attrAt x = t.attrAt x := by
  rcases h.sorted with ⟨nid, hregions⟩ | hsep
  · refine ⟨t, ?_, h, fun _ => rfl⟩
    unfold memblockMergeRegions cnt
    rw [hregions]
    change some { t with regions := [⟨0, 0, 0, nid⟩] } = some t
    rw [← hregions]
  · exact memblockMergeRegions_ok h.fits hsep h.cnt_pos h.cnt_le h.total_eq

theorem memblockSetclrFlag_ok (h : MemblockOk t) (grown : List Bool) (base size : PhysAddr)
    (set : Bool) (flag : BitVec 64) :
    ∃ ret t', memblockSetclrFlag grown t base size set flag = some (ret, t') ∧ MemblockOk t' ∧
      MemblockOp.Spec t ret t' (.setclr grown base size set flag) := by
  unfold memblockSetclrFlag
  obtain ⟨max, hle, ⟨ret, hrun, hlacks, hnone⟩ |
    ⟨hsep, hsize, startRgn, endRgn, bef, ins, aft, hrun, hiso, hroom⟩⟩ :=
    memblockIsolateRange_cases h grown base size
  · rw [hrun]
    cases ret with
    | enomem =>
      exact ⟨.enomem, _, rfl, h.grow hle, hlacks, fun x => (if_neg (by rintro ⟨⟨⟩, -⟩)).symm⟩
    | ok =>
      obtain ⟨t', hmerge, hok, hattr⟩ := (h.grow hle).merge
      refine ⟨.ok, t', congrArg (Option.map fun t => (Ret.ok, t)) hmerge, hok, nofun, fun x => ?_⟩
      refine (hattr x).trans ?_
      split_ifs with hin
      · rw [hnone rfl x hin.2]
        exact hnone rfl x hin.2
      · rfl
  · rw [hrun]
    obtain ⟨t', hmerge, hok, hattr⟩ := hiso.setclr_ok hsep h hroom set flag
    refine ⟨.ok, t', congrArg (Option.map fun t => (Ret.ok, t)) hmerge, hok, nofun, fun x => ?_⟩
    rw [hattr]
    simp

theorem MemblockOk.run (h : MemblockOk t) (op : MemblockOp) :
    ∃ ret t', op.run t = some (ret, t') ∧ MemblockOk t' ∧ op.Spec t ret t' := by
  cases op with
  | add grown base size nid flags =>
    exact memblockAddRange_ok h grown base size nid flags
  | remove grown base size => exact memblockRemoveRange_ok h grown base size
  | setclr grown base size set flag =>
    exact memblockSetclrFlag_ok h grown base size set flag

theorem MemblockOk.of_reachable (h : Reachable t) : MemblockOk t := by
  induction h with
  | init hmax => exact .dummy 0 hmax
  | step op ret _ hrun ih =>
    obtain ⟨ret', t', hrun', hok, -⟩ := ih.run op
    cases hrun.symm.trans hrun'
    exact hok

/-- The invariant and the effect of each operation, in every state reached from the empty array. -/
theorem memblock_reachable {t : MemblockType} (h : Reachable t) :
    MemblockOk t ∧
      ∀ op : MemblockOp, ∃ ret t', op.run t = some (ret, t') ∧ MemblockOk t' ∧ op.Spec t ret t' :=
  ⟨.of_reachable h, (MemblockOk.of_reachable h).run⟩

/-- Five pages with the second one removed. -/
def twoRegions : MemblockType :=
  ⟨[⟨4096, 4096, 0, 0⟩, ⟨12288, 12288, 0, 0⟩], 128, 16384⟩

theorem reachable_twoRegions : Reachable twoRegions :=
  .step (t := ⟨[⟨4096, 20480, 0, 0⟩], 128, 20480⟩) (.remove [] 8192 4096) .ok
    (.step (.add [] 4096 20480 0 0) .ok (@Reachable.init 128 (by decide)) (by decide)) (by decide)

theorem memblock_reachable_added : MemblockOk twoRegions :=
  (memblock_reachable reachable_twoRegions).1

section Search

open List

variable {addr : PhysAddr} {fuel left right : Nat}

theorem MemblockOk.pairwise (h : MemblockOk t) :
    t.regions.Pairwise (fun r r' => r.seg.hi ≤ r'.seg.lo) := by
  rcases h.sorted with ⟨nid, hregions⟩ | hsep
  · rw [hregions]
    exact pairwise_singleton _ _
  · exact pairwise_map.mp hsep.pairwise

/-- The index of the region that holds the address, or -1 if it has no attributes. -/
def Locates (t : MemblockType) (addr : PhysAddr) (ret : Option Int) : Prop :=
  (ret = some (-1) ∧ t.attrAt addr.toNat = none) ∨
    ∃ (i : Nat) (r : MemblockRegion), ret = some (i : Int) ∧ t.regions[i]? = some r ∧
      r.seg.lo ≤ addr.toNat ∧ addr.toNat < r.seg.hi ∧ t.attrAt addr.toNat = some r.seg.val

/-- The regions in front of `left` end at the address or below, those from `right` on start above
it. -/
theorem searchLoop_locates (h : MemblockOk t) (hlt : left < right) (hfuel : right ≤ left + fuel)
    (hn : right ≤ t.cnt) (hbelow : ∀ r ∈ t.regions.take left, r.seg.hi ≤ addr.toNat)
    (habove : ∀ r ∈ t.regions.drop right, addr.toNat < r.seg.lo) :
    Locates t addr (searchLoop t addr fuel left right) := by
  induction fuel generalizing left right with
  | zero => omega
  | succ fuel ih =>
    have hnext {l r : Nat} (hfuel : r ≤ l + fuel) (hn : r ≤ t.cnt)
        (hbelow : ∀ s ∈ t.regions.take l, s.seg.hi ≤ addr.toNat)
        (habove : ∀ s ∈ t.regions.drop r, addr.toNat < s.seg.lo) :
        Locates t addr (if l < r then searchLoop t addr fuel l r else some (-1)) := by
      split_ifs with hlt
      · exact ih hlt hfuel hn hbelow habove
      · refine .inl ⟨rfl, valAt_eq_none (forall_mem_map.mpr fun s hs hlo => ?_)⟩
        rw [← take_append_drop l t.regions, mem_append] at hs
        rcases hs with hs | hs
        · exact hbelow s hs
        · have := habove s (drop_subset_drop_left _ (by omega) hs)
          omega
    rw [searchLoop]
    generalize hmid : (right + left) / 2 = mid
    have hlt' : mid < t.regions.length := by
      change right ≤ t.regions.length at hn
      omega
    rw [getD_eq_getElem _ _ hlt']
    have hget := getElem?_eq_getElem hlt'
    have hfits := h.fits _ (getElem_mem hlt')
    have htake := take_append_getElem hlt'
    have hdrop := drop_eq_getElem_cons hlt'
    generalize t.regions[mid] = r at *
    have hsplit : t.regions = t.regions.take mid ++ r :: t.regions.drop (mid + 1) := by
      rw [← hdrop, take_append_drop]
    have hsorted := h.pairwise
    rw [hsplit, pairwise_append, pairwise_cons] at hsorted
    obtain ⟨-, ⟨hpost, -⟩, hpre⟩ := hsorted
    have hle : r.seg.lo ≤ r.seg.hi := Nat.le_add_right _ _
    have hstop : r.base + r.size ≤ addr ↔ r.seg.hi ≤ addr.toNat := by
      rw [BitVec.le_def, hfits.toNat_end]
    dsimp only
    by_cases hlo : addr < r.base
    · rw [if_pos hlo]
      refine hnext (by omega) (by omega) hbelow ?_
      rw [hdrop, forall_mem_cons]
      exact ⟨hlo, fun s hs => lt_of_lt_of_le hlo (hle.trans (hpost s hs))⟩
    rw [if_neg hlo]
    have hpre' : ∀ s ∈ t.regions.take mid, s.seg.hi ≤ addr.toNat := fun s hs =>
      (hpre s hs r mem_cons_self).trans (not_lt.mp hlo)
    by_cases hhi : r.seg.hi ≤ addr.toNat
    · rw [if_pos (hstop.mpr hhi)]
      refine hnext (by omega) hn ?_ habove
      rw [← htake, forall_mem_append, forall_mem_singleton]
      exact ⟨hpre', hhi⟩
    · rw [if_neg (mt hstop.mp hhi)]
      have hlo' : r.seg.lo ≤ addr.toNat := not_lt.mp hlo
      refine .inr ⟨mid, r, rfl, hget, hlo', not_le.mp hhi, ?_⟩
      have hnone : valAt (segs (t.regions.take mid)) addr.toNat = none :=
        valAt_eq_none (forall_mem_map.mpr fun s hs _ => hpre' s hs)
      rw [attrAt, hsplit, segs_append, valAt_append, hnone]
      exact if_pos ⟨hlo', not_le.mp hhi⟩

/-- A search finds the region with the address, in every array that can come up. -/
theorem memblock_search_locates (h : Reachable t) (addr : PhysAddr) :
    Locates t addr (memblockSearch t addr) := by
  have hok := MemblockOk.of_reachable h
  exact searchLoop_locates hok hok.cnt_pos (by omega) (le_refl _) (by simp) (by simp [cnt])

theorem memblock_search_locates_added :
    memblockSearch twoRegions 16384 = some 1 ∧
      Locates twoRegions 16384 (memblockSearch twoRegions 16384) :=
  ⟨by decide, memblock_search_locates reachable_twoRegions 16384⟩

end Search

end LinuxKernel.Mm
