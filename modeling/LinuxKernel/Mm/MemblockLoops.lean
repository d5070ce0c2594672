import Mathlib.Data.BitVec
import Mathlib.Data.List.GetD
import Mathlib.Tactic.LinearCombination
import LinuxKernel.Lib.SegMap
import LinuxKernel.Mm.Memblock

/-!
# The loops of memblock

Each loop goes over the array with an index and changes the array below it.  The
lemmas here say what it makes of the part of the array from the index on, as an
operation on a map from addresses to nodes and flags.
-/

namespace LinuxKernel.Mm

open Lib List MemblockType MemblockRegion

theorem insertIdx_length {α : Type} (pre rest : List α) (a : α) :
    (pre ++ rest).insertIdx pre.length a = pre ++ a :: rest := by
  induction pre with
  | nil => rfl
  | cons b pre ih =>
    rw [cons_append, length_cons, insertIdx_succ_cons, ih]
    rfl

/-- The node and the flags of an address. -/
abbrev Attr := BitVec 32 × BitVec 64

def MemblockRegion.seg (r : MemblockRegion) : Seg Attr where
  lo := r.base.toNat
  hi := r.base.toNat + r.size.toNat
  val := (r.nid, r.flags)

/-- The map that an array of regions stands for. -/
def segs (regions : List MemblockRegion) : List (Seg Attr) :=
  regions.map MemblockRegion.seg

@[simp]
theorem segs_nil : segs [] = [] :=
  rfl

@[simp]
theorem segs_cons (r : MemblockRegion) (regions : List MemblockRegion) :
    segs (r :: regions) = r.seg :: segs regions :=
  rfl

@[simp]
theorem segs_append (l₁ l₂ : List MemblockRegion) : segs (l₁ ++ l₂) = segs l₁ ++ segs l₂ :=
  map_append

@[simp]
theorem length_segs (regions : List MemblockRegion) : (segs regions).length = regions.length :=
  length_map _

/-- The end of a region is an address. -/
def MemblockRegion.Fits (r : MemblockRegion) : Prop :=
  r.base.toNat + r.size.toNat < 2 ^ 64

theorem MemblockRegion.Fits.toNat_end {r : MemblockRegion} (h : r.Fits) :
    (r.base + r.size).toNat = r.seg.hi := by
  rw [BitVec.toNat_add]
  exact Nat.mod_eq_of_lt h

theorem ofNat_seg (r : MemblockRegion) : BitVec.ofNat 64 (r.seg.hi - r.seg.lo) = r.size := by
  unfold seg
  rw [Nat.add_sub_cancel_left, BitVec.ofNat_toNat, BitVec.setWidth_eq]

theorem seg_between {lo hi : PhysAddr} (hle : lo ≤ hi) (nid : BitVec 32) (flags : BitVec 64) :
    seg ⟨lo, hi - lo, flags, nid⟩ = ⟨lo.toNat, hi.toNat, (nid, flags)⟩ ∧
      MemblockRegion.Fits ⟨lo, hi - lo, flags, nid⟩ := by
  have hsub : (hi - lo).toNat = hi.toNat - lo.toNat := BitVec.toNat_sub_of_le hle
  have hle' : lo.toNat ≤ hi.toNat := hle
  unfold seg MemblockRegion.Fits
  dsimp only
  rw [hsub]
  refine ⟨?_, by omega⟩
  congr 1
  omega

variable {rest : List MemblockRegion}

section Merge

variable {a c : MemblockRegion} {b : Nat}

theorem seg_join (hc : c.Fits) (htouch : a.seg.hi = c.seg.lo) :
    seg { a with size := a.size + c.size } = ⟨a.seg.lo, c.seg.hi, a.seg.val⟩ ∧
      MemblockRegion.Fits { a with size := a.size + c.size } := by
  unfold seg MemblockRegion.Fits at *
  dsimp only at *
  have hsize : (a.size + c.size).toNat = a.size.toNat + c.size.toNat := by
    rw [BitVec.toNat_add]
    omega
  rw [hsize]
  refine ⟨?_, by omega⟩
  congr 1
  omega

theorem mergeLoop_eq (hfits : ∀ r ∈ a :: rest, r.Fits) (hsep : SepFrom b (segs (a :: rest)))
    (pre : List MemblockRegion) :
    ∃ out, mergeLoop (rest.length + 1) pre.length (pre ++ a :: rest) = some (pre ++ out) ∧
        segs out = mergeFrom a.seg (segs rest) ∧ ∀ r ∈ out, r.Fits := by
  induction rest generalizing a b pre with
  | nil =>
    refine ⟨[a], ?_, rfl, hfits⟩
    rw [mergeLoop, if_neg (by simp)]
  | cons c rest ih =>
    obtain ⟨ha, hrest⟩ := forall_mem_cons.mp hfits
    have hc := hrest c mem_cons_self
    obtain ⟨hb, hlt, hac, hcc, hl⟩ := hsep
    have hthis : (pre ++ a :: c :: rest).getD pre.length default = a := by
      simp
    have hnext : (pre ++ a :: c :: rest).getD (pre.length + 1) default = c := by
      simp
    have hend := ha.toNat_end
    unfold mergeLoop
    rw [if_pos (by simp)]
    simp only [hthis, hnext]
    rw [segs_cons, mergeFrom]
    by_cases hmerge : a.seg.hi = c.seg.lo ∧ a.seg.val = c.seg.val
    · -- `this` takes the place of both
      obtain ⟨htouch, hval⟩ := hmerge
      obtain ⟨hnid, hflags⟩ := Prod.mk.inj hval
      have htouch' : a.base + a.size = c.base := by
        apply BitVec.eq_of_toNat_eq
        rw [hend, htouch]
        rfl
      obtain ⟨hseg, hjoin⟩ := seg_join hc htouch
      have hfits' : ∀ r ∈ { a with size := a.size + c.size } :: rest, r.Fits :=
        forall_mem_cons.mpr ⟨hjoin, (forall_mem_cons.mp hrest).2⟩
      have hsep' : SepFrom b (segs ({ a with size := a.size + c.size } :: rest)) := by
        rw [segs_cons, hseg]
        exact ⟨hb, by dsimp only; omega, hl⟩
      rw [if_neg (by simp [htouch', hnid, hflags]), if_pos ⟨htouch, hval⟩]
      have harray : ((pre ++ a :: c :: rest).set pre.length
              { a with size := a.size + c.size }).eraseIdx (pre.length + 1) =
            pre ++ { a with size := a.size + c.size } :: rest := by
        rw [set_append_right _ _ (le_refl _), Nat.sub_self,
          eraseIdx_append_of_length_le (Nat.le_add_right _ 1), Nat.add_sub_cancel_left]
        rfl
      rw [harray, ← hseg]
      exact ih hfits' hsep' pre
    have hne : a.base + a.size ≠ c.base ∨ a.nid ≠ c.nid ∨ a.flags ≠ c.flags := by
      by_contra hall
      simp only [not_or, not_not] at hall
      refine hmerge ⟨?_, ?_⟩
      · rw [← hend, hall.1]
        rfl
      · exact Prod.ext hall.2.1 hall.2.2
    have hbug : ¬ c.base < a.base + a.size := by
      rw [BitVec.lt_def, hend]
      exact not_lt.mpr hac
    rw [if_pos hne, if_neg hbug, if_neg hmerge]
    obtain ⟨out, hout, hsegs, hfits'⟩ := ih hrest ⟨hac, hcc, hl⟩ (pre ++ [a])
    refine ⟨a :: out, ?_, ?_, ?_⟩
    · simpa using hout
    · rw [segs_cons, hsegs]
    · exact forall_mem_cons.mpr ⟨ha, hfits'⟩

end Merge

variable {pre pre' mid rest' : List MemblockRegion} {t t' : MemblockType} {base : PhysAddr}

section Add

variable {nid : BitVec 32} {flags : BitVec 64} {stop base' : PhysAddr}

theorem memblockInsertRegion_eq (hregions : t.regions = pre ++ rest) (hroom : t.cnt < t.max)
    (base size : PhysAddr) (nid : BitVec 32) (flags : BitVec 64) :
    memblockInsertRegion t pre.length base size nid flags = some
        { t with
          regions := pre ++ ⟨base, size, flags, nid⟩ :: rest
          totalSize := t.totalSize + size } := by
  unfold memblockInsertRegion
  rw [if_neg (not_le.mpr hroom), hregions, insertIdx_length]

theorem toNat_min (x y : PhysAddr) : (if x ≤ y then x else y).toNat = min x.toNat y.toNat := by
  split_ifs with h
  · exact (min_eq_left h).symm
  · exact (min_eq_right (Nat.le_of_not_le h)).symm

/-- What the `for` loop of `memblock_add_range()` makes of the regions `rest` from its index on: it
passes `mid` and stops in front of `rest'`, where the rest from `base` on goes. -/
structure AddLoop (insert : Bool) (v : Attr) (stop : PhysAddr)
    (rest : List MemblockRegion) (nrNew : Nat) (base : PhysAddr)
    (pre : List MemblockRegion) (t : MemblockType)
    (out : Nat × Nat × PhysAddr × MemblockType)
    (mid rest' : List MemblockRegion) : Prop where
  fill : segs mid ++ piece out.2.2.1.toNat stop.toNat v ++ segs rest' =
      fill stop.toNat v base.toNat (segs rest)
  nrNew : out.2.1 + rest.length = nrNew + mid.length + rest'.length
  fits : ∀ r ∈ mid ++ rest', r.Fits
  counted : insert = false → out.2.2.2 = t
  inserted : insert = true →
      out.1 = (pre ++ mid).length ∧
        out.2.2.2 =
          { t with
            regions := pre ++ (mid ++ rest')
            totalSize := out.2.2.2.totalSize } ∧
        out.2.2.2.totalSize + BitVec.ofNat 64 (extent (segs rest)) =
          t.totalSize + BitVec.ofNat 64 (extent (segs (mid ++ rest')))

theorem AddLoop.extend {insert : Bool} {v : Attr} {nrNew nrNew' : Nat}
    {out : Nat × Nat × PhysAddr × MemblockType}
    (h : AddLoop insert v stop rest nrNew' base' pre' t' out mid rest') (r : MemblockRegion)
    (front : List MemblockRegion) (hfill : Lib.fill stop.toNat v base.toNat (segs (r :: rest)) =
        segs front ++ Lib.fill stop.toNat v base'.toNat (segs rest))
    (hnr : nrNew' + 1 = nrNew + front.length) (hfits : ∀ r ∈ front, r.Fits)
    (hcounted : insert = false → t' = t) (hinserted : insert = true →
        pre' = pre ++ front ∧ t'.max = t.max ∧
          t'.totalSize + BitVec.ofNat 64 (extent [r.seg]) =
            t.totalSize + BitVec.ofNat 64 (extent (segs front))) :
    AddLoop insert v stop (r :: rest) nrNew base pre t out (front ++ mid) rest' where
  fill := by
    rw [hfill, ← h.fill]
    simp
  nrNew := by
    have := h.nrNew
    simp only [length_cons, length_append]
    omega
  fits := by
    rw [append_assoc]
    exact forall_mem_append.mpr ⟨hfits, h.fits⟩
  counted := fun hins => (h.counted hins).trans (hcounted hins)
  inserted := by
    intro hins
    obtain ⟨hi, ht, htotal⟩ := h.inserted hins
    obtain ⟨rfl, hmax, htotal'⟩ := hinserted hins
    refine ⟨by rw [hi, append_assoc], ?_, ?_⟩
    · rw [ht, hmax]
      simp
    rw [extent_cons, extent_nil, Nat.add_zero] at htotal'
    simp only [segs_cons, segs_append, extent_cons, extent_append, BitVec.ofNat_add] at htotal ⊢
    linear_combination htotal + htotal'

variable (nid flags stop) in
theorem addLoop_eq (insert : Bool) (hfits : ∀ r ∈ rest, r.Fits) (hregions : t.regions = pre ++ rest)
    (nrNew : Nat) (base : PhysAddr)
    (hroom : insert = true →
        t.cnt + (fill stop.toNat (nid, flags) base.toNat (segs rest)).length ≤
          t.max + rest.length) :
    ∃ out mid rest',
      addLoop nid flags stop insert (rest.length + 1) pre.length nrNew base t = some out ∧
        AddLoop insert (nid, flags) stop rest nrNew base pre t out mid rest' := by
  induction rest generalizing t pre nrNew base with
  | nil =>
    refine ⟨(pre.length, nrNew, base, t), [], [], ?_, ?_⟩
    · rw [addLoop, if_neg (by simp [cnt, hregions])]
    exact
      { fill := append_nil _
        nrNew := rfl
        fits := hfits
        counted := fun _ => rfl
        inserted := fun _ => ⟨by simp, by simp [← hregions], rfl⟩ }
  | cons r rest ih =>
    obtain ⟨hr, hrest⟩ := forall_mem_cons.mp hfits
    have hthis : t.regions.getD pre.length default = r := by
      simp [hregions]
    have hregions' : t.regions = (pre ++ [r]) ++ rest := by simp [hregions]
    rw [addLoop, if_pos (by simp [cnt, hregions])]
    simp only [hthis]
    have hfill : Lib.fill stop.toNat (nid, flags) base.toNat (segs (r :: rest)) =
        if stop ≤ r.base then piece base.toNat stop.toNat (nid, flags) ++ segs (r :: rest)
        else if r.base + r.size ≤ base then
          r.seg :: Lib.fill stop.toNat (nid, flags) base.toNat (segs rest)
        else
          piece base.toNat r.seg.lo (nid, flags) ++ r.seg ::
            Lib.fill stop.toNat (nid, flags)
              (if r.base + r.size ≤ stop then r.base + r.size else stop).toNat (segs rest) := by
      rw [toNat_min]
      simp only [hr.toNat_end, BitVec.le_def]
      rfl
    rw [hfill] at hroom
    by_cases hbreak : stop ≤ r.base
    · rw [if_pos hbreak] at hfill ⊢
      refine ⟨(pre.length, nrNew, base, t), [], r :: rest, rfl, ?_⟩
      exact
        { fill := hfill.symm
          nrNew := rfl
          fits := hfits
          counted := fun _ => rfl
          inserted := fun _ => ⟨by simp, by simp [← hregions], rfl⟩ }
    rw [if_neg hbreak] at hfill hroom ⊢
    by_cases hskip : r.base + r.size ≤ base
    · rw [if_pos hskip] at hfill hroom ⊢
      rw [length_cons, length_cons] at hroom
      obtain ⟨out, mid, rest', hout, hloop⟩ := ih hrest hregions' nrNew base
          (fun hins => by have := hroom hins; omega)
      refine ⟨out, [r] ++ mid, rest', by simpa using hout, ?_⟩
      exact hloop.extend r [r] hfill rfl (by simpa using hr)
        (fun _ => rfl) (fun _ => ⟨rfl, rfl, rfl⟩)
    rw [if_neg hskip] at hfill hroom ⊢
    rw [length_append, length_cons, length_cons] at hroom
    generalize (if r.base + r.size ≤ stop then r.base + r.size else stop) = base' at *
    by_cases hgap : base < r.base
    · obtain ⟨new, hnew⟩ : ∃ new : MemblockRegion, new = ⟨base, r.base - base, flags, nid⟩ :=
        ⟨_, rfl⟩
      obtain ⟨hseg, hnewfits⟩ := hnew ▸ seg_between (BitVec.le_of_lt hgap) nid flags
      have hpiece : piece base.toNat r.seg.lo (nid, flags) = segs [new] := by
        rw [segs_cons, hseg, piece, if_pos (show _ < r.seg.lo from hgap)]
        rfl
      rw [hpiece] at hfill hroom
      rw [if_pos hgap]
      have hfront : ∀ q ∈ [new, r], q.Fits := by simp [hnewfits, hr]
      cases insert with
      | false =>
        obtain ⟨out, mid, rest', hout, hloop⟩ :=
          ih hrest hregions' (nrNew + 1) base' (by rintro ⟨⟩)
        refine ⟨out, [new, r] ++ mid, rest', by simpa using hout, ?_⟩
        exact hloop.extend r [new, r] hfill rfl hfront (fun _ => rfl) (by rintro ⟨⟩)
      | true =>
        have hroom' := hroom rfl
        simp only [length_segs, length_singleton] at hroom'
        have hle := length_le_fill base'.toNat stop.toNat (nid, flags) (segs rest)
        rw [length_segs] at hle
        rw [memblockInsertRegion_eq hregions (by omega), ← hnew]
        dsimp only
        obtain ⟨out, mid, rest', hout, hloop⟩ := ih hrest
            (t := ⟨pre ++ new :: r :: rest, t.max, t.totalSize + (r.base - base)⟩)
            (show _ = (pre ++ [new, r]) ++ rest by simp) (nrNew + 1) base' (by
              intro _
              have hcnt : t.cnt = pre.length + (rest.length + 1) := by
                simp [cnt, hregions]
              simp only [cnt, length_append, length_cons]
              omega)
        refine ⟨out, [new, r] ++ mid, rest', by simpa using hout, ?_⟩
        refine hloop.extend r [new, r] hfill rfl hfront (by rintro ⟨⟩) fun _ => ⟨rfl, rfl, ?_⟩
        simp only [segs_cons, segs_nil, extent_cons, extent_nil, BitVec.ofNat_add, ofNat_seg, hnew]
        ac_rfl
    have hpiece : piece base.toNat r.seg.lo (nid, flags) = [] := if_neg hgap
    rw [hpiece, nil_append] at hfill
    rw [hpiece, length_nil] at hroom
    rw [if_neg hgap]
    obtain ⟨out, mid, rest', hout, hloop⟩ := ih hrest hregions' nrNew base'
        (fun hins => by have := hroom hins; omega)
    refine ⟨out, [r] ++ mid, rest', by simpa using hout, ?_⟩
    exact hloop.extend r [r] hfill rfl (by simpa using hr) (fun _ => rfl) (fun _ => ⟨rfl, rfl, rfl⟩)

variable (nid flags stop) in
theorem addRound_count (hfits : ∀ r ∈ t.regions, r.Fits) (base : PhysAddr) :
    ∃ nrNew, addRound nid flags stop false base t = some (nrNew, t) ∧
        nrNew + t.cnt = (fill stop.toNat (nid, flags) base.toNat (segs t.regions)).length := by
  obtain ⟨⟨i, nrNew, base', t'⟩, mid, rest', hout, hloop⟩ :=
    addLoop_eq nid flags stop false hfits (nil_append t.regions).symm 0 base (by rintro ⟨⟩)
  obtain rfl : t' = t := hloop.counted rfl
  have hnr : nrNew + t'.cnt = 0 + mid.length + rest'.length := hloop.nrNew
  rw [← hloop.fill]
  simp only [length_append, length_segs]
  unfold addRound
  rw [show addLoop nid flags stop false (t'.cnt + 1) 0 0 base t' = _ from hout]
  dsimp only [piece]
  by_cases hlt : base' < stop
  · refine ⟨nrNew + 1, if_pos hlt, ?_⟩
    rw [if_pos (show base'.toNat < stop.toNat from hlt), length_singleton]
    omega
  · refine ⟨nrNew, if_neg hlt, ?_⟩
    rw [if_neg (show ¬ base'.toNat < stop.toNat from hlt), length_nil]
    omega

variable (nid flags stop) in
theorem addRound_insert (hfits : ∀ r ∈ t.regions, r.Fits)
    (hroom : (fill stop.toNat (nid, flags) base.toNat (segs t.regions)).length ≤ t.max) :
    ∃ nrNew out total, addRound nid flags stop true base t =
          some (nrNew, { t with regions := out, totalSize := total }) ∧
        segs out = fill stop.toNat (nid, flags) base.toNat (segs t.regions) ∧
        (∀ r ∈ out, r.Fits) ∧
        total + BitVec.ofNat 64 (extent (segs t.regions)) =
          t.totalSize + BitVec.ofNat 64 (extent (segs out)) := by
  obtain ⟨⟨i, nrNew, base', t'⟩, mid, rest', hout, hloop⟩ :=
    addLoop_eq nid flags stop true hfits (nil_append t.regions).symm 0 base (fun _ => by
        rw [cnt, Nat.add_comm]
        exact Nat.add_le_add_right hroom _)
  obtain ⟨hi, ht, htotal⟩ := hloop.inserted rfl
  dsimp only at hi ht htotal
  rw [nil_append] at hi ht
  have hfill := hloop.fill
  dsimp only at hfill
  unfold addRound
  rw [show addLoop nid flags stop true (t.cnt + 1) 0 0 base t = _ from hout]
  dsimp only
  by_cases hlt : base' < stop
  · obtain ⟨hseg, hnew⟩ := seg_between (BitVec.le_of_lt hlt) nid flags
    rw [piece, if_pos (show base'.toNat < stop.toNat from hlt), ← hseg] at hfill
    have hlen := congrArg List.length hfill
    simp only [length_append, length_segs, length_singleton] at hlen
    have hroom' : t'.cnt < t'.max := by
      rw [ht]
      simp only [cnt, length_append]
      omega
    have hregions : t'.regions = mid ++ rest' := by rw [ht]
    have hmax : t'.max = t.max := by rw [ht]
    rw [if_pos hlt, if_pos rfl, hi, memblockInsertRegion_eq hregions hroom' base' _ nid flags, hmax]
    refine ⟨nrNew + 1, mid ++ ⟨base', stop - base', flags, nid⟩ :: rest',
      t'.totalSize + (stop - base'), rfl, ?_, ?_, ?_⟩
    · rw [← hfill]
      simp
    · obtain ⟨hmid, hrest⟩ := forall_mem_append.mp hloop.fits
      exact forall_mem_append.mpr ⟨hmid, forall_mem_cons.mpr ⟨hnew, hrest⟩⟩
    have hsize := ofNat_seg ⟨base', stop - base', flags, nid⟩
    simp only [segs_append, segs_cons, extent_append, extent_cons,
      BitVec.ofNat_add, hsize] at htotal ⊢
    linear_combination htotal
  · rw [piece, if_neg (show ¬ base'.toNat < stop.toNat from hlt),
      append_nil, ← segs_append] at hfill
    rw [if_neg hlt]
    refine ⟨nrNew, mid ++ rest', t'.totalSize, ?_, hfill, hloop.fits, htotal⟩
    rw [← ht]

end Add

theorem splitRegion_eq {r : MemblockRegion} (hregions : t.regions = pre ++ r :: rest) (hr : r.Fits)
    (hroom : t.cnt < t.max) {mid : PhysAddr} (hlo : r.seg.lo < mid.toNat)
    (hhi : mid.toNat < r.seg.hi) :
    ∃ low high, splitRegion t pre.length mid =
          some { t with regions := pre ++ low :: high :: rest } ∧
        low.seg = ⟨r.seg.lo, mid.toNat, r.seg.val⟩ ∧
        high.seg = ⟨mid.toNat, r.seg.hi, r.seg.val⟩ ∧ low.Fits ∧ high.Fits := by
  have hthis : t.regions.getD pre.length default = r := by simp [hregions]
  have hend := hr.toNat_end
  have hhi' : mid ≤ r.base + r.size := by
    rw [BitVec.le_def, hend]
    exact hhi.le
  obtain ⟨hlow, hlowfits⟩ := seg_between (show r.base ≤ mid from hlo.le) r.nid r.flags
  obtain ⟨hhigh, hhighfits⟩ := seg_between hhi' r.nid r.flags
  rw [hend] at hhigh
  have hsize : r.size - (mid - r.base) = r.base + r.size - mid := by bv_omega
  refine ⟨_, _, ?_, hlow, hhigh, hlowfits, hhighfits⟩
  unfold splitRegion
  simp only [hthis, hsize]
  have hset : t.regions.set pre.length ⟨mid, r.base + r.size - mid, r.flags, r.nid⟩ =
      pre ++ ⟨mid, r.base + r.size - mid, r.flags, r.nid⟩ :: rest := by
    simp [hregions]
  rw [memblockInsertRegion_eq hset (by simpa [cnt] using hroom), BitVec.sub_add_cancel]

variable {stop : PhysAddr}

section Iterations

variable {t : MemblockType} {pre rest : List MemblockRegion} {r : MemblockRegion}

theorem isolateLoop_end (hregions : t.regions = pre) (fuel startRgn endRgn : Nat) :
    isolateLoop base stop (fuel + 1) pre.length startRgn endRgn t = some (startRgn, endRgn, t) := by
  rw [isolateLoop, if_neg (by simp [cnt, hregions])]

variable (hregions : t.regions = pre ++ r :: rest)

include hregions

theorem isolateLoop_cons (hr : r.Fits) (fuel startRgn endRgn : Nat) :
    isolateLoop base stop (fuel + 1) pre.length startRgn endRgn t =
      if stop.toNat ≤ r.seg.lo then some (startRgn, endRgn, t)
      else if r.seg.hi ≤ base.toNat then
        isolateLoop base stop fuel (pre.length + 1) startRgn endRgn t
      else if r.seg.lo < base.toNat then
        (splitRegion t pre.length base).bind
          (isolateLoop base stop fuel (pre.length + 1) startRgn endRgn)
      else if stop.toNat < r.seg.hi then
        (splitRegion t pre.length stop).bind (isolateLoop base stop fuel pre.length startRgn endRgn)
      else
        isolateLoop base stop fuel (pre.length + 1)
          (if endRgn = 0 then pre.length else startRgn) (pre.length + 1) t := by
  have hthis : t.regions.getD pre.length default = r := by simp [hregions]
  rw [isolateLoop, if_pos (by simp [cnt, hregions])]
  simp only [hthis, ← hr.toNat_end, BitVec.le_def, BitVec.lt_def]
  cases splitRegion t pre.length base <;> cases splitRegion t pre.length stop <;> rfl

end Iterations

variable (stop) in
/-- The loop of `memblock_isolate_range()` behind all regions that reach below `base`.  It records
the regions `ins` inside of the range and stops in front of `aft`. -/
theorem isolateLoop_inside (hfits : ∀ r ∈ rest, r.Fits) (hsep : SepFrom base.toNat (segs rest))
    (hregions : t.regions = pre ++ rest) (hroom : t.cnt < t.max) (fuel startRgn endRgn : Nat) :
    ∃ ins aft, isolateLoop base stop (rest.length + fuel + 2) pre.length startRgn endRgn t = some
            (if endRgn = 0 ∧ ins ≠ [] then pre.length else startRgn,
              if ins = [] then endRgn else pre.length + ins.length,
              { t with regions := pre ++ (ins ++ aft) }) ∧
        segs ins = below stop.toNat (segs rest) ∧
        segs aft = above stop.toNat (segs rest) ∧
        (∀ r ∈ ins ++ aft, r.Fits) ∧
        (ins ++ aft).length ≤ rest.length + 1 := by
  induction rest generalizing t pre startRgn endRgn with
  | nil =>
    refine ⟨[], [], ?_, rfl, rfl, hfits, Nat.zero_le _⟩
    rw [isolateLoop_end (by simpa using hregions)]
    simp [← hregions]
  | cons r rest ih =>
    obtain ⟨hr, hrest⟩ := forall_mem_cons.mp hfits
    obtain ⟨hlo, hlt, hl⟩ := hsep
    rw [segs_cons, below, above, length_cons, Nat.add_right_comm _ 1]
    by_cases hbreak : stop.toNat ≤ r.seg.lo
    · rw [if_neg (by omega), if_neg (by omega), if_neg (by omega), if_neg (by omega)]
      refine ⟨[], r :: rest, ?_, rfl, rfl, hfits, Nat.le_succ _⟩
      rw [isolateLoop_cons hregions hr, if_pos hbreak]
      simp [← hregions]
    by_cases hin : r.seg.hi ≤ stop.toNat
    · rw [if_pos hin, if_pos hin, isolateLoop_cons hregions hr, if_neg hbreak,
        if_neg (by omega), if_neg (by omega), if_neg (by omega)]
      obtain ⟨ins, aft, hout, hins, haft, hfits', hlen⟩ := ih hrest (hl.mono (by omega))
          (show t.regions = (pre ++ [r]) ++ rest by simp [hregions]) hroom
          (if endRgn = 0 then pre.length else startRgn) (pre.length + 1)
      refine ⟨r :: ins, aft, ?_, by rw [segs_cons, hins], haft, ?_, ?_⟩
      · simp only [length_append, length_singleton] at hout
        rw [hout]
        cases ins <;> simp
        omega
      · exact forall_mem_cons.mpr ⟨hr, hfits'⟩
      · exact Nat.succ_le_succ hlen
    obtain ⟨low, high, hsplit, hlow, hhigh, hlowfits, hhighfits⟩ :=
      splitRegion_eq hregions hr hroom (Nat.lt_of_not_le hbreak) (Nat.lt_of_not_le hin)
    rw [if_neg hin, if_pos (by omega), if_neg hin, if_pos (by omega),
      isolateLoop_cons hregions hr, if_neg hbreak, if_neg (by omega), if_neg (by omega),
      if_pos (by omega), hsplit]
    refine ⟨[low], high :: rest, ?_, by rw [segs_cons, hlow]; rfl,
      by rw [segs_cons, hhigh], ?_, le_refl _⟩
    · have hbehind : isolateLoop base stop (rest.length + fuel + 1) (pre ++ [low]).length
              (if endRgn = 0 then pre.length else startRgn)
              (pre.length + 1)
              { t with regions := pre ++ low :: high :: rest } =
            some _ :=
        (isolateLoop_cons
          (show pre ++ low :: high :: rest = (pre ++ [low]) ++ high :: rest by simp)
          hhighfits (rest.length + fuel) _ _).trans (if_pos (by rw [hhigh]))
      simp only [length_append, length_singleton] at hbehind
      rw [Option.bind_some, isolateLoop_cons rfl hlowfits, hlow]
      dsimp only
      rw [if_neg hbreak, if_neg (by omega), if_neg (by omega), if_neg (lt_irrefl _), hbehind]
      simp
    · exact forall_mem_cons.mpr ⟨hlowfits, forall_mem_cons.mpr ⟨hhighfits, hrest⟩⟩

/-- The whole loop of `memblock_isolate_range()`; `bef` is in front of the range. -/
theorem isolateLoop_eq (hstop : base.toNat < stop.toNat) {b : Nat} (hfits : ∀ r ∈ rest, r.Fits)
    (hsep : SepFrom b (segs rest)) (hregions : t.regions = pre ++ rest)
    (hroom : t.cnt + 1 < t.max) :
    ∃ bef ins aft, isolateLoop base stop (rest.length + 3) pre.length 0 0 t = some
            (if ins ≠ [] then (pre ++ bef).length else 0,
              if ins = [] then 0 else (pre ++ bef).length + ins.length,
              { t with regions := pre ++ (bef ++ (ins ++ aft)) }) ∧
        segs bef = below base.toNat (segs rest) ∧
        segs ins = below stop.toNat (above base.toNat (segs rest)) ∧
        segs aft = above stop.toNat (segs rest) ∧
        (∀ r ∈ bef ++ (ins ++ aft), r.Fits) ∧
        (bef ++ (ins ++ aft)).length ≤ rest.length + 2 := by
  induction rest generalizing b t pre with
  | nil =>
    refine ⟨[], [], [], ?_, rfl, rfl, rfl, hfits, Nat.zero_le _⟩
    rw [isolateLoop_end (by simpa using hregions)]
    simp [← hregions]
  | cons r rest ih =>
    obtain ⟨hr, hrest⟩ := forall_mem_cons.mp hfits
    obtain ⟨hb, hlt, hl⟩ := hsep
    by_cases hskip : r.seg.hi ≤ base.toNat
    · -- in front of the range
      rw [isolateLoop_cons hregions hr, if_neg (by omega), if_pos hskip]
      obtain ⟨bef, ins, aft, hout, hbef, hins, haft, hfits', hlen⟩ :=
        ih hrest hl (show t.regions = (pre ++ [r]) ++ rest by simp [hregions]) hroom
      refine ⟨r :: bef, ins, aft, ?_, ?_, ?_, ?_, ?_, Nat.succ_le_succ hlen⟩
      · rw [show (pre ++ [r]).length = pre.length + 1 by simp] at hout
        simp only [append_assoc, cons_append, nil_append] at hout
        exact hout
      · rw [segs_cons, segs_cons, below, if_pos hskip, hbef]
      · rw [segs_cons, above, if_pos hskip, hins]
      · rw [segs_cons, above, if_pos (by omega), haft]
      · exact forall_mem_cons.mpr ⟨hr, hfits'⟩
    by_cases hlo : r.seg.lo < base.toNat
    · -- the first region of the range has to be split
      obtain ⟨low, high, hsplit, hlow, hhigh, hlowfits, hhighfits⟩ :=
        splitRegion_eq hregions hr (by omega) hlo (Nat.lt_of_not_le hskip)
      rw [isolateLoop_cons hregions hr, if_neg (by omega), if_neg hskip, if_pos hlo, hsplit,
        Option.bind_some]
      have hcnt : t.cnt = pre.length + (rest.length + 1) := by
        simp [cnt, hregions]
      have hfits1 : ∀ q ∈ high :: rest, q.Fits := forall_mem_cons.mpr ⟨hhighfits, hrest⟩
      have hcut : above base.toNat (segs (r :: rest)) = segs (high :: rest) := by
        rw [segs_cons, segs_cons, above, if_neg hskip, if_pos hlo, hhigh]
      have hsep1 : SepFrom base.toNat (segs (high :: rest)) := by
        rw [segs_cons, hhigh]
        exact ⟨le_refl _, Nat.lt_of_not_le hskip, hl⟩
      obtain ⟨ins, aft, hout, hins, haft, hfits', hlen⟩ := isolateLoop_inside stop hfits1 hsep1
          (t := { t with regions := pre ++ low :: high :: rest })
          (show pre ++ low :: high :: rest = (pre ++ [low]) ++ high :: rest by
            simp)
          (by simp only [cnt, length_append, length_cons]; omega) 0 0 0
      refine ⟨[low], ins, aft, ?_, ?_, ?_, ?_, ?_, ?_⟩
      · rw [show (pre ++ [low]).length = pre.length + 1 by simp] at hout
        exact hout.trans (by simp)
      · rw [segs_cons, segs_cons, below, if_neg hskip, if_pos hlo, hlow]
        rfl
      · rw [hins, hcut]
      · rw [haft, ← hcut, above_above (le_of_lt hstop)]
      · exact forall_mem_cons.mpr ⟨hlowfits, hfits'⟩
      · exact Nat.succ_le_succ hlen
    have hlo' : base.toNat ≤ r.seg.lo := Nat.le_of_not_lt hlo
    obtain ⟨ins, aft, hout, hins, haft, hfits', hlen⟩ :=
      isolateLoop_inside stop hfits ⟨hlo', hlt, hl⟩ hregions (Nat.lt_of_succ_lt hroom) 1 0 0
    refine ⟨[], ins, aft, ?_, ?_, ?_, haft, hfits', Nat.le_succ_of_le hlen⟩
    · rw [hout]
      simp
    · rw [segs_cons, below, if_neg hskip, if_neg hlo]
      rfl
    · rw [hins, segs_cons, above, if_neg hskip, if_neg hlo]

end LinuxKernel.Mm
