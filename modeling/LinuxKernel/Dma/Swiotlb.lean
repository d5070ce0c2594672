import Mathlib.Algebra.Ring.Nat
import Mathlib.Data.List.Sort

/-!
# Bounce buffers

`swiotlb_tbl_map_single()` and `swiotlb_tbl_unmap_single()` of `lib/swiotlb.c` on the table
`io_tlb_list`.  Addresses and sizes are numbers below `2 ^ 64`, and arithmetic that can wrap does so
explicitly.  Indices are numbers: the table is small enough for `index << IO_TLB_SHIFT`, an
`unsigned int`.  The copies between the buffers and the memory of the caller are left out.
-/

namespace LinuxKernel.Dma

def ioTlbSegsize : Nat := 128

/-- `1 << IO_TLB_SHIFT`. -/
def slotSize : Nat := 2048

def pageSize : Nat := 4096

def invalidPhysAddr : Nat := 2 ^ 64 - 1

/-- `ALIGN()` to a power of two. -/
def alignUp (x a : Nat) : Nat :=
  (x + (a - 1)) % 2 ^ 64 / a * a

/-- The table of slots from `io_tlb_start` on, in whole segments. -/
structure Swiotlb where
  nslabs : Nat
  start : Nat
  tlbList : Nat → Nat
  tlbIndex : Nat
  origAddr : Nat → Nat
  pos : 0 < nslabs
  segments : ioTlbSegsize ∣ nslabs
  small : nslabs ≤ 2 ^ 21
  fits : start + nslabs * slotSize ≤ 2 ^ 64

/-- The free list of `swiotlb_init_with_tbl()`. -/
def swiotlbInit (nslabs start : Nat) (pos : 0 < nslabs) (segments : ioTlbSegsize ∣ nslabs)
    (small : nslabs ≤ 2 ^ 21) (fits : start + nslabs * slotSize ≤ 2 ^ 64) : Swiotlb where
  nslabs := nslabs
  start := start
  tlbList i := ioTlbSegsize - i % ioTlbSegsize
  tlbIndex := 0
  origAddr _ := invalidPhysAddr
  pos := pos
  segments := segments
  small := small
  fits := fits

/-- The arguments of `swiotlb_tbl_map_single()`. -/
structure MapRequest where
  /-- `dma_get_seg_boundary(hwdev)`. -/
  segBoundary : Nat
  tblDmaAddr : Nat
  origAddr : Nat
  size : Nat

namespace MapRequest

variable (req : MapRequest)

def offsetSlots : Nat :=
  alignUp (req.tblDmaAddr &&& req.segBoundary) slotSize / slotSize

def maxSlots : Nat :=
  if (req.segBoundary + 1) % 2 ^ 64 ≠ 0 then
    alignUp (req.segBoundary + 1) slotSize / slotSize
  else
    2 ^ 53

def stride : Nat :=
  if req.size > pageSize then pageSize / slotSize else 1

end MapRequest

/-- The number of slots for a size, as an `unsigned int`. -/
def nslotsOf (size : Nat) : Nat :=
  alignUp size slotSize / slotSize % 2 ^ 32

def isPowerOf2 (n : Nat) : Bool :=
  n ≠ 0 && n &&& (n - 1) == 0

/-- `iommu_is_span_boundary()` after its check. -/
def iommuIsSpanBoundary (index nr shift boundarySize : Nat) : Bool :=
  let shift := (shift + index) % 2 ^ 64 &&& (boundarySize - 1)
  (shift + nr) % 2 ^ 64 > boundarySize

section Search

variable (nslabs stride nslots wrap : Nat) (span : Nat → Bool) (tlbList : Nat → Nat)

/-- `index += stride`, around the end of the table. -/
def nextIndex (index : Nat) : Nat :=
  if index + stride ≥ nslabs then 0 else index + stride

/-- The inner loop, up to the next index that passes the boundary test; `none` for `goto
not_found`. -/
def skipSpans : Nat → Nat → Option (Option Nat)
  | 0, _ => none
  | fuel + 1, index =>
    if span index then
      if nextIndex nslabs stride index = wrap then
        some none
      else
        skipSpans fuel (nextIndex nslabs stride index)
    else
      some (some index)

/-- The search for `nslots` free slots. -/
def searchLoop : Nat → Nat → Option (Option Nat)
  | 0, _ => none
  | fuel + 1, index => do
      match ← skipSpans nslabs stride wrap span (fuel + 1) index with
      | none => return none
      | some index =>
        if tlbList index ≥ nslots then
          return some index
        else if nextIndex nslabs stride index = wrap then
          return none
        else
          searchLoop fuel (nextIndex nslabs stride index)

end Search

def clearSlots : (Nat → Nat) → Nat → Nat → (Nat → Nat)
  | tlbList, _, 0 => tlbList
  | tlbList, i, n + 1 => clearSlots (Function.update tlbList i 0) (i + 1) n

/-- Count the free slots before an index, down to a busy slot or the start of the segment. -/
def countBack : (Nat → Nat) → Nat → Nat → (Nat → Nat)
  | tlbList, 0, _ => tlbList
  | tlbList, i + 1, count =>
    if i % ioTlbSegsize ≠ ioTlbSegsize - 1 ∧ tlbList i ≠ 0 then
      countBack (Function.update tlbList i (count + 1)) i (count + 1)
    else
      tlbList

/-- The loop that returns `n` slots from the last down to `index`, and its last count. -/
def returnSlots (index : Nat) : (Nat → Nat) → Nat → Nat → (Nat → Nat) × Nat
  | tlbList, 0, count => (tlbList, count)
  | tlbList, n + 1, count =>
    returnSlots index (Function.update tlbList (index + n) (count + 1)) n (count + 1)

inductive MapResult where
  | mapped (tlb : Swiotlb) (tlbAddr : Nat)
  | error
  | bug

namespace Swiotlb

variable (tlb : Swiotlb)

/-- The writes for the slots from `index` on. -/
def allocate (req : MapRequest) (index : Nat) : Swiotlb :=
  let nslots := nslotsOf req.size
  { tlb with
    tlbList := countBack (clearSlots tlb.tlbList index nslots) index 0
    tlbIndex := if index + nslots < tlb.nslabs then index + nslots else 0
    origAddr := fun i =>
      if index ≤ i ∧ i < index + nslots then
        (req.origAddr + (i - index) * slotSize) % 2 ^ 64
      else
        tlb.origAddr i }

def firstIndex (req : MapRequest) : Nat :=
  let index := alignUp tlb.tlbIndex req.stride
  if index ≥ tlb.nslabs then 0 else index

def mapSingle (req : MapRequest) (fuel : Nat) : Option MapResult :=
  let nslots := nslotsOf req.size
  if nslots = 0 then
    some .bug
  else if !isPowerOf2 req.maxSlots then
    some .bug
  else
    let index := tlb.firstIndex req
    let span := fun index =>
      iommuIsSpanBoundary index nslots req.offsetSlots req.maxSlots
    match searchLoop tlb.nslabs req.stride nslots index span tlb.tlbList fuel index with
    | none => none
    | some none => some .error
    | some (some index) =>
      some (.mapped (tlb.allocate req index) (tlb.start + index * slotSize))

def unmapSingle (tlbAddr size : Nat) : Swiotlb :=
  let nslots := nslotsOf size
  let index := (tlbAddr - tlb.start) / slotSize
  let count :=
    if index + nslots < alignUp (index + 1) ioTlbSegsize then
      tlb.tlbList (index + nslots)
    else
      0
  let (tlbList, count) := returnSlots index tlb.tlbList nslots count
  { tlb with
    tlbList := countBack tlbList index count
    origAddr := fun i =>
      if index ≤ i ∧ i < index + nslots then invalidPhysAddr else tlb.origAddr i }

end Swiotlb

end LinuxKernel.Dma
